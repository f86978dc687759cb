import WebServer.Config.NginxConfigParser
import WebServer.Handler.LocalHandlers
import WebServer.Handler.ReverseProxyHandler
import WebServer.Handler.StaticRequestHandler

/-!
# The dispatcher

`RequestHandlerDispatcher`: the constructor creates a handler for every location of the config, and
`dispatch` finds the one for a request, under the longest key that is a prefix of the URI.
-/

namespace WebServer

/-- The request handlers, with the fields that `Init` gives them. -/
inductive Handler
  | badRequest
  | echo
  | health
  | markdown
  | notFound
  | redirect (h : RedirectHandler)
  | reverseProxy (h : ReverseProxyHandler)
  | static (h : StaticRequestHandler)
  | status
  deriving DecidableEq

/-- The second argument of `createHandler`. -/
inductive HandlerType
  | bad | echo | health | markdown | missing | redirect | reverse | static | status
  deriving DecidableEq, Repr

namespace HandlerType

/-- The names of the handlers in a config. -/
def ofToken (token : Bytes) : Option HandlerType :=
  if token = bytes "BadRequestHandler" then some .bad
  else if token = bytes "EchoHandler" then some .echo
  else if token = bytes "HealthHandler" then some .health
  else if token = bytes "MarkdownHandler" then some .markdown
  else if token = bytes "NotFoundHandler" then some .missing
  else if token = bytes "RedirectHandler" then some .redirect
  else if token = bytes "ReverseProxyHandler" then some .reverse
  else if token = bytes "StaticHandler" then some .static
  else if token = bytes "StatusHandler" then some .status
  else none

/-- The `Init` of the handler; `none` is the null pointer. -/
def init (type : HandlerType) (config : NginxConfig) (path : Bytes) : Except Fault (Option Handler) :=
  match type with
  | .bad => .ok (some .badRequest)
  | .echo => .ok (some .echo)
  | .health => .ok (some .health)
  | .markdown => .ok (some .markdown)
  | .missing => .ok (some .notFound)
  | .redirect => .ok (some (.redirect (RedirectHandler.init config)))
  | .reverse => .ok ((ReverseProxyHandler.init config path).map .reverseProxy)
  | .static => (StaticRequestHandler.init config path).map fun h => some (.static h)
  | .status => .ok (some .status)

/-- The key of `handlers_` that the handler of a path goes under. -/
def key (type : HandlerType) (path : Bytes) : Bytes :=
  match type with
  | .missing => bytes "/"
  | .bad => bytes "/badrequest"
  | _ => path

/-- The key of `request_handler_uri`. -/
def uriKey (type : HandlerType) (path : Bytes) : Bytes :=
  match type with
  | .missing => bytes "/"
  | _ => path

/-- What `request_handler_uri` says of the handler. -/
def label : HandlerType → Bytes
  | .bad => bytes "bad request handler"
  | .echo => bytes "echo handler"
  | .health => bytes "health handler"
  | .markdown => bytes "markdown handler"
  | .missing => bytes "not found handler"
  | .redirect => bytes "redirect handler"
  | .reverse => bytes "reverse proxy request handler"
  | .static => bytes "static handler"
  | .status => bytes "status handler"

end HandlerType

/-- `while(path.length() > 1 && path.back() == '/') path.pop_back();`, on the reversed string. -/
def popSlashes : Bytes → Bytes
  | c :: d :: rest => if c = slash then popSlashes (d :: rest) else c :: d :: rest
  | short => short

def stripSlashes (path : Bytes) : Bytes := (popSlashes path.reverse).reverse

/-- `handlers_`; a null pointer may be stored under a key. -/
structure RequestHandlerDispatcher where
  handlers : Lib.OrdMap Bytes (Option Handler)
  deriving DecidableEq

namespace RequestHandlerDispatcher

/-- A token of a statement, by its index. -/
def tokenAt (s : NginxConfigStatement) (i : Nat) : Except Fault Bytes :=
  match s.tokens[i]? with
  | none => .error .indexOutOfBounds
  | some token => .ok token

/-- A token without the quotes around it; `none` if there are none. `front()` of an empty string and
`pop_back()` of the empty string that a single quote leaves are undefined. -/
def unquote (token : Bytes) : Except Fault (Option Bytes) :=
  match token with
  | [] => .error .indexOutOfBounds
  | [c] => if c = NginxConfigParser.doubleQuote then .error .indexOutOfBounds else .ok none
  | c :: d :: rest =>
    if c = NginxConfigParser.doubleQuote ∧ (d :: rest).getLast? = some NginxConfigParser.doubleQuote then
      .ok (some (d :: rest).dropLast)
    else .ok none

/-- A handler goes into `handlers_`, and its label into the statics. -/
def add (d : RequestHandlerDispatcher) (st : Statics) (type : HandlerType) (path : Bytes)
    (handler : Option Handler) : RequestHandlerDispatcher × Statics :=
  (⟨d.handlers.insert (type.key path) handler⟩,
    { st with
      requestHandlerUri := st.requestHandlerUri.insert (type.uriKey path) type.label
      numHandlers := st.numHandlers + 1 })

/-- `createHandler`. -/
def createHandler (d : RequestHandlerDispatcher) (st : Statics) (s : NginxConfigStatement)
    (type : HandlerType) : Except Fault (RequestHandlerDispatcher × Statics) := do
  if (← tokenAt s 0) ≠ bytes "location" then
    return (d, st)
  match ← unquote (← tokenAt s 1) with
  | none => return (d, st)
  | some quoted =>
    let path := stripSlashes quoted
    if d.handlers.find? path ≠ none then
      return (d, st)
    match s.childBlock with
    | none => throw .nullPointer
    | some child => return d.add st type path (← type.init child path)

/-- The body of the constructor's inner loop. -/
def createLocation (ds : RequestHandlerDispatcher × Statics) (s : NginxConfigStatement) :
    Except Fault (RequestHandlerDispatcher × Statics) :=
  match s.tokens[2]?.bind HandlerType.ofToken with
  | none => .ok ds
  | some type => createHandler ds.1 ds.2 s type

/-- The body of the constructor's outer loop. -/
def createServer (ds : RequestHandlerDispatcher × Statics) (s : NginxConfigStatement) :
    Except Fault (RequestHandlerDispatcher × Statics) := do
  if (← tokenAt s 0) = bytes "server" ∧ s.tokens.length = 1 then
    match s.childBlock with
    | none => throw .nullPointer
    | some child => child.foldlM createLocation ds
  else return ds

/-- The constructor, with the statics before and after it. -/
def create (config : NginxConfig) (st : Statics) : Except Fault (RequestHandlerDispatcher × Statics) :=
  config.foldlM createServer (⟨Lib.OrdMap.empty⟩, st)

/-- The loop of `dispatch` over the entries, with `req_handler` and `longest_match`: an `int`, which is
compared as a `size_t`. -/
def dispatchLoop {H : Type} (path : Bytes) : List (Bytes × Option H) → Option H → Int32 → Option H
  | [], reqHandler, _ => reqHandler
  | (key, handler) :: rest, reqHandler, longestMatch =>
    if key = path.take key.length ∧ longestMatch.toInt64.toUInt64.toNat < key.length then
      dispatchLoop path rest handler (Int32.ofNat key.length)
    else dispatchLoop path rest reqHandler longestMatch

/-- `dispatch`; `none` is the null pointer. -/
def dispatch (d : RequestHandlerDispatcher) (req : Request) : Option Handler :=
  dispatchLoop (stripSlashes req.uri) d.handlers.entries none 0

end RequestHandlerDispatcher

end WebServer
