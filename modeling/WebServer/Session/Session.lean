import WebServer.Handler.RequestHandler

/-!
# The session

`session`: `start` asks for one read, and `handle_read` parses what it brought, asks the dispatcher for a
handler and starts writing the reply. The bytes of a read arrive in `data_`, an array that nothing
initialises and that is followed in memory by other objects; both parts are in the state, since a C string
read from `data_` runs over them up to the first NUL.
-/

namespace WebServer

/-- `session::max_length`, the size of `data_`. -/
def maxLength : Nat := 1024

/-- `session`. `beyond` is the memory behind `data`. -/
structure Session where
  data : Bytes
  beyond : Bytes
  request : Request
  requestParser : RequestParser
  data_length : data.length = maxLength

/-- What a session does, in order: a pass of its parser and its result, or an asynchronous operation that it
starts. -/
inductive Event
  | parsed (result : ResultType)
  | asyncReadSome
  | asyncWrite (rep : Reply)
  deriving DecidableEq

/-- What a call of `handle_read` returns and leaves. -/
structure Handled where
  returned : Int
  events : List Event
  session : Session
  statics : Statics

namespace Session

/-- The memory from `data_` on. -/
def memory (s : Session) : Bytes := s.data ++ s.beyond

/-- The constructor, for any content of the memory it leaves uninitialised. -/
def fresh (data beyond : Bytes) (hdata : data.length = maxLength) (method : MethodType)
    (major minor : Int32) : Session :=
  ⟨data, beyond, Request.fresh method major minor, RequestParser.new, hdata⟩

/-- `data_` with its first bytes overwritten; what does not fit is cut off. -/
def overwrite (s : Session) (xs : Bytes) : Session :=
  { s with
    data := xs.take maxLength ++ s.data.drop (xs.take maxLength).length
    data_length := by have := s.data_length; simp; omega }

/-- `start` asks for one read of at most `max_length` bytes. -/
def start : List Event := [.asyncReadSome]

/-- `data_str.substr(data_str.size() - 2) == "\r\n"`; the subtraction wraps for a shorter string, and
`substr` throws. -/
def isFormatted (data : Bytes) : Except Fault Bool :=
  if data.length < 2 then .error .outOfRange else .ok (data.drop (data.length - 2) == crlf)

/-- `while(data.length() > 1 && data.back() != '\n') data.pop_back();`, on the reversed string. -/
def popToNewline : Bytes → Bytes
  | c :: d :: rest => if c ≠ lf then popToNewline (d :: rest) else c :: d :: rest
  | short => short

/-- The string a read that is not formatted is replaced by. -/
def formatString (data : Bytes) : Bytes :=
  replaceAll (popToNewline data.reverse).reverse [lf] crlf ++ crlf

/-- `strcpy(data_, text.c_str())`. -/
def strcpy (s : Session) (text : Bytes) : Except Fault Session :=
  if (cString text).length + 1 ≤ maxLength then .ok (s.overwrite (cString text ++ [0]))
  else .error .bufferOverflow

/-- `request_parser_.parse(request_, data_, data_ + len)`. -/
def parse (s : Session) (len : Nat) : ResultType × Session :=
  let out := s.requestParser.parse s.request s.memory len
  (out.result, { s with request := out.request, requestParser := out.parser })

/-- `handle_read` up to the result of the parser. -/
def parseRead (s : Session) (bytesTransferred : Nat) : Except Fault (ResultType × Session) := do
  let dataStr := s.data.take bytesTransferred
  if ← isFormatted dataStr then
    return s.parse bytesTransferred
  else
    let text := formatString dataStr
    return (← s.strcpy text).parse text.length

/-- The reply of a handler, or the stock reply `code` if there is none. -/
def reply (handler : Option RequestHandler) (code : StatusCode) (req : Request) (st : Statics) :
    Except Fault (Reply × Statics) :=
  match handler with
  | none => .ok (Reply.stockReply code, st)
  | some h => h.handleRequest req st

/-- `handler->name`, an argument of `logMetrics`. -/
def handlerName (handler : Option RequestHandler) : Except Fault Bytes :=
  match handler with
  | none => .error .nullPointer
  | some h => .ok h.name

/-- The branch of `handle_read` for a good request. -/
def answerGood (dispatch : Dispatch) (s : Session) (st : Statics) : Except Fault Handled := do
  let handler := dispatch s.request
  let (rep, st) ← reply handler .notFound s.request st
  let st := st.recordCode s.request.uri rep.code
  let _ ← handlerName handler
  return ⟨0, [.asyncWrite rep], s, st⟩

/-- The branch of `handle_read` for a bad request. -/
def answerBad (dispatch : Dispatch) (s : Session) (st : Statics) : Except Fault Handled := do
  let s := { s with request := { s.request with uri := bytes "/badrequest" } }
  let handler := dispatch s.request
  let (rep, st) ← reply handler .badRequest s.request st
  let _ ← handlerName handler
  return ⟨1, [.asyncWrite rep], s, st⟩

/-- `handle_read`. The first argument is how many nested calls the stack has room for; `error` says that the
read failed. -/
def handleRead (dispatch : Dispatch) : Nat → Session → Bool → Nat → Statics → Except Fault Handled
  | 0, _, _, _, _ => .error .stackOverflow
  | depth + 1, s, error, bytesTransferred, st => do
    let st := { st with numRequests := st.numRequests + 1 }
    if error then return ⟨-1, [], s, st⟩
    let (result, s) ← s.parseRead bytesTransferred
    let handled ←
      match result with
      | .good => answerGood dispatch s st
      | .bad => answerBad dispatch s st
      | .indeterminate =>
        (handleRead dispatch depth s error bytesTransferred st).map fun handled =>
          { handled with returned := -1 }
    return { handled with events := .parsed result :: handled.events }

end Session

end WebServer
