import WebServer.Config.NginxConfig
import WebServer.Handler.Gzip
import WebServer.Handler.RequestHandler
import WebServer.Lib.FindWord

/-!
# The proxy

What `ReverseProxyHandler::Init` reads from the block of a location, and `HandleRequest`: the text it sends to the
proxied server, the parser for what comes back, and what it does with the reply. A redirect to the proxied server
is followed by a recursive call.
-/

namespace WebServer

structure ReverseProxyHandler where
  locationPath : Bytes
  proxyDest : Bytes
  proxyPort : Int
  deriving DecidableEq

namespace ReverseProxyHandler

/-- The loop of `Init`, with `proxy_port` and `proxy_dest`; `none` for its `return nullptr`. -/
def initLoop : NginxConfig → Int → Bytes → Option (Int × Bytes)
  | [], port, dest => some (port, dest)
  | s :: rest, port, dest =>
    match s.tokens with
    | [name, value] =>
      if name = bytes "proxy_port" then
        match stoi value with
        | none => none
        | some port => initLoop rest port dest
      else if name = bytes "proxy_dest" then initLoop rest port value
      else initLoop rest port dest
    | _ => initLoop rest port dest

/-- `Init`; `none` is the null pointer. -/
def init (config : NginxConfig) (locationPath : Bytes) : Option ReverseProxyHandler :=
  (initLoop config 0 []).map fun (port, dest) => ⟨locationPath, dest, port⟩

/-- **When `Init` fails**: when a `proxy_port` is no number. -/
theorem init_eq_none_iff (config : NginxConfig) (locationPath : Bytes) :
    init config locationPath = none ↔
      ∃ s ∈ config, ∃ value, s.tokens = [bytes "proxy_port", value] ∧ stoi value = none := by
  rw [init, Option.map_eq_none_iff]
  generalize (0 : Int) = port
  generalize ([] : Bytes) = dest
  induction config generalizing port dest with
  | nil => simp [initLoop]
  | cons s rest ih =>
      simp only [List.exists_mem_cons_iff]
      rw [initLoop]
      split
      · rename_i name value htokens
        by_cases hport : name = bytes "proxy_port"
        · subst hport
          rw [if_pos rfl]
          cases hstoi : stoi value with
          | none => simp [htokens, hstoi]
          | some port' => simp [htokens, hstoi, ih]
        · have hother : ¬ ∃ v, s.tokens = [bytes "proxy_port", v] ∧ stoi v = none := by
            rintro ⟨v, hv, -⟩
            rw [htokens] at hv
            exact hport (List.cons.inj hv).1
          rw [if_neg hport]
          split_ifs <;> simp [ih, hother]
      · rename_i htokens
        have hother : ¬ ∃ v, s.tokens = [bytes "proxy_port", v] ∧ stoi v = none := by
          rintro ⟨v, hv, -⟩
          exact htokens _ _ hv
        simp [ih, hother]

/-! ### The request -/

/-- `boost::erase_first_copy`. An empty word is found nowhere. -/
def eraseFirst (text word : Bytes) : Bytes :=
  match Lib.Word.find? word text with
  | none => text
  | some i => text.take i ++ text.drop (i + word.length)

/-- `uri`, the target of the request line. -/
def target (h : ReverseProxyHandler) (uri : Bytes) : Bytes :=
  if eraseFirst uri h.locationPath = [] then bytes "/" else eraseFirst uri h.locationPath

/-- `request_type`. -/
def requestType : MethodType → Bytes
  | .getReq => bytes "GET"
  | .headReq => bytes "HEAD"
  | .postReq => bytes "POST"
  | .putReq => bytes "PUT"
  | .deleteReq => bytes "DELETE"
  | .connectReq => bytes "CONNECT"
  | .optionsReq => bytes "OPTIONS"
  | .traceReq => bytes "TRACE"
  | .patchReq => bytes "PATCH"

/-- What the loop over the headers adds for one of them. -/
def headerText (header : Bytes × Bytes) : Bytes :=
  if header.1 ≠ bytes "Host" ∧ header.1 ≠ bytes "Connection" then
    header.1 ++ bytes ": " ++ replaceAll header.2 crlf [] ++ crlf
  else []

/-- `http_request`, for `uri`. -/
def requestFor (h : ReverseProxyHandler) (req : Request) (uri : Bytes) : Bytes :=
  requestType req.method ++ bytes " " ++ uri ++ bytes " HTTP/1.1\r\n" ++
    (bytes "Host: " ++ h.proxyDest ++ bytes "\r\nConnection: close\r\n") ++
    req.headers.entries.flatMap headerText ++ crlf

/-- `http_request`. -/
def httpRequest (h : ReverseProxyHandler) (req : Request) : Bytes := h.requestFor req (h.target req.uri)

/-! ### The response -/

/-- `std::isdigit`. -/
def isDigit (c : UInt8) : Bool := decide (ch '0' ≤ c) && decide (c ≤ ch '9')

/-- The loop that looks for the reply code, with the part of `request_line` that it has read, `num_counter` and
`code_`. -/
def scanCode (read : Bytes) (numCounter : Nat) (code : StatusCode) : Bytes → StatusCode
  | [] => code
  | c :: rest =>
    let read := read ++ [c]
    let numCounter := if isDigit c then numCounter + 1 else 0
    let code := if numCounter = 3 then ((stoi (read.drop (read.length - 3))).getD 0).toNat else code
    scanCode read numCounter code rest

/-- The variables of the loop over the bytes of a header line. -/
structure HeaderScan where
  headerKey : Bytes
  tmpBuf : Bytes
  ignoreWhitespace : Bool
  isHeaderKey : Bool

namespace HeaderScan

def start : HeaderScan := ⟨[], [], true, true⟩

def step (scan : HeaderScan) (c : UInt8) : HeaderScan :=
  if scan.ignoreWhitespace then
    if c ≠ sp then { scan with ignoreWhitespace := false, tmpBuf := scan.tmpBuf ++ [c] } else scan
  else if scan.isHeaderKey ∧ c = ch ':' then ⟨scan.tmpBuf, [], true, false⟩
  else { scan with tmpBuf := scan.tmpBuf ++ [c] }

end HeaderScan

/-- `boost::trim_copy`. -/
def trim (text : Bytes) : Bytes := ((text.dropWhile isSpace).reverse.dropWhile isSpace).reverse

/-- The two loops over `headers`, from within a line on. The byte behind the carriage return is passed over with
it: without one, `substr` throws. Without a carriage return the inner loop runs past the end. -/
def headerLoop (headers : Lib.OrdMap Bytes Bytes) (scan : HeaderScan) :
    Bytes → Except Fault (Lib.OrdMap Bytes Bytes)
  | [] => .error .indexOutOfBounds
  | c :: rest =>
    if c = cr then
      let headers := headers.insert (trim scan.headerKey) (trim scan.tmpBuf)
      match rest with
      | [] => .error .outOfRange
      | _ :: rest => if rest = [] then .ok headers else headerLoop headers HeaderScan.start rest
    else headerLoop headers (scan.step c) rest

/-- The headers of the reply. -/
def parseHeaders (headers : Bytes) : Except Fault (Lib.OrdMap Bytes Bytes) :=
  if headers = [] then .ok Lib.OrdMap.empty else headerLoop Lib.OrdMap.empty HeaderScan.start headers

/-- `text.substr(pos)`. -/
def substr (text : Bytes) (pos : Nat) : Except Fault Bytes :=
  if text.length < pos then .error .outOfRange else .ok (text.drop pos)

/-- The parser for the response. Where `find` returns `npos`, the largest `size_t`, the request line is the whole
text, the headers go on to its end, and the body starts at `npos` plus four, which is three. -/
def parseResponse (response : Bytes) : Except Fault Reply := do
  let headerEndPos := Lib.Word.find? (crlf ++ crlf) response
  let requestLine := response.take ((Lib.Word.find? crlf response).getD response.length)
  let code := scanCode [] 0 0 requestLine
  let behindLine ← substr response (requestLine.length + crlf.length)
  let headers := headerEndPos.elim behindLine fun pos => behindLine.take (pos - requestLine.length)
  let body ← substr response (headerEndPos.elim 3 fun pos => pos + 2 * crlf.length)
  return ⟨code, ← parseHeaders headers, body⟩

/-! ### The reply -/

/-- What comes of a request to the proxied server: no address, no connection, a failure to write or to read, or
the bytes of the response. -/
inductive Exchange
  | resolverError
  | connectError
  | writeError
  | readError
  | response (data : Bytes)

/-- The libraries that work on the reply: `regex_replace` with a text, an expression and a format, which may throw,
`none`, and zlib. -/
structure Libraries where
  regexReplace : Bytes → Bytes → Bytes → Option Bytes
  zlib : Gzip.Zlib

/-- A call into a library; what it throws is not caught. -/
def called (result : Option Bytes) : Except Fault Bytes :=
  match result with
  | none => .error .handlerFailed
  | some text => .ok text

/-- `uri_replace`. -/
def uriReplace (lib : Libraries) (uri proxyHost localPath : Bytes) : Except Fault Bytes :=
  called (lib.regexReplace uri (bytes ".*" ++ proxyHost ++ bytes "/\x7b0,1\x7d") localPath)

/-- `trimmed_append`. The last byte of an empty path is out of bounds. -/
def trimmedAppend (append : Bytes) : Except Fault Bytes :=
  match append.getLast? with
  | none => .error .indexOutOfBounds
  | some c => .ok (if c = ch '/' then append.dropLast else append)

/-- `append_relative_URI`. -/
def appendRelativeURI (lib : Libraries) (body append : Bytes) : Except Fault Bytes := do
  let trimmed ← trimmedAppend append
  let body ← called (lib.regexReplace body (bytes "href=\"/") (bytes "href=\"" ++ trimmed ++ bytes "/"))
  called (lib.regexReplace body (bytes "src=\"/") (bytes "src=\"" ++ trimmed ++ bytes "/"))

/-- The test for a redirect: the reply, in which looking up `Location` may have left an empty one, and the URI to
go on with, if the redirect is followed. -/
def redirect (h : ReverseProxyHandler) (lib : Libraries) (rep : Reply) (uri : Bytes) :
    Except Fault (Reply × Option Bytes) := do
  if rep.code = StatusCode.movedTemporarily ∨ rep.code = StatusCode.movedPermanently then
    let redirectUri := (rep.headers.find? (bytes "Location")).getD []
    let rep := { rep with headers := rep.headers.insert (bytes "Location") redirectUri }
    let modifiedRedirectUri ← uriReplace lib redirectUri h.proxyDest (h.locationPath ++ bytes "/")
    if modifiedRedirectUri = redirectUri then .ok (rep, none)
    else if modifiedRedirectUri ≠ uri then .ok (rep, some modifiedRedirectUri)
    else .ok (rep, none)
  else .ok (rep, none)

/-- The body, sent through a function if the reply is compressed. -/
def ifGzip (rep : Reply) (f : Bytes → Option Bytes) (body : Bytes) : Except Fault Bytes :=
  if rep.headers.find? (bytes "Content-Encoding") = some (bytes "gzip") then called (f body) else .ok body

/-- The rest of `HandleRequest`, for a reply that is passed on. -/
def rewrite (h : ReverseProxyHandler) (lib : Libraries) (rep : Reply) : Except Fault Reply := do
  let modifiedBody ← ifGzip rep (Gzip.decompress lib.zlib) rep.body
  let modifiedBody ← appendRelativeURI lib modifiedBody h.locationPath
  let body ← ifGzip rep (Gzip.compress lib.zlib) modifiedBody
  return ⟨rep.code, rep.headers.insert (bytes "Content-Length") (decimal body.length), body⟩

/-- `HandleRequest`. The first argument is how many nested calls the stack has room for. -/
def handleRequest (h : ReverseProxyHandler) (lib : Libraries) (exchange : Bytes → Exchange) :
    Nat → Request → Except Fault Reply
  | 0, _ => .error .stackOverflow
  | depth + 1, req =>
    match exchange (h.httpRequest req) with
    | .resolverError => .ok (Reply.stockReply StatusCode.internalServerError)
    | .connectError => .error .handlerFailed
    | .writeError => .ok (Reply.stockReply StatusCode.internalServerError)
    | .readError => .ok (Reply.stockReply StatusCode.internalServerError)
    | .response data => do
      match ← h.redirect lib (← parseResponse data) req.uri with
      | (_, some uri) => handleRequest h lib exchange depth { req with uri := uri }
      | (rep, none) => h.rewrite lib rep

end ReverseProxyHandler

end WebServer
