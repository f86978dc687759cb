import WebServer.Config.NginxConfig
import WebServer.Handler.RequestHandler

/-!
# Handlers that need nothing from outside

`EchoRequestHandler` and `StatusRequestHandler` answer from the request and the statics. The replies of `HealthHandler`,
`BadRequestHandler`, `NotFoundRequestHandler` and `RedirectHandler` do not depend on either.
-/

namespace WebServer

/-! ### The echo handler -/

namespace EchoRequestHandler

/-- `HandleRequest`. `content_size` is a `size_t`: the subtraction wraps for a body of less than two bytes. -/
def handleRequest (req : Request) : Reply :=
  let contentSize := (req.body.length + (2 ^ 64 - 2)) % 2 ^ 64
  Reply.withBody StatusCode.ok (bytes "text/plain") (req.body.take contentSize) contentSize

/-- What `Init` builds, whatever the config and the location. -/
def handler : RequestHandler where
  name := bytes "EchoHandler"
  handleRequest req st := .ok (handleRequest req, st)

end EchoRequestHandler

/-! ### The status handler -/

/-- `request_code_received_[uri].pop_back()`. -/
def Statics.popCode (st : Statics) (uri : Bytes) : Statics :=
  let codes := (st.requestCodeReceived.find? uri).getD []
  { st with requestCodeReceived := st.requestCodeReceived.insert uri codes.dropLast }

/-! A page with the number of requests, the codes that have been recorded for each URI, and the handlers. The code of the
page itself is recorded while the page is made. -/

namespace StatusRequestHandler

/-- A row of one of the tables. -/
def row (left right : Bytes) : Bytes := bytes "<tr><td>" ++ left ++ bytes "</td><td>" ++ right ++ bytes "</td></tr>"

/-- `request_info`. -/
def requestInfo (st : Statics) : Bytes :=
  st.requestCodeReceived.entries.flatMap fun received => received.2.flatMap fun code => row received.1 (decimal code)

/-- `request_handler_info`. -/
def requestHandlerInfo (st : Statics) : Bytes := st.requestHandlerUri.entries.flatMap fun uri => row uri.1 uri.2

/-- `display_content`, around the number of requests and the rows. -/
def displayContent (numRequests : Nat) (requestInfo requestHandlerInfo : Bytes) : Bytes :=
  bytes "<html><body><h2>Status Handler</h1><div></div><table><tr><th>Total Number of Requests</th></tr><tr><td>" ++
    decimal numRequests ++ bytes "</td></tr></table>" ++
    bytes "<table><tr><th>Requests Server Received : </th><th>Response Code</th></tr>" ++ requestInfo ++
    bytes "</table>" ++ bytes "<table><tr><th>URL Prefixes : </th><th>Request Handlers Received</th></tr>" ++
    requestHandlerInfo ++ bytes "</table>" ++ bytes "</body></html>"

/-- `HandleRequest`. -/
def handleRequest (req : Request) (st : Statics) : Reply × Statics :=
  let st := st.recordCode req.uri StatusCode.ok
  let body := displayContent st.numRequests (requestInfo st) (requestHandlerInfo st)
  (Reply.withBody StatusCode.ok (bytes "text/html") body body.length, st.popCode req.uri)

end StatusRequestHandler

/-! ### Handlers with one reply -/

/-- `HealthHandler::HandleRequest`. -/
def HealthHandler.handleRequest : Reply :=
  Reply.withBody StatusCode.ok (bytes "text/plain") (bytes "OK") (bytes "OK").length

/-- `BadRequestHandler::HandleRequest`. -/
def BadRequestHandler.handleRequest : Reply :=
  let badRequest := bytes "<html><head><title>Bad Request</title></head><body><h1>400 Bad Request</h1></body></html>"
  Reply.withBody StatusCode.badRequest (bytes "text/html") badRequest badRequest.length

/-- `NotFoundRequestHandler::HandleRequest`. -/
def NotFoundRequestHandler.handleRequest : Reply :=
  let notFound := bytes "<html><head><title>Not Found</title></head><body><h1>404 Not Found</h1></body></html>"
  Reply.withBody StatusCode.notFound (bytes "text/html") notFound notFound.length

structure RedirectHandler where
  host : Bytes
  deriving DecidableEq

namespace RedirectHandler

/-- `Init`: the value of the last `host` statement, without slashes. -/
def init (config : NginxConfig) : RedirectHandler :=
  ⟨config.foldl (fun host s =>
    match s.tokens with
    | [name, value] => if name = bytes "host" then replaceAll value [ch '/'] [] else host
    | _ => host) []⟩

/-- `HandleRequest`. -/
def handleRequest (h : RedirectHandler) : Reply :=
  let location := bytes "http://" ++ h.host ++ bytes "/static/index.html"
  ⟨StatusCode.movedTemporarily, Lib.OrdMap.empty.insert (bytes "Location") location,
    bytes "HTTP/1.1 302 Found\r\nLocation: " ++ location ++ bytes "\r\n\r\n"⟩

end RedirectHandler

end WebServer
