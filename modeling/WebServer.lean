import WebServer.Lib.OrdMap
import WebServer.Lib.Recognizer
import WebServer.Bytes
import WebServer.Http.RequestParser
import WebServer.Http.Grammar
import WebServer.Http.Accept
import WebServer.Http.Decode
import WebServer.Http.Resume
import WebServer.Http.Reply
import WebServer.Handler.RequestHandler
import WebServer.Handler.ProxyResponse
import WebServer.Handler.ProxyRedirects
import WebServer.Handler.ProxyRequest
import WebServer.Session.Session
import WebServer.Http.Stop
import WebServer.Handler.LocalHandlers
import WebServer.Session.Memory
import WebServer.Session.Body
import WebServer.Session.LineFeeds
import WebServer.Session.Connection
import WebServer.Config.Coverage
import WebServer.Config.Print
import WebServer.Dispatcher.Create
import WebServer.Dispatcher.Dispatch
import WebServer.Dispatcher.StaticFiles
import WebServer.Server.Records
import WebServer.Http.Method
import WebServer.Http.Folding
import WebServer.Http.Version
import WebServer.Session.Buffer
import WebServer.Handler.ProxyContent
import WebServer.Server.Port
import WebServer.Dispatcher.ProxyTargets
import WebServer.Dispatcher.HandlerTable
import WebServer.Handler.ProxyReply
import WebServer.Handler.ProxyFraming
import WebServer.Handler.ProxyLocation
import WebServer.Handler.LocalLinks
import WebServer.Handler.MarkdownInput
import WebServer.Handler.StaticContent
import WebServer.Server.Framing
import WebServer.Server.StatusPage
import WebServer.Http.Reset
import WebServer.Server.GetConfig
import WebServer.Server.Listening
import WebServer.Lib.Markup
import WebServer.Maddy.AddLine
import WebServer.Maddy.Blocks
import WebServer.Maddy.CarriageReturns
import WebServer.Maddy.CodeSpans
import WebServer.Maddy.Documents
import WebServer.Maddy.Nesting
import WebServer.Maddy.Submissions
