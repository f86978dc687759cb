import WebServer.Config.NginxConfig
import WebServer.Handler.RequestHandler

/-!
# The static handler

`StaticRequestHandler`: the location path of the URI is replaced by the root that the config names, and the
file found there is the body of the reply. The file system and the markdown converter are parameters.
-/

namespace WebServer

abbrev slash : UInt8 := ch '/'
abbrev dot : UInt8 := ch '.'

structure StaticRequestHandler where
  locationPath : Bytes
  root : Bytes
  deriving DecidableEq

/-- What the handler asks the file system, for a path. -/
structure FileSystem where
  /-- `exists` and `is_regular_file`. -/
  isRegularFile : Bytes → Bool
  /-- The content, if the file can be opened. -/
  read : Bytes → Option Bytes

namespace StaticRequestHandler

/-- The root in front of `Init`'s last test: the value of the last `root` statement. -/
def configuredRoot (config : NginxConfig) : Bytes :=
  config.foldl (fun root s =>
    match s.tokens with
    | [name, value] => if name = bytes "root" then value else root
    | _ => root) [slash]

/-- `Init`. `back()` of an empty string is undefined. -/
def init (config : NginxConfig) (locationPath : Bytes) : Except Fault StaticRequestHandler :=
  let root := configuredRoot config
  match root.getLast? with
  | none => .error .indexOutOfBounds
  | some c => .ok ⟨locationPath, if c ≠ slash then root ++ [slash] else root⟩

theorem locationPath_of_init {child : NginxConfig} {path : Bytes} {h : StaticRequestHandler}
    (hinit : init child path = .ok h) : h.locationPath = path := by
  rw [init] at hinit
  split at hinit
  · cases hinit
  · exact Except.ok.inj hinit ▸ rfl

/-- `text.replace(0, n, new)`. -/
def replaceFront (text : Bytes) (n : Nat) (new : Bytes) : Bytes := new ++ text.drop n

/-- The path of the file: `new_uri` behind its two replacements. -/
def filePath (h : StaticRequestHandler) (uri : Bytes) : Bytes :=
  replaceFront (replaceFront uri h.locationPath.length h.root) 1 (bytes "../")

/-- `path.substr(path.find_last_of(".") + 1)`. -/
def extension (path : Bytes) : Bytes := (path.reverse.takeWhile (· ≠ dot)).reverse

/-- `setContentType`. -/
def setContentType (path : Bytes) : Bytes :=
  if extension path = bytes "html" then bytes "text/html"
  else if extension path = bytes "jpg" then bytes "image/jpeg"
  else if extension path = bytes "zip" then bytes "application/zip"
  else if extension path = bytes "txt" then bytes "text/plain"
  else if extension path = bytes "gif" then bytes "image/gif"
  else if extension path = bytes "png" then bytes "image/png"
  else []

/-- The reply for a file that has been read. -/
def fileReply (parseMarkdown : Bytes → Bytes) (path content : Bytes) : Reply :=
  let contentType := setContentType path
  let content :=
    if contentType = bytes "text/html" ∨ contentType = bytes "text/plain" then
      replaceAll content [lf] crlf ++ crlf
    else content
  if bytes ".md" <:+: path then
    let output := parseMarkdown content
    Reply.withBody StatusCode.ok (bytes "text/html") output output.length
  else Reply.withBody StatusCode.ok contentType content content.length

/-- `HandleRequest`. -/
def handleRequest (h : StaticRequestHandler) (files : FileSystem) (parseMarkdown : Bytes → Bytes)
    (req : Request) : Reply :=
  let newUri := h.filePath req.uri
  if files.isRegularFile newUri then
    match files.read newUri with
    | none => Reply.stockReply StatusCode.notFound
    | some content => fileReply parseMarkdown newUri content
  else Reply.stockReply StatusCode.notFound

end StaticRequestHandler

end WebServer
