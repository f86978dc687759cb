import WebServer.Dispatcher.RequestHandlerDispatcher
import WebServer.Handler.LocalHandlers
import WebServer.Handler.MarkdownHandler

/-!
# The handlers of a dispatcher

`HandleRequest` of each handler, with what the handlers ask outside of the program (`Environment`), and a
dispatcher as the session sees it (`RequestHandlerDispatcher.toDispatch`). Only the status handler touches the
statics, and it leaves the records and the number of requests as they were (`handleRequest_statics`).
-/

namespace WebServer

open Lib

/-- The files, the markdown converter, the database, the libraries of the proxy, the server behind a name and a
port, and how many nested calls of `HandleRequest` the stack has room for. -/
structure Environment where
  files : FileSystem
  parseMarkdown : Bytes → Bytes
  db : Database
  libraries : ReverseProxyHandler.Libraries
  exchange : Bytes → Int → Bytes → ReverseProxyHandler.Exchange
  depth : Nat

namespace Environment

/-- No files, an empty database and no network. -/
def isolated : Environment where
  files := ⟨fun _ => false, fun _ => none⟩
  parseMarkdown := id
  db := ⟨some [], fun _ => some 0⟩
  libraries := ⟨fun text _ _ => some text, .ok, id, .ok, fun data => (data, .streamEnd)⟩
  exchange _ _ _ := .resolverError
  depth := 1

end Environment

namespace Handler

/-- `name`. -/
def name : Handler → Bytes
  | .badRequest => bytes "BadReqHandler"
  | .echo => bytes "EchoHandler"
  | .health => bytes "HealthHandler"
  | .markdown => bytes "MarkdownHandler"
  | .notFound => bytes "NotFoundHandler"
  | .redirect _ => bytes "RedirectHandler"
  | .reverseProxy _ => bytes "ReverseProxyHandler"
  | .static _ => bytes "StaticHandler"
  | .status => bytes "StatusHandler"

/-- `HandleRequest`. -/
def handleRequest (env : Environment) (h : Handler) (req : Request) (st : Statics) :
    Except Fault (Reply × Statics) :=
  match h with
  | .badRequest => .ok (BadRequestHandler.handleRequest, st)
  | .echo => .ok (EchoRequestHandler.handleRequest req, st)
  | .health => .ok (HealthHandler.handleRequest, st)
  | .markdown => (MarkdownHandler.handleRequest env.files env.db env.parseMarkdown req).map (·, st)
  | .notFound => .ok (NotFoundRequestHandler.handleRequest, st)
  | .redirect h => .ok (h.handleRequest, st)
  | .reverseProxy h =>
    (h.handleRequest env.libraries (env.exchange h.proxyDest h.proxyPort) env.depth req).map (·, st)
  | .static h => .ok (h.handleRequest env.files env.parseMarkdown req, st)
  | .status => .ok (StatusRequestHandler.handleRequest req st)

/-- A handler as the session sees it. -/
def toRequestHandler (env : Environment) (h : Handler) : RequestHandler := ⟨h.name, h.handleRequest env⟩

end Handler

/-- A dispatcher as the session sees it. -/
def RequestHandlerDispatcher.toDispatch (d : RequestHandlerDispatcher) (env : Environment) : Dispatch :=
  fun req => (d.dispatch req).map (Handler.toRequestHandler env)

/-! ### The statics -/

/-- The codes that have been recorded for a URI. -/
def Statics.codes (st : Statics) (uri : Bytes) : List StatusCode := (st.requestCodeReceived.find? uri).getD []

namespace Statics

variable (st : Statics) (uri uri' : Bytes) (code : StatusCode)

@[simp] theorem codes_recordCode :
    (st.recordCode uri code).codes uri' = if uri = uri' then st.codes uri' ++ [code] else st.codes uri' := by
  unfold codes recordCode
  rw [OrdMap.find?_insert]
  split_ifs with huri
  · rw [huri]
    rfl
  · rfl

@[simp] theorem codes_popCode :
    (st.popCode uri).codes uri' = if uri = uri' then (st.codes uri').dropLast else st.codes uri' := by
  unfold codes popCode
  rw [OrdMap.find?_insert]
  split_ifs with huri
  · rw [huri]
    rfl
  · rfl

/-- A record that is taken back leaves the codes as they were. -/
theorem codes_record_pop : ((st.recordCode uri code).popCode uri).codes = st.codes := by
  funext uri'
  rw [codes_popCode, codes_recordCode]
  split_ifs
  · exact List.dropLast_concat
  · rfl

end Statics

namespace Handler

variable {env : Environment} {h : Handler} {req : Request} {st st' : Statics} {rep : Reply}

/-- **Handlers keep the records**: what `HandleRequest` leaves has the same codes and the same number of
requests. -/
theorem handleRequest_statics (hreply : h.handleRequest env req st = .ok (rep, st')) :
    st'.codes = st.codes ∧ st'.numRequests = st.numRequests := by
  have hpure : ∀ x : Except Fault Reply, x.map (·, st) = .ok (rep, st') → st' = st := by
    intro x hx
    obtain ⟨_, -, hpair⟩ := map_eq_ok.mp hx
    exact (congrArg Prod.snd hpair).symm
  cases h with
  | status =>
      obtain rfl : _ = st' := congrArg Prod.snd (Except.ok.inj hreply)
      exact ⟨st.codes_record_pop _ _, rfl⟩
  | markdown => exact hpure _ hreply ▸ ⟨rfl, rfl⟩
  | reverseProxy h => exact hpure _ hreply ▸ ⟨rfl, rfl⟩
  | badRequest => exact hpure (.ok _) hreply ▸ ⟨rfl, rfl⟩
  | echo => exact hpure (.ok _) hreply ▸ ⟨rfl, rfl⟩
  | health => exact hpure (.ok _) hreply ▸ ⟨rfl, rfl⟩
  | notFound => exact hpure (.ok _) hreply ▸ ⟨rfl, rfl⟩
  | redirect h => exact hpure (.ok _) hreply ▸ ⟨rfl, rfl⟩
  | static h => exact hpure (.ok _) hreply ▸ ⟨rfl, rfl⟩

end Handler

end WebServer
