import WebServer.Dispatcher.Dispatch
import WebServer.Server.Environment
import WebServer.Session.Passes

/-!
# A session and its dispatcher

The session asks the dispatcher for a handler twice: for an accepted request under its URI, and for a rejected one
under `/badrequest`. If there is none, the stock reply is chosen but never written, since the name of the handler
is logged first (`handleRead_missing`). A rejected request is answered by whatever handler is found, so it gets a
400 only from the handler that is meant for it (`answersBadRequest_iff`).
-/

namespace WebServer

open Lib Session

namespace RequestHandlerDispatcher

variable {d : RequestHandlerDispatcher} {env : Environment} {s s' : Session} {n k : Nat} {result : ResultType}

/-- A request is answered by the handler that it goes to. -/
theorem handleRead_dispatched {h : Handler} {rep : Reply} {st st' : Statics} (hpasses : Passes s n k result s')
    (hdispatch : d.dispatch (answered result s'.request) = some h)
    (hreply : h.handleRequest env (answered result s'.request) { st with numRequests := st.numRequests + k } =
      .ok (rep, st')) (depth : Nat) :
    handleRead (d.toDispatch env) (depth + k) s false n st =
      .ok (Handled.behind k result ⟨if result = .good then 0 else 1, [.asyncWrite rep],
        { s' with request := answered result s'.request },
        if result = .good then st'.recordCode s'.request.uri rep.code else st'⟩) := by
  have hhandler : d.toDispatch env (answered result s'.request) = some (h.toRequestHandler env) := by
    rw [toDispatch, hdispatch]
    rfl
  have hanswer := answer_eq_ok.mpr ⟨h.toRequestHandler env, rep, st', hhandler, hreply, rfl⟩
  rw [handleRead_of_passes hpasses, hanswer]
  rfl

/-! ### No handler -/

/-- The call returns, and has started to write the stock reply: 404 for a good request, 400 for a bad one. -/
def WritesStock (dispatch : Dispatch) (depth : Nat) (s : Session) (n : Nat) (st : Statics) (result : ResultType) :
    Prop :=
  ∃ handled, handleRead dispatch depth s false n st = .ok handled ∧
    .asyncWrite (Reply.stockReply (if result = .good then StatusCode.notFound else StatusCode.badRequest)) ∈
      handled.events

theorem toDispatch_eq_none {req : Request} (hnull : d.dispatch req = none) : d.toDispatch env req = none := by
  rw [toDispatch, hnull]
  rfl

theorem not_writesStock (hpasses : Passes s n k result s') (hnull : d.dispatch (answered result s'.request) = none)
    (depth : Nat) (st : Statics) : ¬ WritesStock (d.toDispatch env) depth s n st result := by
  rintro ⟨handled, hhandled, -⟩
  exact handleRead_null hpasses (toDispatch_eq_none hnull) depth st handled hhandled

/-- **A missing handler is used**: for every dispatcher and every read whose passes end in a request that goes
nowhere, the stock reply is not written, and the null pointer is dereferenced. -/
theorem handleRead_missing (d : RequestHandlerDispatcher) (env : Environment) {s s' : Session} {n k : Nat}
    {result : ResultType} (hpasses : Passes s n k result s')
    (hnull : d.dispatch (answered result s'.request) = none) (depth : Nat) (st : Statics) :
    ¬ WritesStock (d.toDispatch env) depth s n st result ∧
      handleRead (d.toDispatch env) (depth + k) s false n st = .error .nullPointer := by
  refine ⟨not_writesStock hpasses hnull depth st, ?_⟩
  rw [handleRead_of_passes hpasses, answer_null (toDispatch_eq_none hnull)]
  rfl

/-- What `create` makes of a config with one location. -/
def echoOnly : RequestHandlerDispatcher := ⟨OrdMap.empty.insert (bytes "/echo") (some .echo)⟩

/-- A new session that has read a request for `/`. -/
def rootRead : Session := (filled 0).overwrite (bytes "GET / HTTP/1.1\r\n\r\n")

theorem rootRead_passes : Passes rootRead 18 1 .good (rootRead.parse 18).2 :=
  passes_formatted (filled 0) (by decide) (by decide) (by decide) (by decide +kernel) (by decide)

theorem dispatch_rootRead : echoOnly.dispatch (answered .good (rootRead.parse 18).2.request) = none := by
  decide +kernel

theorem handleRead_missing_root :
    ¬ WritesStock (echoOnly.toDispatch .isolated) 1 rootRead 18 .initial .good ∧
      handleRead (echoOnly.toDispatch .isolated) (1 + 1) rootRead false 18 .initial = .error .nullPointer :=
  handleRead_missing echoOnly .isolated rootRead_passes dispatch_rootRead 1 .initial

/-- With one location, a request for another path. -/
theorem rootRead_not_writesStock :
    (∃ st, create [⟨[bytes "server"], some [⟨[bytes "location", quoted (bytes "/echo"), bytes "EchoHandler"],
        some []⟩]⟩] .initial = .ok (echoOnly, st)) ∧
      rootRead.Fresh ∧ Passes rootRead 18 1 .good (rootRead.parse 18).2 ∧
      echoOnly.dispatch (answered .good (rootRead.parse 18).2.request) = none ∧
      ¬ WritesStock (echoOnly.toDispatch .isolated) 2 rootRead 18 .initial .good :=
  ⟨⟨_, rfl⟩, (filled_fresh 0).overwrite _, rootRead_passes, dispatch_rootRead,
    not_writesStock rootRead_passes dispatch_rootRead 2 .initial⟩

/-! ### Rejected requests -/

/-- The request that a rejected one is dispatched as. -/
theorem uri_answered_bad (req : Request) : (answered .bad req).uri = bytes "/badrequest" := rfl

/-- The bad-request handler goes under `/badrequest` only. -/
theorem key_of_badRequest {config : NginxConfig} {st st' : Statics} (hcreate : create config st = .ok (d, st'))
    {key : Bytes} (hmem : (key, some .badRequest) ∈ d.handlers.entries) : key = bytes "/badrequest" := by
  obtain ⟨_, type, child, path, -, -, hinit, hkey⟩ := create_registered hcreate _ hmem
  have htype : type = .bad := by
    cases type with
    | bad => rfl
    | reverse =>
        rw [HandlerType.init, Except.ok.injEq, Option.map_eq_some_iff] at hinit
        obtain ⟨_, -, hsame⟩ := hinit
        cases hsame
    | static =>
        rw [HandlerType.init, map_eq_ok] at hinit
        obtain ⟨_, -, hsame⟩ := hinit
        cases hsame
    | echo => cases hinit
    | health => cases hinit
    | markdown => cases hinit
    | missing => cases hinit
    | redirect => cases hinit
    | status => cases hinit
  rw [htype] at hkey
  exact hkey

theorem dispatch_badRequest {req : Request} (huri : req.uri = bytes "/badrequest")
    (hfind : d.handlers.find? (bytes "/badrequest") = some (some .badRequest)) :
    d.dispatch req = some .badRequest := by
  have hlongest : IsLongestPrefix d.paths (stripSlashes req.uri) (bytes "/badrequest") := by
    rw [huri]
    have hmem : bytes "/badrequest" ∈ d.paths := List.mem_map_of_mem (f := Prod.fst) (OrdMap.mem_of_find? hfind)
    exact ⟨⟨hmem, by decide, by decide⟩, fun key hkey _ => hkey.2.2.length_le⟩
  have hsame := find?_of_isLongestPrefix (by rw [huri]; decide) hlongest
  rw [hfind] at hsame
  exact (Option.some.inj hsame).symm

/-- Every rejected request is answered with the code 400: in any environment, whatever the read, its session and the
statics. -/
def AnswersBadRequest (d : RequestHandlerDispatcher) : Prop :=
  ∀ (env : Environment) (s s' : Session) (n k depth : Nat) (st : Statics), s.Fresh → n ≤ maxLength →
    Passes s n k .bad s' → ∃ handled rep, handleRead (d.toDispatch env) (depth + k) s false n st = .ok handled ∧
      handled.events = passEvents k .bad ++ [.asyncWrite rep] ∧ rep.code = StatusCode.badRequest

/-- A new session that has read a blank line. -/
def blankRead : Session := (filled 0).overwrite crlf

theorem blankRead_passes : Passes blankRead 2 1 .bad (blankRead.parse 2).2 :=
  passes_formatted (filled 0) (by decide) (by decide) List.suffix_rfl (by decide +kernel) (by decide)

/-- Without files and without a network, no other handler answers with a 400. -/
theorem eq_badRequest_of_code {h : Handler} {req : Request} {rep : Reply} {st st' : Statics}
    (huri : req.uri = bytes "/badrequest") (hreply : h.handleRequest .isolated req st = .ok (rep, st'))
    (hcode : rep.code = StatusCode.badRequest) : h = .badRequest := by
  have hsame : ∀ {rep' : Reply} {st'' : Statics},
      (.ok (rep', st'') : Except Fault (Reply × Statics)) = .ok (rep, st') → rep'.code = StatusCode.badRequest := by
    intro rep' st'' hrep
    obtain rfl := (Prod.mk.inj (Except.ok.inj hrep)).1
    exact hcode
  have hok : StatusCode.ok ≠ StatusCode.badRequest := by decide
  have hserver : StatusCode.internalServerError ≠ StatusCode.badRequest := by decide
  have hmissing : StatusCode.notFound ≠ StatusCode.badRequest := by decide
  have hmoved : StatusCode.movedTemporarily ≠ StatusCode.badRequest := by decide
  cases h with
  | badRequest => rfl
  | echo => exact absurd (hsame hreply) hok
  | health => exact absurd (hsame hreply) hok
  | markdown =>
      have hform : MarkdownHandler.handleRequest Environment.isolated.files Environment.isolated.db
          Environment.isolated.parseMarkdown req = .ok (Reply.stockReply StatusCode.internalServerError) := by
        rw [MarkdownHandler.handleRequest, huri]
        rfl
      rw [Handler.handleRequest, hform] at hreply
      exact absurd (hsame hreply) hserver
  | notFound => exact absurd (hsame hreply) hmissing
  | redirect h => exact absurd (hsame hreply) hmoved
  | reverseProxy h => exact absurd (hsame hreply) hserver
  | static h => exact absurd (hsame hreply) hmissing
  | status => exact absurd (hsame hreply) hok

theorem find?_of_answersBadRequest {config : NginxConfig} {st st' : Statics}
    (hcreate : create config st = .ok (d, st')) (hanswers : AnswersBadRequest d) :
    d.handlers.find? (bytes "/badrequest") = some (some .badRequest) := by
  obtain ⟨handled, rep, hhandled, hevents, hcode⟩ := hanswers .isolated blankRead _ 2 1 0 .initial
    ((filled_fresh 0).overwrite _) (by decide) blankRead_passes
  obtain ⟨k, result, s', answer, hpasses, hanswer, rfl⟩ := handleRead_eq_ok hhandled
  obtain ⟨rfl, rfl, rfl⟩ := blankRead_passes.unique hpasses
  obtain ⟨handler, rep', st₁, hdispatch, hreply, rfl⟩ := answer_eq_ok.mp hanswer
  obtain ⟨h, hh, rfl⟩ := Option.map_eq_some_iff.mp hdispatch
  have hsame : rep' = rep := by simpa [Handled.behind, passEvents] using hevents
  have hbad : h = .badRequest := eq_badRequest_of_code rfl hreply (hsame ▸ hcode)
  rw [hbad] at hh
  obtain ⟨key, hkey, -⟩ := dispatch_mem hh
  rw [key_of_badRequest hcreate hkey] at hkey
  exact OrdMap.find?_iff_mem.mpr hkey

/-- **When malformed requests always get a 400**: when the handler for bad requests is registered under
`/badrequest`. -/
theorem answersBadRequest_iff (config : NginxConfig) (st st' : Statics) (d : RequestHandlerDispatcher)
    (hcreate : create config st = .ok (d, st')) :
    AnswersBadRequest d ↔ d.handlers.find? (bytes "/badrequest") = some (some .badRequest) := by
  constructor
  · exact find?_of_answersBadRequest hcreate
  · intro hfind env s s' n k depth st _ _ hpasses
    have hdispatch := dispatch_badRequest (uri_answered_bad s'.request) hfind
    exact ⟨_, _, handleRead_dispatched hpasses hdispatch rfl depth, rfl, rfl⟩

/-- A config whose only location is for what is not found. -/
def notFoundText : Bytes := bytes "server \x7b location \"/\" NotFoundHandler \x7b \x7d \x7d"

/-- What `Parse` makes of it. -/
def notFoundConfig : NginxConfig :=
  [⟨[bytes "server"], some [⟨[bytes "location", quoted (bytes "/"), bytes "NotFoundHandler"], some []⟩]⟩]

/-- What `create` makes of that. -/
def notFoundOnly : RequestHandlerDispatcher := ⟨OrdMap.empty.insert (bytes "/") (some .notFound)⟩

theorem create_notFoundConfig : ∃ st, create notFoundConfig .initial = .ok (notFoundOnly, st) := ⟨_, rfl⟩

theorem answersBadRequest_notFound :
    AnswersBadRequest notFoundOnly ↔
      notFoundOnly.handlers.find? (bytes "/badrequest") = some (some .badRequest) :=
  answersBadRequest_iff notFoundConfig .initial _ notFoundOnly rfl

/-- Without a location for bad requests, a malformed one gets a 404. -/
theorem notFoundOnly_not_answersBadRequest :
    NginxConfigParser.parse notFoundText = (true, notFoundConfig) ∧
      (∃ st, create notFoundConfig .initial = .ok (notFoundOnly, st)) ∧
      (∃ handled, handleRead (notFoundOnly.toDispatch .isolated) 1 blankRead false 2 .initial = .ok handled ∧
        handled.events = [.parsed .bad, .asyncWrite NotFoundRequestHandler.handleRequest]) ∧
      ¬ AnswersBadRequest notFoundOnly := by
  refine ⟨rfl, create_notFoundConfig, ?_, ?_⟩
  · exact ⟨_, handleRead_dispatched blankRead_passes (h := .notFound) (by decide +kernel) rfl 0, rfl⟩
  · intro hanswers
    obtain ⟨st, hcreate⟩ := create_notFoundConfig
    have hfind := find?_of_answersBadRequest hcreate hanswers
    revert hfind
    decide

end RequestHandlerDispatcher

end WebServer
