import WebServer.Session.Read

/-!
# One call of `handle_read`

What a call does after its parser has answered. A pass that is good or bad starts one write, of a reply that
depends on the request alone (`handleRead_of_stop`); a pass that wants more calls `handle_read` again on the
same buffer (`handleRead_of_more`), and there the parser rejects (`parseRead_again`).
-/

namespace WebServer

open Lib

namespace Session

variable {s : Session} {x : Bytes} {dispatch : Dispatch}

/-- A session whose constructor has run, whatever is in its memory. -/
def Fresh (s : Session) : Prop := s.requestParser = RequestParser.new ∧ ∃ method major minor,
  s.request = Request.fresh method major minor

theorem fresh_fresh (data beyond : Bytes) (hdata : data.length = maxLength) (method : MethodType)
    (major minor : Int32) : (fresh data beyond hdata method major minor).Fresh :=
  ⟨rfl, method, major, minor, rfl⟩

/-- A new session with the same byte everywhere in its memory. -/
def filled (c : UInt8) : Session :=
  fresh (List.replicate maxLength c) [c] List.length_replicate .getReq 0 0

theorem filled_fresh (c : UInt8) : (filled c).Fresh := fresh_fresh _ _ _ _ _ _

theorem Fresh.state_eq (h : s.Fresh) : s.requestParser.state = .methodStart := by rw [h.1]; rfl

theorem Fresh.headers_isEmpty (h : s.Fresh) : s.request.headers.isEmpty = true := by
  obtain ⟨-, method, major, minor, hreq⟩ := h
  rw [hreq]
  rfl

theorem Fresh.overwrite (h : s.Fresh) (xs : Bytes) : (s.overwrite xs).Fresh := h

/-! ### Answering -/

/-- The two branches that answer. -/
def answer (dispatch : Dispatch) (result : ResultType) : Session → Statics → Except Fault Handled :=
  if result = .good then answerGood dispatch else answerBad dispatch

/-- The request that an answer leaves. -/
def answered (result : ResultType) (req : Request) : Request :=
  if result = .good then req else { req with uri := bytes "/badrequest" }

theorem body_answered (result : ResultType) (req : Request) : (answered result req).body = req.body := by
  rw [answered]
  split_ifs <;> rfl

/-- The common part of the two branches: a reply, for which the handler is used twice. -/
theorem reply_eq_ok {α : Type} {handler : Option RequestHandler} {code : StatusCode} {req : Request}
    {f : Reply → Statics → α} {a : α} :
    (do let (rep, st') ← reply handler code req st
        let _ ← handlerName handler
        return f rep st') = Except.ok a ↔
      ∃ h rep st', handler = some h ∧ h.handleRequest req st = .ok (rep, st') ∧ a = f rep st' := by
  simp only [bind_eq_ok, pure_eq_ok]
  constructor
  · rintro ⟨⟨rep, st'⟩, hreply, _, hname, rfl⟩
    cases handler with
    | none => cases hname
    | some h => exact ⟨h, rep, st', rfl, hreply, rfl⟩
  · rintro ⟨h, rep, st', rfl, hreply, rfl⟩
    exact ⟨(rep, st'), hreply, h.name, rfl, rfl⟩

/-- An answer is the reply of the handler, with its code recorded if the request is good. -/
theorem answer_eq_ok {result : ResultType} {st : Statics} {handled : Handled} :
    answer dispatch result s st = .ok handled ↔
      ∃ h rep st', dispatch (answered result s.request) = some h ∧
        h.handleRequest (answered result s.request) st = .ok (rep, st') ∧
        handled = ⟨if result = .good then 0 else 1, [.asyncWrite rep],
          { s with request := answered result s.request },
          if result = .good then st'.recordCode s.request.uri rep.code else st'⟩ := by
  unfold answer answered
  split_ifs with hgood
  · exact reply_eq_ok (f := fun rep st' => (⟨0, [.asyncWrite rep], s, st'.recordCode s.request.uri rep.code⟩ : Handled))
  · exact reply_eq_ok (f := fun rep st' => (⟨1, [.asyncWrite rep],
      { s with request := { s.request with uri := bytes "/badrequest" } }, st'⟩ : Handled))

/-- What an answer shows outside the session. -/
def Handled.observe (h : Handled) : Int × List Event × Request × Statics :=
  (h.returned, h.events, h.session.request, h.statics)

/-- Of the session, an answer depends on the request alone. -/
theorem answer_congr (dispatch : Dispatch) {s₁ s₂ : Session} (h : s₁.request = s₂.request)
    (result : ResultType) (st : Statics) :
    (answer dispatch result s₁ st).map Handled.observe = (answer dispatch result s₂ st).map Handled.observe := by
  rw [answer]
  split_ifs
  · rw [answerGood, answerGood, h]
    rcases reply (dispatch s₂.request) .notFound s₂.request st with e | ⟨rep, st'⟩
    · rfl
    · cases handlerName (dispatch s₂.request) <;>
        simp [bind, Except.bind, pure, Except.pure, Except.map, Handled.observe, h]
  · rw [answerBad, answerBad, h]
    dsimp only
    rcases reply (dispatch { s₂.request with uri := bytes "/badrequest" }) .badRequest
      { s₂.request with uri := bytes "/badrequest" } st with e | ⟨rep, st'⟩
    · rfl
    · cases handlerName (dispatch { s₂.request with uri := bytes "/badrequest" }) <;>
        simp [bind, Except.bind, pure, Except.pure, Except.map, Handled.observe]

/-! ### The passes of the parser -/

theorem handleRead_of_stop (dispatch : Dispatch) {s' : Session} {n : Nat} {result : ResultType} (depth : Nat)
    (st : Statics) (hparse : s.parseRead n = .ok (result, s')) (hresult : result ≠ .indeterminate) :
    handleRead dispatch (depth + 1) s false n st =
      (answer dispatch result s' { st with numRequests := st.numRequests + 1 }).map fun handled =>
        { handled with events := .parsed result :: handled.events } := by
  rw [handleRead]
  simp only [Bool.false_eq_true, if_false, hparse, bind, Except.bind, pure, Except.pure]
  cases result with
  | good => rw [answer, if_pos rfl]; rfl
  | bad => rw [answer, if_neg (by decide)]; rfl
  | indeterminate => exact absurd rfl hresult

theorem handleRead_of_more (dispatch : Dispatch) {s' : Session} {n : Nat} (depth : Nat) (st : Statics)
    (hparse : s.parseRead n = .ok (.indeterminate, s')) :
    handleRead dispatch (depth + 1) s false n st =
      (handleRead dispatch depth s' false n { st with numRequests := st.numRequests + 1 }).map fun handled =>
        { handled with returned := -1, events := .parsed .indeterminate :: handled.events } := by
  rw [handleRead]
  simp only [Bool.false_eq_true, if_false, hparse, bind, Except.bind, pure, Except.pure]
  cases handleRead dispatch depth s' false n { st with numRequests := st.numRequests + 1 } <;>
    simp [Except.map]

theorem handleRead_of_error (dispatch : Dispatch) {n : Nat} {e : Fault} (depth : Nat) (st : Statics)
    (hparse : s.parseRead n = .error e) : handleRead dispatch (depth + 1) s false n st = .error e := by
  rw [handleRead]
  simp only [Bool.false_eq_true, if_false, hparse, bind, Except.bind]

/-! ### The second pass -/

/-- A reformatted text is never read to its end. -/
theorem parseRead_ne_more {s' : Session} {result : ResultType} (hfresh : s.Fresh) (hread : x <+: s.data)
    (h2 : 2 ≤ x.length) (hend : ¬ crlf <:+ x) (hparse : s.parseRead x.length = .ok (result, s')) :
    result ≠ .indeterminate := by
  by_cases hfits : Fits x
  · have hown : ownText x = some (cString (formatString x)) :=
      ownText_eq_some.mpr ⟨h2, Or.inr ⟨hend, hfits, rfl⟩⟩
    obtain ⟨s₁, hfirst, -⟩ := parseRead_ownText hread hfresh.state_eq hfresh.headers_isEmpty hown
    rw [hparse] at hfirst
    rw [(Prod.mk.inj (Except.ok.inj hfirst)).1]
    exact parse_nul_ne_indeterminate _ _ _
  · rw [parseRead_overflow hread h2 hfits] at hparse
    cases hparse

/-- The first pass of a new session wants more only on a read that ends in a line end, and then the second
pass rejects, with the same body. -/
theorem parseRead_again {s' : Session} (hfresh : s.Fresh) (hread : x <+: s.data) (h2 : 2 ≤ x.length)
    (hparse : s.parseRead x.length = .ok (.indeterminate, s')) :
    ∃ s'', s'.parseRead x.length = .ok (.bad, s'') ∧ s''.request.body = s'.request.body := by
  by_cases hend : crlf <:+ x
  · obtain ⟨y, rfl⟩ := hend
    rw [parseRead_formatted hread h2 (List.suffix_append _ _)] at hparse
    have hout := Except.ok.inj hparse
    have hs' : s' = (s.parse (y ++ crlf).length).2 := by rw [hout]
    have hread' : y ++ crlf <+: s'.data := by rwa [hs']
    have hbody : (s'.parse (y ++ crlf).length).2.request.body = s'.request.body := by
      rw [hs']
      exact (RequestParser.parse_body _ _ _ _).trans (RequestParser.parse_body _ _ _ _).symm
    have hmore := congrArg Prod.fst hout
    rw [parse_fst hread, RequestParser.ofVerdict_eq_indeterminate] at hmore
    refine ⟨(s'.parse (y ++ crlf).length).2, ?_, hbody⟩
    rw [parseRead_formatted hread' h2 (List.suffix_append _ _), Except.ok.injEq]
    refine Prod.ext ?_ rfl
    rw [parse_fst hread', RequestParser.ofVerdict_eq_bad, hs', parse_requestParser hread]
    have hheaders : s.bound.headers.isEmpty = true := hfresh.headers_isEmpty
    exact RequestParser.run_again hfresh.state_eq hheaders hmore _
  · exact absurd rfl (parseRead_ne_more hfresh hread h2 hend hparse)

/-! ### Whole calls -/

/-- A call on a read that fixes the text at `data_` looks at nothing else of the memory. -/
theorem handleRead_congr {s₁ s₂ : Session} {y t : Bytes} (hx : x <+: s₁.data) (hy : y <+: s₂.data)
    (hfresh : s₁.Fresh) (hrequest : s₁.request = s₂.request) (hparser : s₁.requestParser = s₂.requestParser)
    (hownx : ownText x = some t) (howny : ownText y = some t) (dispatch : Dispatch) (depth : Nat)
    (st : Statics) :
    (handleRead dispatch depth s₁ false x.length st).map Handled.observe =
      (handleRead dispatch depth s₂ false y.length st).map Handled.observe := by
  cases depth with
  | zero => rfl
  | succ depth =>
      have hfresh₂ : s₂.Fresh := by rwa [Fresh, ← hrequest, ← hparser]
      have hstop := parse_nul_ne_indeterminate s₁.requestParser s₁.request t
      obtain ⟨s₁', hparse₁, hreq₁⟩ := parseRead_ownText hx hfresh.state_eq hfresh.headers_isEmpty hownx
      obtain ⟨s₂', hparse₂, hreq₂⟩ := parseRead_ownText hy hfresh₂.state_eq hfresh₂.headers_isEmpty howny
      rw [← hrequest, ← hparser] at hparse₂ hreq₂
      have hanswer := answer_congr dispatch (hreq₁.trans hreq₂.symm)
        (s₁.requestParser.parse s₁.request (t ++ [0]) (t.length + 1)).result
        { st with numRequests := st.numRequests + 1 }
      rw [handleRead_of_stop dispatch depth st hparse₁ hstop, handleRead_of_stop dispatch depth st hparse₂ hstop]
      revert hanswer
      generalize answer dispatch _ s₁' _ = a₁
      generalize answer dispatch _ s₂' _ = a₂
      intro hanswer
      cases a₁ <;> cases a₂ <;> simp_all [Except.map, Handled.observe]

end Session

end WebServer
