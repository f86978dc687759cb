import WebServer.Handler.LocalHandlers
import WebServer.Session.HandleRead

/-!
# The passes of a call

A call of `handle_read` makes passes of its parser until one is good or bad (`Passes`), and then it answers: what
it returns is the answer after the last pass (`handleRead_of_passes`, `handleRead_eq_ok`). A new session makes one or
two passes (`exists_passes`), so that it starts one write (`handleRead_answers`). A missing handler ends the call,
since the handler is used behind the choice of the stock reply (`answer_null`).
-/

namespace WebServer

open Lib

/-- The events in front of the answer. -/
def passEvents (k : Nat) (result : ResultType) : List Event :=
  List.replicate (k - 1) (.parsed .indeterminate) ++ [.parsed result]

theorem passEvents_succ {k : Nat} (hk : 0 < k) (result : ResultType) :
    passEvents (k + 1) result = .parsed .indeterminate :: passEvents k result := by
  obtain ⟨k, rfl⟩ := Nat.exists_eq_add_of_lt hk
  simp [passEvents, List.replicate_succ]

/-- An answer behind some passes. -/
def Handled.behind (k : Nat) (result : ResultType) (handled : Handled) : Handled :=
  { handled with
    returned := if k = 1 then handled.returned else -1
    events := passEvents k result ++ handled.events }

namespace Session

variable {s s' : Session} {n k : Nat} {result : ResultType} {dispatch : Dispatch} {depth : Nat} {st : Statics}

/-- The passes of a call on a read of `n` bytes: their number, the result of the last one, and the session behind
it. -/
inductive Passes : Session → Nat → Nat → ResultType → Session → Prop
  | stop {s s' : Session} {n : Nat} {result : ResultType} (hparse : s.parseRead n = .ok (result, s'))
      (hresult : result ≠ .indeterminate) : Passes s n 1 result s'
  | more {s s' s'' : Session} {n k : Nat} {result : ResultType} (hparse : s.parseRead n = .ok (.indeterminate, s'))
      (hrest : Passes s' n k result s'') : Passes s n (k + 1) result s''

theorem Passes.pos (h : Passes s n k result s') : 0 < k := by
  cases h <;> omega

/-- A read that ends in a line end and that is judged at once. -/
theorem passes_formatted (s : Session) {x : Bytes} (hlen : x.length ≤ maxLength) (h2 : 2 ≤ x.length)
    (hend : crlf <:+ x) (hresult : ((s.overwrite x).parse x.length).1 = result) (hstop : result ≠ .indeterminate) :
    Passes (s.overwrite x) x.length 1 result ((s.overwrite x).parse x.length).2 := by
  apply Passes.stop _ hstop
  rw [parseRead_formatted (prefix_overwrite s hlen) h2 hend, ← hresult]

/-- The passes of a call are determined by its read. -/
theorem Passes.unique {k' : Nat} {result' : ResultType} {s'' : Session} (h : Passes s n k result s')
    (h' : Passes s n k' result' s'') : k' = k ∧ result' = result ∧ s'' = s' := by
  induction h generalizing k' with
  | stop hparse hresult =>
      cases h' with
      | stop hparse' _ =>
          rw [hparse] at hparse'
          obtain ⟨hsame, rfl⟩ := Prod.mk.inj (Except.ok.inj hparse')
          exact ⟨rfl, hsame.symm, rfl⟩
      | more hparse' _ =>
          rw [hparse] at hparse'
          exact absurd (Prod.mk.inj (Except.ok.inj hparse')).1 hresult
  | more hparse _ ih =>
      cases h' with
      | stop hparse' hresult' =>
          rw [hparse] at hparse'
          exact absurd (Prod.mk.inj (Except.ok.inj hparse')).1.symm hresult'
      | more hparse' hrest' =>
          rw [hparse] at hparse'
          obtain rfl := (Prod.mk.inj (Except.ok.inj hparse')).2
          obtain ⟨rfl, hrest⟩ := ih hrest'
          exact ⟨rfl, hrest⟩

/-- A call answers behind its passes, if the stack has room for them. -/
theorem handleRead_of_passes (h : Passes s n k result s') (dispatch : Dispatch) (depth : Nat) (st : Statics) :
    handleRead dispatch (depth + k) s false n st =
      (answer dispatch result s' { st with numRequests := st.numRequests + k }).map
        (Handled.behind k result) := by
  induction h generalizing st with
  | stop hparse hresult => exact handleRead_of_stop dispatch depth st hparse hresult
  | @more s s₁ s₂ n k result hparse hrest ih =>
      have hpos := hrest.pos
      rw [← Nat.add_assoc, handleRead_of_more dispatch (depth + k) st hparse, ih]
      have hcount : st.numRequests + 1 + k = st.numRequests + (k + 1) := by omega
      rw [hcount]
      rcases answer dispatch result s₂ { st with numRequests := st.numRequests + (k + 1) } with e | handled
      · rfl
      · have hne : k + 1 ≠ 1 := by omega
        simp only [Except.map, Handled.behind, passEvents_succ hpos, if_neg hne]
        rfl

/-- A call that returns has made its passes and answered. -/
theorem handleRead_eq_ok {handled : Handled} (h : handleRead dispatch depth s false n st = .ok handled) :
    ∃ k result s' answered, Passes s n k result s' ∧
      answer dispatch result s' { st with numRequests := st.numRequests + k } = .ok answered ∧
      handled = answered.behind k result := by
  induction depth generalizing s st handled with
  | zero => cases h
  | succ depth ih =>
      rcases hparse : s.parseRead n with e | ⟨result, s'⟩
      · rw [handleRead_of_error dispatch depth st hparse] at h
        cases h
      by_cases hresult : result = .indeterminate
      · rw [hresult] at hparse
        rw [handleRead_of_more dispatch depth st hparse, map_eq_ok] at h
        obtain ⟨again, hagain, rfl⟩ := h
        obtain ⟨k, result, s'', answered, hpasses, hanswer, rfl⟩ := ih hagain
        have hcount : st.numRequests + 1 + k = st.numRequests + (k + 1) := by omega
        rw [hcount] at hanswer
        refine ⟨k + 1, result, s'', answered, .more hparse hpasses, hanswer, ?_⟩
        have hne : k + 1 ≠ 1 := by have := hpasses.pos; omega
        simp only [Handled.behind, passEvents_succ hpasses.pos, if_neg hne]
        rfl
      · rw [handleRead_of_stop dispatch depth st hparse hresult, map_eq_ok] at h
        obtain ⟨answered, hanswer, rfl⟩ := h
        exact ⟨1, result, s', answered, .stop hparse hresult, hanswer, rfl⟩

/-! ### The number of passes -/

/-- A proper part of a head that ends in a line end. -/
def CutHead (x : Bytes) : Prop := crlf <:+ x ∧ ∃ head : RequestHead, x <+: head.render ∧ x ≠ head.render

/-- The first pass of a new session wants more exactly on a head that is cut behind a line end. -/
theorem parseRead_more_iff {x : Bytes} (hfresh : s.Fresh) (hread : x <+: s.data) (h2 : 2 ≤ x.length)
    (hparse : s.parseRead x.length = .ok (result, s')) : result = .indeterminate ↔ CutHead x := by
  by_cases hend : crlf <:+ x
  · rw [parseRead_formatted hread h2 hend] at hparse
    have hresult : (s.parse x.length).1 = result := congrArg Prod.fst (Except.ok.inj hparse)
    have hheaders : s.bound.headers.isEmpty = true := hfresh.headers_isEmpty
    rw [parse_fst hread] at hresult
    rw [← hresult, RequestParser.ofVerdict_eq_indeterminate, RequestParser.machine_residual.more_iff]
    simp [CutHead, hend, RequestParser.residual, hfresh.state_eq, hheaders, mem_tail_methodStart, requestLanguage]
  · exact iff_of_false (parseRead_ne_more hfresh hread h2 hend hparse) fun hcut => hend hcut.1

theorem Passes.two_le {x : Bytes} (h : Passes s x.length k result s') (hread : x <+: s.data) : 2 ≤ x.length := by
  by_contra hshort
  have hfault := parseRead_short hread (by omega)
  generalize x.length = n at h hfault
  cases h with
  | stop hparse _ =>
      rw [hfault] at hparse
      cases hparse
  | more hparse _ =>
      rw [hfault] at hparse
      cases hparse

/-- A new session makes one pass, or two on a head that is cut behind a line end. -/
theorem Passes.count_eq {x : Bytes} (h : Passes s x.length k result s') (hfresh : s.Fresh) (hread : x <+: s.data) :
    CutHead x ∧ k = 2 ∨ ¬ CutHead x ∧ k = 1 := by
  have h2 := h.two_le hread
  generalize hn : x.length = n at h
  cases h with
  | stop hparse hresult =>
      rw [← hn] at hparse
      exact Or.inr ⟨fun hcut => hresult ((parseRead_more_iff hfresh hread h2 hparse).mpr hcut), rfl⟩
  | more hparse hrest =>
      rw [← hn] at hparse hrest
      obtain ⟨s'', hsecond, -⟩ := parseRead_again hfresh hread h2 hparse
      obtain ⟨rfl, -, -⟩ := (Passes.stop hsecond (by decide)).unique hrest
      exact Or.inl ⟨(parseRead_more_iff hfresh hread h2 hparse).mp rfl, rfl⟩

/-- A read that can be parsed: the passes come to an end, and leave the body that the first one has found. -/
theorem exists_passes {x : Bytes} (hfresh : s.Fresh) (hread : x <+: s.data) (h2 : 2 ≤ x.length) (hfits : Fits x) :
    ∃ first s₁ k result s', s.parseRead x.length = .ok (first, s₁) ∧ Passes s x.length k result s' ∧ k ≤ 2 ∧
      (k = 2 ↔ first = .indeterminate) ∧ (k = 2 → result = .bad) ∧
      s'.request.body = (ownText x).getD (cString s.memory) := by
  obtain ⟨⟨first, s₁⟩, hparse⟩ := parseRead_ok hread h2 hfits
  have hbody := parseRead_body hread hparse
  by_cases hfirst : first = .indeterminate
  · subst hfirst
    obtain ⟨s', hsecond, hsame⟩ := parseRead_again hfresh hread h2 hparse
    exact ⟨_, s₁, 2, .bad, s', hparse, .more hparse (.stop hsecond (by decide)), le_rfl, by simp, fun _ => rfl,
      hsame.trans hbody⟩
  · exact ⟨first, s₁, 1, first, s₁, hparse, .stop hparse hfirst, by omega, by simp [hfirst], by omega, hbody⟩

/-! ### The write -/

/-- A call whose request has a handler that replies. -/
theorem handleRead_of_reply {h : RequestHandler} {rep : Reply} {st' : Statics} (hpasses : Passes s n k result s')
    (hdepth : k ≤ depth) (hdispatch : dispatch (answered result s'.request) = some h)
    (hreply : h.handleRequest (answered result s'.request) { st with numRequests := st.numRequests + k } =
      .ok (rep, st')) :
    ∃ handled, handleRead dispatch depth s false n st = .ok handled ∧
      handled.events = passEvents k result ++ [.asyncWrite rep] := by
  obtain ⟨depth, rfl⟩ : ∃ d, depth = d + k := ⟨depth - k, by omega⟩
  have hanswer := answer_eq_ok.mpr ⟨h, rep, st', hdispatch, hreply, rfl⟩
  rw [handleRead_of_passes hpasses, hanswer]
  exact ⟨_, rfl, rfl⟩

/-- **`handle_read` answers once.** A new session that has read at least two bytes makes a pass of its parser, and a
second one, which rejects, if and only if the first wants more. Then it starts one write, of what the handler of the
request replies. -/
theorem handleRead_answers (hfresh : s.Fresh) (n : Nat) (h2 : 2 ≤ n) (hn : n ≤ maxLength)
    (hfits : Fits (s.data.take n)) :
    ∃ first s₁ k result s', s.parseRead n = .ok (first, s₁) ∧ Passes s n k result s' ∧ k ≤ 2 ∧
      (k = 2 ↔ first = .indeterminate) ∧ (k = 2 → result = .bad) ∧
      ∀ (dispatch : Dispatch) (depth : Nat) (st st' : Statics) (h : RequestHandler) (rep : Reply), 2 ≤ depth →
        dispatch (answered result s'.request) = some h →
        h.handleRequest (answered result s'.request) { st with numRequests := st.numRequests + k } =
          .ok (rep, st') →
        ∃ handled, handleRead dispatch depth s false n st = .ok handled ∧
          handled.events = passEvents k result ++ [.asyncWrite rep] := by
  have hlen : (s.data.take n).length = n := by rw [List.length_take, s.data_length]; omega
  obtain ⟨first, s₁, k, result, s', hparse, hpasses, hk, hmore, hbad, -⟩ :=
    exists_passes hfresh (List.take_prefix n s.data) (by omega) hfits
  rw [hlen] at hparse hpasses
  exact ⟨first, s₁, k, result, s', hparse, hpasses, hk, hmore, hbad,
    fun dispatch depth st st' h rep hdepth => handleRead_of_reply hpasses (hk.trans hdepth)⟩

/-- A dispatcher with a handler for bad requests only. -/
def badRequestOnly : Dispatch := fun req =>
  if req.uri = bytes "/badrequest" then some EchoRequestHandler.handler else none

/-- A request line on its own makes the parser want more. -/
theorem handleRead_requestLine :
    ∃ handled rep, handleRead badRequestOnly 2 ((filled 0).overwrite (bytes "GET / HTTP/1.1\r\n")) false 16
        Statics.initial = .ok handled ∧
      handled.events = [.parsed .indeterminate, .parsed .bad, .asyncWrite rep] := by
  obtain ⟨first, s₁, k, result, s', hparse, -, -, hmore, hbad, hall⟩ :=
    handleRead_answers ((filled_fresh 0).overwrite (bytes "GET / HTTP/1.1\r\n")) 16 (by decide) (by decide) (by decide)
  have hfirst : (((filled 0).overwrite (bytes "GET / HTTP/1.1\r\n")).parseRead 16).map Prod.fst =
      .ok .indeterminate := by decide
  rw [hparse] at hfirst
  obtain rfl : k = 2 := hmore.mpr (Except.ok.inj hfirst)
  obtain rfl : result = .bad := hbad rfl
  obtain ⟨handled, hrun, hevents⟩ := hall badRequestOnly 2 Statics.initial _ EchoRequestHandler.handler _ le_rfl (if_pos rfl) rfl
  exact ⟨handled, _, hrun, hevents⟩

/-! ### No handler -/

/-- Without a handler there is no answer. -/
theorem answer_null (hnull : dispatch (answered result s.request) = none) :
    answer dispatch result s st = .error .nullPointer := by
  rw [answered] at hnull
  rw [answer]
  split_ifs with hgood
  · rw [if_pos hgood] at hnull
    rw [answerGood, hnull]
    rfl
  · rw [if_neg hgood] at hnull
    rw [answerBad, hnull]
    rfl

/-- A call whose passes end in a request without a handler does not return. -/
theorem handleRead_null (h : Passes s n k result s') (hnull : dispatch (answered result s'.request) = none)
    (depth : Nat) (st : Statics) (handled : Handled) : handleRead dispatch depth s false n st ≠ .ok handled := by
  intro hhandled
  obtain ⟨k', result', s'', answered', hpasses, hanswer, -⟩ := handleRead_eq_ok hhandled
  obtain ⟨rfl, rfl, rfl⟩ := h.unique hpasses
  rw [answer_null hnull] at hanswer
  cases hanswer

end Session

end WebServer
