import WebServer.Session.Passes

/-!
# A session on its connection

The events of a session move its connection: a read it has asked for is completed by the next segment that
arrives, and what it writes goes out. `start` asks for one read and `handle_read` for none
(`handleRead_no_read`), so the segments after the first stay in the socket (`run_cons`).
-/

namespace WebServer

open Lib

/-- A session, the statics, the reads that it waits for and the replies that it has written. -/
structure Connection where
  session : Session
  statics : Statics
  pendingReads : Nat
  written : List Reply

namespace Connection

def perform (c : Connection) : Event → Connection
  | .parsed _ => c
  | .asyncReadSome => { c with pendingReads := c.pendingReads + 1 }
  | .asyncWrite rep => { c with written := c.written ++ [rep] }

/-- A new connection, once its session has been started. -/
def accept (s : Session) (st : Statics) : Connection := Session.start.foldl perform ⟨s, st, 0, []⟩

/-- A segment arrives. A pending read takes at most `max_length` bytes of it; without one it stays in the
socket. -/
def deliver (dispatch : Dispatch) (depth : Nat) (c : Connection) (segment : Bytes) :
    Except Fault Connection :=
  if c.pendingReads = 0 then .ok c
  else
    let read := segment.take maxLength
    (Session.handleRead dispatch depth (c.session.overwrite read) false read.length c.statics).map
      fun handled => handled.events.foldl perform
        ⟨handled.session, handled.statics, c.pendingReads - 1, c.written⟩

/-- Segments arrive one after the other. -/
def run (dispatch : Dispatch) (depth : Nat) (c : Connection) (segments : List Bytes) :
    Except Fault Connection :=
  segments.foldlM (deliver dispatch depth) c

/-- The replies that a new session has written when the segments have arrived. -/
def replies (dispatch : Dispatch) (depth : Nat) (s : Session) (st : Statics) (segments : List Bytes) :
    Except Fault (List Reply) :=
  (run dispatch depth (accept s st) segments).map Connection.written

/-! ### What the events do -/

/-- The replies among some events. -/
def writes (events : List Event) : List Reply :=
  events.filterMap fun
    | .asyncWrite rep => some rep
    | _ => none

theorem written_foldl (events : List Event) (c : Connection) :
    (events.foldl perform c).written = c.written ++ writes events := by
  induction events generalizing c with
  | nil => simp [writes]
  | cons e rest ih => cases e <;> simp [ih, perform, writes]

theorem pendingReads_foldl {events : List Event} (hread : .asyncReadSome ∉ events) (c : Connection) :
    (events.foldl perform c).pendingReads = c.pendingReads := by
  induction events generalizing c with
  | nil => rfl
  | cons e rest ih =>
      have hrest : .asyncReadSome ∉ rest := fun hmem => hread (by simp [hmem])
      rw [List.foldl_cons, ih hrest]
      cases e with
      | asyncReadSome => simp at hread
      | parsed result => rfl
      | asyncWrite rep => rfl

/-- `handle_read` asks for no further read: it makes passes, and then it writes. -/
theorem handleRead_no_read {dispatch : Dispatch} {depth : Nat} {s : Session} {n : Nat} {st : Statics}
    {handled : Handled} (h : Session.handleRead dispatch depth s false n st = .ok handled) :
    .asyncReadSome ∉ handled.events := by
  obtain ⟨k, result, s', answer, -, hanswer, rfl⟩ := Session.handleRead_eq_ok h
  obtain ⟨_, rep, _, -, -, rfl⟩ := Session.answer_eq_ok.mp hanswer
  show .asyncReadSome ∉ passEvents k result ++ [.asyncWrite rep]
  simp [passEvents, List.mem_replicate]

/-! ### The first segment decides -/

theorem deliver_accept (dispatch : Dispatch) (depth : Nat) (s : Session) (st : Statics) {segment : Bytes}
    (hlen : segment.length ≤ maxLength) :
    deliver dispatch depth (accept s st) segment =
      (Session.handleRead dispatch depth (s.overwrite segment) false segment.length st).map fun handled =>
        handled.events.foldl perform ⟨handled.session, handled.statics, 0, []⟩ := by
  have hpending : (accept s st).pendingReads ≠ 0 := Nat.one_ne_zero
  rw [deliver, if_neg hpending, List.take_of_length_le hlen]
  rfl

theorem run_of_no_read (dispatch : Dispatch) (depth : Nat) {c : Connection} (h : c.pendingReads = 0)
    (segments : List Bytes) : run dispatch depth c segments = .ok c := by
  induction segments with
  | nil => rfl
  | cons segment rest ih =>
      rw [run, List.foldlM_cons, deliver, if_pos h]
      exact ih

/-- What a new session writes is what it writes to the first segment. -/
theorem replies_cons (dispatch : Dispatch) (depth : Nat) (s : Session) (st : Statics) {segment : Bytes}
    (hlen : segment.length ≤ maxLength) (rest : List Bytes) :
    replies dispatch depth s st (segment :: rest) =
      (Session.handleRead dispatch depth (s.overwrite segment) false segment.length st).map
        fun handled => writes handled.events := by
  rw [replies, run, List.foldlM_cons, deliver_accept dispatch depth s st hlen]
  rcases hrun : Session.handleRead dispatch depth (s.overwrite segment) false segment.length st
    with e | handled
  · rfl
  · have hpending := pendingReads_foldl (handleRead_no_read hrun) ⟨handled.session, handled.statics, 0, []⟩
    have hrest := run_of_no_read dispatch depth hpending rest
    have hwritten := written_foldl handled.events ⟨handled.session, handled.statics, 0, []⟩
    calc (run dispatch depth (handled.events.foldl perform ⟨handled.session, handled.statics, 0, []⟩) rest).map
          Connection.written
        = .ok (handled.events.foldl perform ⟨handled.session, handled.statics, 0, []⟩).written := by
          rw [hrest]
          rfl
      _ = .ok (writes handled.events) := by rw [hwritten, List.nil_append]

/-! ### Segmentation -/

/-- The request `A ++ B` gets the same reply, if it gets one, when it arrives in the segments `A` and `B`. -/
def SplitInvariant (A B : Bytes) : Prop :=
  ∀ (dispatch : Dispatch) (depth : Nat) (s : Session) (st : Statics) (rep : Reply), s.Fresh →
    replies dispatch depth s st [A ++ B] = .ok [rep] → replies dispatch depth s st [A, B] = .ok [rep]

/-- A dispatcher whose replies show the body of the request. -/
def bodyDispatch : Dispatch := fun _ =>
  some ⟨[], fun req st => .ok (⟨StatusCode.ok, OrdMap.empty, req.body⟩, st)⟩

theorem writes_passEvents (k : Nat) (result : ResultType) (events : List Event) :
    writes (passEvents k result ++ events) = writes events := by
  simp [writes, passEvents, List.filterMap_replicate_of_none]

/-- The reply of `bodyDispatch` to a segment that can be parsed. -/
theorem replies_bodyDispatch {s : Session} (hfresh : s.Fresh) {x : Bytes} (h2 : 2 ≤ x.length)
    (hlen : x.length ≤ maxLength) (hfits : Session.Fits x) (st : Statics) (rest : List Bytes) :
    replies bodyDispatch 2 s st (x :: rest) =
      .ok [⟨StatusCode.ok, OrdMap.empty, (Session.ownText x).getD (cString (s.overwrite x).memory)⟩] := by
  obtain ⟨-, -, k, result, s', -, hpasses, hk, -, -, hbody⟩ :=
    Session.exists_passes (hfresh.overwrite x) (Session.prefix_overwrite s hlen) h2 hfits
  obtain ⟨handled, hrun, hevents⟩ : ∃ handled,
      Session.handleRead bodyDispatch 2 (s.overwrite x) false x.length st = .ok handled ∧
        handled.events = passEvents k result ++ [.asyncWrite ⟨StatusCode.ok, OrdMap.empty,
          (Session.answered result s'.request).body⟩] :=
    Session.handleRead_of_reply hpasses hk rfl rfl
  rw [replies_cons bodyDispatch 2 s st hlen, hrun]
  show Except.ok (writes handled.events) = _
  rw [hevents, writes_passEvents, Session.body_answered, hbody]
  rfl

/-- A segment that cannot be parsed gets no reply. -/
theorem replies_of_not_fits (dispatch : Dispatch) (depth : Nat) (s : Session) (st : Statics) {x : Bytes}
    (hlen : x.length ≤ maxLength) (h : x.length < 2 ∨ ¬ Session.Fits x) (rest : List Bytes)
    (reps : List Reply) : replies dispatch depth s st (x :: rest) ≠ .ok reps := by
  rw [replies_cons dispatch depth s st hlen]
  intro hrun
  obtain ⟨handled, hhandled, -⟩ := map_eq_ok.mp hrun
  have hread := Session.prefix_overwrite s hlen
  obtain ⟨e, he⟩ : ∃ e, (s.overwrite x).parseRead x.length = .error e := by
    by_cases h2 : x.length < 2
    · exact ⟨_, Session.parseRead_short hread h2⟩
    · exact ⟨_, Session.parseRead_overflow hread (by omega) (h.resolve_left h2)⟩
  cases depth with
  | zero => cases hhandled
  | succ depth =>
      rw [Session.handleRead_of_error dispatch depth st he] at hhandled
      cases hhandled

/-- What a read that does not fix the text at `data_` leaves there, in front of NULs. -/
theorem cString_filled_zero {x : Bytes} (hlen : x.length ≤ maxLength) (hnul : 0 ∉ x) :
    cString ((Session.filled 0).overwrite x).memory = x := by
  rw [Session.memory_overwrite _ hlen, cString_append hnul]
  have hzero : cString ((Session.filled 0).data.drop x.length ++ (Session.filled 0).beyond) = [] := by
    rw [Session.filled, Session.fresh, List.drop_replicate]
    cases maxLength - x.length <;> simp [List.replicate_succ]
  rw [hzero, List.append_nil]

theorem cString_filled_one {x : Bytes} (hlen : x.length ≤ maxLength) (hnul : 0 ∉ x) :
    cString ((Session.filled 1).overwrite x).memory ≠ x := by
  rw [Session.memory_overwrite _ hlen, cString_append hnul]
  intro h
  have hone : cString ((Session.filled 1).data.drop x.length ++ (Session.filled 1).beyond) ≠ [] := by
    rw [Session.filled, Session.fresh, List.drop_replicate]
    cases maxLength - x.length <;> simp +decide [List.replicate_succ, cString]
  exact hone (by simpa using h)

/-- A read that has room for its reformatted text, and does not fix the text at `data_`, holds no NUL. -/
theorem zero_notMem_of_ownText_eq_none {x : Bytes} (h2 : 2 ≤ x.length) (hfits : Session.Fits x)
    (hown : Session.ownText x = none) : 0 ∉ x := by
  rcases Session.ownText_eq_none.mp hown with hshort | ⟨-, hnul⟩ | hnot
  · omega
  · exact hnul
  · exact absurd hfits hnot

/-- If the replies agree whatever is in the memory, both reads fix the text at `data_`. -/
theorem ownText_of_splitInvariant {A B : Bytes} (hA : A ≠ []) (hB : B ≠ [])
    (hlen : (A ++ B).length ≤ maxLength) (h : SplitInvariant A B) (hfits : Session.Fits (A ++ B)) :
    ∃ t, Session.ownText A = some t ∧ Session.ownText (A ++ B) = some t := by
  have hApos := List.length_pos_iff.mpr hA
  have hBpos := List.length_pos_iff.mpr hB
  have h2 : 2 ≤ (A ++ B).length := by rw [List.length_append]; omega
  have hlenA : A.length ≤ maxLength := by rw [List.length_append] at hlen; omega
  have hsplit : ∀ c, replies bodyDispatch 2 (Session.filled c) Statics.initial [A, B] = _ := fun c =>
    h bodyDispatch 2 (Session.filled c) Statics.initial _ (Session.filled_fresh c)
      (replies_bodyDispatch (Session.filled_fresh c) h2 hlen hfits _ _)
  obtain ⟨h2A, hfitsA⟩ : 2 ≤ A.length ∧ Session.Fits A := by
    by_contra hnot
    refine replies_of_not_fits bodyDispatch 2 (Session.filled 0) Statics.initial hlenA ?_ [B] _ (hsplit 0)
    by_cases hshort : A.length < 2
    · exact Or.inl hshort
    · exact Or.inr fun hfitsA => hnot ⟨by omega, hfitsA⟩
  have hbody : ∀ c, (Session.ownText A).getD (cString ((Session.filled c).overwrite A).memory) =
      (Session.ownText (A ++ B)).getD (cString ((Session.filled c).overwrite (A ++ B)).memory) := by
    intro c
    have hsame := (replies_bodyDispatch (Session.filled_fresh c) h2A hlenA hfitsA Statics.initial [B]).symm.trans
      (hsplit c)
    simpa using hsame
  -- in front of NULs and in front of other bytes, only a text that is fixed stays the same
  have hzero := hbody 0
  have hone := hbody 1
  rcases hownA : Session.ownText A with _ | t <;> rcases hownR : Session.ownText (A ++ B) with _ | u
  · have hnulA := zero_notMem_of_ownText_eq_none h2A hfitsA hownA
    have hnulR := zero_notMem_of_ownText_eq_none h2 hfits hownR
    rw [hownA, hownR, Option.getD_none, Option.getD_none, cString_filled_zero hlenA hnulA,
      cString_filled_zero hlen hnulR] at hzero
    exact absurd (by simpa using hzero) hB
  · have hnulA := zero_notMem_of_ownText_eq_none h2A hfitsA hownA
    rw [hownA, hownR, Option.getD_none, Option.getD_some] at hzero hone
    rw [cString_filled_zero hlenA hnulA] at hzero
    exact absurd (hone.trans hzero.symm) (cString_filled_one hlenA hnulA)
  · have hnulR := zero_notMem_of_ownText_eq_none h2 hfits hownR
    rw [hownA, hownR, Option.getD_none, Option.getD_some] at hzero hone
    rw [cString_filled_zero hlen hnulR] at hzero
    exact absurd (hone.symm.trans hzero) (cString_filled_one hlen hnulR)
  · rw [hownA, hownR, Option.getD_some, Option.getD_some] at hzero
    exact ⟨t, rfl, by rw [hzero]⟩

theorem splitInvariant_of_ownText {A B t : Bytes} (hlenA : A.length ≤ maxLength)
    (hlen : (A ++ B).length ≤ maxLength) (hownA : Session.ownText A = some t)
    (hownR : Session.ownText (A ++ B) = some t) : SplitInvariant A B := by
  intro dispatch depth s st rep hfresh hrun
  have hsame := Session.handleRead_congr (Session.prefix_overwrite s hlen) (Session.prefix_overwrite s hlenA)
    (hfresh.overwrite _) rfl rfl hownR hownA dispatch depth st
  rw [replies_cons dispatch depth s st hlen] at hrun
  rw [replies_cons dispatch depth s st hlenA]
  obtain ⟨handled, hhandled, hwrites⟩ := map_eq_ok.mp hrun
  rw [hhandled] at hsame
  obtain ⟨handledA, hhandledA, hobserve⟩ := map_eq_ok.mp hsame.symm
  have hevents : handledA.events = handled.events := congrArg (fun o => o.2.1) hobserve
  exact map_eq_ok.mpr ⟨handledA, hhandledA, by rw [hevents, hwrites]⟩

/-- **The segmentation of a request does not matter** if and only if it gets no reply in one segment, or its
first segment and the whole request both fix the text at `data_`, as the same text. -/
theorem splitInvariant_iff {A B : Bytes} (hA : A ≠ []) (hB : B ≠ []) (hlen : (A ++ B).length ≤ maxLength) :
    SplitInvariant A B ↔
      (Session.Fits (A ++ B) → ∃ t, Session.ownText A = some t ∧ Session.ownText (A ++ B) = some t) := by
  refine ⟨fun h hfits => ownText_of_splitInvariant hA hB hlen h hfits, fun h => ?_⟩
  by_cases hfits : Session.Fits (A ++ B)
  · obtain ⟨t, hownA, hownR⟩ := h hfits
    have hlenA : A.length ≤ maxLength := by rw [List.length_append] at hlen; omega
    exact splitInvariant_of_ownText hlenA hlen hownA hownR
  · intro dispatch depth s st rep _ hrun
    exact absurd hrun (replies_of_not_fits dispatch depth s st hlen (Or.inr hfits) [] _)

theorem splitInvariant_getRequest :
    SplitInvariant (bytes "GET /echo") (bytes " HTTP/1.1\r\n\r\n") ↔
      (Session.Fits (bytes "GET /echo" ++ bytes " HTTP/1.1\r\n\r\n") →
        ∃ t, Session.ownText (bytes "GET /echo") = some t ∧
          Session.ownText (bytes "GET /echo" ++ bytes " HTTP/1.1\r\n\r\n") = some t) :=
  splitInvariant_iff (by decide) (by decide) (by decide)

/-- A request whose line is cut before its version. -/
theorem getRequest_not_splitInvariant :
    (bytes "GET /echo" ++ bytes " HTTP/1.1\r\n\r\n").length ≤ maxLength ∧
      ¬ SplitInvariant (bytes "GET /echo") (bytes " HTTP/1.1\r\n\r\n") := by
  refine ⟨by decide, fun h => ?_⟩
  obtain ⟨t, -, hown⟩ := ownText_of_splitInvariant (by decide) (by decide) (by decide) h (by decide)
  have hnone : Session.ownText (bytes "GET /echo" ++ bytes " HTTP/1.1\r\n\r\n") = none := by decide
  rw [hnone] at hown
  cases hown

end Connection

end WebServer
