import WebServer.Lib.Log
import WebServer.Lib.Runs
import WebServer.Server.Dispatching

/-!
# Visits

Connections that are served one after the other, each by a session of its own (`Run`). What one of them does to the
statics is in `Visit.Serves.cases`: the count goes up by the number of passes, and the code of the reply is recorded
if the request is good. So the records are those of the good requests (`records_exact`), and the count is the
number of connections unless a session has made two passes (`numRequests_eq_iff`).
-/

namespace WebServer

open Lib Session

/-- The reply that an event writes. -/
def Event.reply? : Event → Option Reply
  | .asyncWrite rep => some rep
  | _ => none

/-- A connection that has been served: its session and the number of bytes that it has read, the environment, the
room on the stack, and what the call has returned. -/
structure Visit where
  session : Session
  bytesTransferred : Nat
  environment : Environment
  depth : Nat
  handled : Handled

namespace Visit

/-- The bytes that were read. -/
def read (v : Visit) : Bytes := v.session.data.take v.bytesTransferred

/-- A new session handles a read, between two states of the statics. -/
def Serves (d : RequestHandlerDispatcher) (st : Statics) (v : Visit) (st' : Statics) : Prop :=
  v.session.Fresh ∧ v.bytesTransferred ≤ maxLength ∧
    handleRead (d.toDispatch v.environment) v.depth v.session false v.bytesTransferred st = .ok v.handled ∧
    st' = v.handled.statics

/-- The parser has accepted the request. -/
def Good (v : Visit) : Prop := .parsed .good ∈ v.handled.events

instance (v : Visit) : Decidable v.Good := inferInstanceAs (Decidable (_ ∈ _))

/-- The reply that was written. -/
def reply? (v : Visit) : Option Reply := v.handled.events.findSome? Event.reply?

/-- The URI of an accepted request and the code of the reply to it. -/
def record (v : Visit) : Option (Bytes × StatusCode) :=
  if v.Good then v.reply?.map fun rep => (v.handled.session.request.uri, rep.code) else none

variable {d : RequestHandlerDispatcher} {st st' : Statics} {v : Visit}

theorem findSome?_passEvents (k : Nat) (result : ResultType) (rep : Reply) :
    (passEvents k result ++ [Event.asyncWrite rep]).findSome? Event.reply? = some rep := by
  have hnone : (passEvents k result).findSome? Event.reply? = none := by
    rw [List.findSome?_eq_none_iff]
    intro e he
    rcases List.mem_append.mp he with he | he
    · rw [List.eq_of_mem_replicate he]
      rfl
    · rw [List.mem_singleton.mp he]
      rfl
  rw [List.findSome?_append, hnone]
  rfl

theorem parsed_good_mem_passEvents {k : Nat} {result : ResultType} {rep : Reply} :
    Event.parsed .good ∈ passEvents k result ++ [.asyncWrite rep] ↔ result = .good := by
  simp [passEvents, List.mem_replicate, eq_comm]

/-- **What a visit does.** -/
theorem Serves.cases (h : v.Serves d st st') :
    ∃ k result s' handler rep st₁, Passes v.session v.bytesTransferred k result s' ∧
      d.dispatch v.handled.session.request = some handler ∧
      handler.handleRequest v.environment v.handled.session.request
        { st with numRequests := st.numRequests + k } = .ok (rep, st₁) ∧
      v.handled.session.request = answered result s'.request ∧ v.reply? = some rep ∧
      (v.Good ↔ result = .good) ∧
      st' = if result = .good then st₁.recordCode v.handled.session.request.uri rep.code else st₁ := by
  obtain ⟨-, -, hhandled, hst'⟩ := h
  obtain ⟨k, result, s', answer, hpasses, hanswer, hbehind⟩ := handleRead_eq_ok hhandled
  obtain ⟨requestHandler, rep, st₁, hdispatch, hreply, rfl⟩ := answer_eq_ok.mp hanswer
  obtain ⟨handler, hhandler, rfl⟩ := Option.map_eq_some_iff.mp hdispatch
  have hevents : v.handled.events = passEvents k result ++ [.asyncWrite rep] := by rw [hbehind]; rfl
  have hrequest : v.handled.session.request = answered result s'.request := by rw [hbehind]; rfl
  refine ⟨k, result, s', handler, rep, st₁, hpasses, ?_, ?_, hrequest, ?_, ?_, ?_⟩
  · rw [hrequest]
    exact hhandler
  · rw [hrequest]
    exact hreply
  · rw [reply?, hevents, findSome?_passEvents]
  · rw [Good, hevents, parsed_good_mem_passEvents]
  · rw [hst', hrequest, hbehind]
    by_cases hgood : result = .good
    · simp only [Handled.behind, if_pos hgood, answered]
    · simp only [Handled.behind, if_neg hgood]

/-- A visit records its reply under its URI, if its request is good. -/
theorem Serves.codes_eq (h : v.Serves d st st') (uri : Bytes) :
    st'.codes uri = st.codes uri ++ logged uri v.record.toList := by
  obtain ⟨k, result, s', handler, rep, st₁, -, -, hreply, -, hrep, hgood, hst'⟩ := h.cases
  have hcodes : st₁.codes = st.codes := (Handler.handleRequest_statics hreply).1
  rw [record, hrep, hst']
  by_cases hresult : result = .good
  · rw [if_pos hresult, if_pos (hgood.mpr hresult), Statics.codes_recordCode, hcodes, Option.map_some,
      Option.toList_some, logged_singleton]
    split_ifs
    · rfl
    · exact (List.append_nil _).symm
  · rw [if_neg hresult, if_neg fun hv => hresult (hgood.mp hv), hcodes]
    exact (List.append_nil _).symm

theorem Serves.read_length (h : v.Serves d st st') : v.read.length = v.bytesTransferred := by
  have hlength := v.session.data_length
  have hle := h.2.1
  rw [read, List.length_take]
  omega

/-- A visit counts once, or twice if its read is a head that is cut behind a line end. -/
theorem Serves.numRequests_eq (h : v.Serves d st st') :
    CutHead v.read ∧ st'.numRequests = st.numRequests + 2 ∨
      ¬ CutHead v.read ∧ st'.numRequests = st.numRequests + 1 := by
  obtain ⟨k, result, s', handler, rep, st₁, hpasses, -, hreply, -, -, -, hst'⟩ := h.cases
  have hcount : st'.numRequests = st.numRequests + k := by
    rw [hst']
    have hkeep := (Handler.handleRequest_statics hreply).2
    split_ifs
    · exact hkeep
    · exact hkeep
  rw [← h.read_length] at hpasses
  rw [hcount]
  rcases hpasses.count_eq h.1 (List.take_prefix _ _) with ⟨hcut, rfl⟩ | ⟨hcut, rfl⟩
  · exact Or.inl ⟨hcut, rfl⟩
  · exact Or.inr ⟨hcut, rfl⟩

/-- The rows of the request table. -/
def rows (log : List (Bytes × StatusCode)) : Bytes :=
  log.flatMap fun r => StatusRequestHandler.row r.1 (decimal r.2)

theorem requestInfo_eq (st : Statics) :
    StatusRequestHandler.requestInfo st = rows st.requestCodeReceived.pairs := by
  simp [StatusRequestHandler.requestInfo, rows, OrdMap.pairs, OrdMap.entryPairs, List.flatMap_assoc, List.flatMap_map]

/-- A status page shows the records, and one for itself. -/
theorem Serves.statusPage (h : v.Serves d st st') (hstatus : d.dispatch v.handled.session.request = some .status)
    {log : List (Bytes × StatusCode)} (hlog : ∀ uri, st.codes uri = logged uri log) :
    ∃ rep shown, v.reply? = some rep ∧
      rep.body = StatusRequestHandler.displayContent st'.numRequests (rows shown)
        (StatusRequestHandler.requestHandlerInfo st') ∧
      shown.Perm (log ++ [(v.handled.session.request.uri, StatusCode.ok)]) := by
  obtain ⟨k, result, s', handler, rep, st₁, -, hdispatch, hreply, -, hrep, -, hst'⟩ := h.cases
  obtain rfl : Handler.status = handler := Option.some.inj (hstatus.symm.trans hdispatch)
  obtain ⟨rfl, rfl⟩ := Prod.mk.inj (Except.ok.inj hreply)
  refine ⟨_, (Statics.recordCode { st with numRequests := st.numRequests + k } v.handled.session.request.uri
    StatusCode.ok).requestCodeReceived.pairs, hrep, ?_, OrdMap.pairs_perm fun uri => ?_⟩
  · rw [hst', ← requestInfo_eq]
    split_ifs <;> rfl
  · have hcodes := Statics.codes_recordCode { st with numRequests := st.numRequests + k }
      v.handled.session.request.uri uri StatusCode.ok
    have hbefore : Statics.codes { st with numRequests := st.numRequests + k } uri = logged uri log := hlog uri
    rw [logged_append, logged_singleton, ← hbefore]
    refine hcodes.trans ?_
    split_ifs
    · rfl
    · exact (List.append_nil _).symm

/-- A new session whose request goes to a handler that replies is served. -/
theorem exists_serves (d : RequestHandlerDispatcher) (st : Statics) (env : Environment) (handler : Handler)
    {s s' : Session} {n k : Nat} {result : ResultType} {rep : Reply} {st₁ : Statics} (hfresh : s.Fresh) (hn : n ≤ maxLength)
    (hpasses : Passes s n k result s') (hdispatch : d.dispatch (answered result s'.request) = some handler)
    (hreply : handler.handleRequest env (answered result s'.request)
      { st with numRequests := st.numRequests + k } = .ok (rep, st₁)) :
    ∃ v, Serves d st v (if result = .good then st₁.recordCode s'.request.uri rep.code else st₁) ∧
      v.read = s.data.take n ∧ v.handled.session.request = answered result s'.request ∧
      v.record = if result = .good then some (s'.request.uri, rep.code) else none := by
  refine ⟨⟨s, n, env, 0 + k, _⟩,
    ⟨hfresh, hn, RequestHandlerDispatcher.handleRead_dispatched hpasses hdispatch hreply 0, rfl⟩, rfl, rfl, ?_⟩
  simp only [record, reply?, Good, findSome?_passEvents, parsed_good_mem_passEvents, Option.map_some]
  by_cases hgood : result = .good
  · simp only [if_pos hgood, answered]
  · simp only [if_neg hgood]

end Visit

open Visit RequestHandlerDispatcher

variable {d : RequestHandlerDispatcher} {st₀ st : Statics} {visits : List Visit}

/-- The runs of the server: connections that are served one after the other. -/
abbrev Runs (d : RequestHandlerDispatcher) (st₀ : Statics) (visits : List Visit) (st : Statics) : Prop :=
  Run (fun st v st' => Serves d st v st') st₀ visits st

/-! ### A server with a status page -/

/-- A config with a location for what is not found and one for the status page. -/
def statusText : Bytes :=
  bytes "server \x7b location \"/\" NotFoundHandler \x7b\x7d location \"/status\" StatusHandler \x7b\x7d \x7d"

/-- What `Parse` makes of it. -/
def statusConfig : NginxConfig :=
  [⟨[bytes "server"], some [⟨[bytes "location", quoted (bytes "/"), bytes "NotFoundHandler"], some []⟩,
    ⟨[bytes "location", quoted (bytes "/status"), bytes "StatusHandler"], some []⟩]⟩]

/-- What `create` makes of that. -/
def withStatus : RequestHandlerDispatcher :=
  ⟨(OrdMap.empty.insert (bytes "/") (some .notFound)).insert (bytes "/status") (some .status)⟩

def withStatusStatics : Statics :=
  ⟨(OrdMap.empty.insert (bytes "/") (bytes "not found handler")).insert (bytes "/status") (bytes "status handler"),
    OrdMap.empty, 2, 0⟩

/-- A new session that has read a request. -/
def getRead (uri : Bytes) : Session := (filled 0).overwrite (bytes "GET " ++ uri ++ bytes " HTTP/1.1\r\n\r\n")

/-- An accepted request is recorded with the code of its reply. -/
theorem exists_getVisit (st : Statics) (uri : Bytes) (handler : Handler) {n : Nat} {rep : Reply} {st₁ : Statics}
    (hlength : (bytes "GET " ++ uri ++ bytes " HTTP/1.1\r\n\r\n").length = n) (hn : n ≤ maxLength)
    (hgood : ((getRead uri).parse n).1 = .good) (huri : ((getRead uri).parse n).2.request.uri = uri)
    (hdispatch : withStatus.dispatch ((getRead uri).parse n).2.request = some handler)
    (hreply : handler.handleRequest .isolated ((getRead uri).parse n).2.request
      { st with numRequests := st.numRequests + 1 } = .ok (rep, st₁)) :
    ∃ v, Serves withStatus st v (st₁.recordCode uri rep.code) ∧
      withStatus.dispatch v.handled.session.request = some handler ∧ v.handled.session.request.uri = uri ∧
      v.record = some (uri, rep.code) := by
  subst hlength
  have hpasses := passes_formatted (filled 0) hn (by simp [bytes]) (List.suffix_append_of_suffix ⟨bytes " HTTP/1.1\r\n", rfl⟩)
    hgood (by decide)
  obtain ⟨v, hserves, -, hrequest, hrecord⟩ := exists_serves withStatus st .isolated handler ((filled_fresh 0).overwrite _)
    hn hpasses hdispatch hreply
  rw [if_pos rfl] at hserves hrecord
  rw [answered, if_pos rfl] at hrequest
  refine ⟨v, ?_, ?_, ?_, hrecord.trans (congrArg (fun u => some (u, rep.code)) huri)⟩
  · rw [← huri]
    exact hserves
  · rw [hrequest]
    exact hdispatch
  · rw [hrequest]
    exact huri

/-- A rejected request is counted. -/
theorem exists_blankVisit (st : Statics) :
    ∃ v, Serves withStatus st v { st with numRequests := st.numRequests + 1 } ∧ v.record = none := by
  obtain ⟨v, hserves, -, -, hrecord⟩ := exists_serves withStatus st .isolated .notFound ((filled_fresh 0).overwrite _)
    (by decide) blankRead_passes (by decide +kernel) rfl
  exact ⟨v, hserves, hrecord⟩

/-- What a request for a path without a handler of its own leaves. -/
def notFoundAt (uri : Bytes) (st : Statics) : Statics :=
  Statics.recordCode { st with numRequests := st.numRequests + 1 } uri StatusCode.notFound

/-- A request that is not found, a rejected one, and one for the status page. -/
theorem exists_runs_status : ∃ visits st, Runs withStatus withStatusStatics visits st ∧ visits.length = 3 ∧
    st.numRequests = 3 ∧
    visits.filterMap record = [(bytes "/a", StatusCode.notFound), (bytes "/status", StatusCode.ok)] := by
  obtain ⟨v, hserves, -, -, hrecord⟩ := exists_getVisit (n := 19) withStatusStatics (bytes "/a") .notFound (by decide)
    (by decide) (by decide +kernel) (by decide +kernel) (by decide +kernel) rfl
  obtain ⟨v', hserves', hrecord'⟩ := exists_blankVisit (notFoundAt (bytes "/a") withStatusStatics)
  obtain ⟨v'', hserves'', -, -, hrecord''⟩ := exists_getVisit (n := 24)
    { notFoundAt (bytes "/a") withStatusStatics with numRequests := 2 } (bytes "/status") .status (by decide)
    (by decide) (by decide +kernel) (by decide +kernel) (by decide +kernel) rfl
  have hlog : [v, v', v''].filterMap record = [(bytes "/a", StatusCode.notFound), (bytes "/status", StatusCode.ok)] := by
    rw [List.filterMap_cons_some hrecord, List.filterMap_cons_none hrecord', List.filterMap_cons_some hrecord'']
    rfl
  exact ⟨_, _, ((Run.single hserves).snoc hserves').snoc hserves'', rfl, rfl, hlog⟩

/-! ### Records and the count -/

/-- **Status records are exact**: behind every run, the codes under a URI are those of the replies to the accepted
requests for it, in their order, and a status page that is asked for next has one row for every record, in some
order, and one for itself. -/
theorem records_exact (d : RequestHandlerDispatcher) (st₀ st : Statics) (visits : List Visit)
    (h0 : st₀.requestCodeReceived = OrdMap.empty) (h : Runs d st₀ visits st) :
    (∀ uri, st.codes uri = logged uri (visits.filterMap record)) ∧
      ∀ v st', Serves d st v st' → d.dispatch v.handled.session.request = some .status →
        ∃ rep shown, v.reply? = some rep ∧
          rep.body = StatusRequestHandler.displayContent st'.numRequests (rows shown)
            (StatusRequestHandler.requestHandlerInfo st') ∧
          shown.Perm (visits.filterMap record ++ [(v.handled.session.request.uri, StatusCode.ok)]) := by
  have hcodes : ∀ uri, st.codes uri = logged uri (visits.filterMap record) := by
    refine h.invariant (I := fun visits st => ∀ uri, st.codes uri = logged uri (visits.filterMap record)) ?_ ?_
    · intro uri
      rw [Statics.codes, h0]
      rfl
    · intro visits st v st' hbefore hserves uri
      rw [hserves.codes_eq, hbefore, List.filterMap_append, logged_append]
      cases hrecord : v.record <;> simp [hrecord]
  exact ⟨hcodes, fun v st' hserves hstatus => hserves.statusPage hstatus hcodes⟩

/-- The status page is asked for twice, once during the run and once behind it. -/
theorem records_exact_status : ∃ visits st v st', Runs withStatus withStatusStatics visits st ∧
    st.codes (bytes "/a") = [StatusCode.notFound] ∧ Serves withStatus st v st' ∧
    ∃ rep shown, v.reply? = some rep ∧
      rep.body = StatusRequestHandler.displayContent st'.numRequests (rows shown)
        (StatusRequestHandler.requestHandlerInfo st') ∧
      shown.Perm [(bytes "/a", StatusCode.notFound), (bytes "/status", StatusCode.ok), (bytes "/status", StatusCode.ok)] := by
  obtain ⟨visits, st, hrun, -, -, hrecords⟩ := exists_runs_status
  obtain ⟨hcodes, hpage⟩ := records_exact withStatus withStatusStatics st visits rfl hrun
  obtain ⟨v, hserves, hdispatch, huri, -⟩ := exists_getVisit (n := 24) st (bytes "/status") .status (by decide)
    (by decide) (by decide +kernel) (by decide +kernel) (by decide +kernel) rfl
  obtain ⟨rep, shown, hreply, hbody, hshown⟩ := hpage v _ hserves hdispatch
  rw [hrecords] at hcodes hshown
  rw [huri] at hshown
  exact ⟨visits, st, v, _, hrun, hcodes _, hserves, rep, shown, hreply, hbody, hshown⟩

/-- **When the counter counts requests**: when no read is a head that is cut behind a line end. -/
theorem numRequests_eq_iff (d : RequestHandlerDispatcher) (st₀ st : Statics) (visits : List Visit)
    (h0 : st₀.numRequests = 0) (h : Runs d st₀ visits st) :
    st.numRequests = visits.length ↔ ∀ v ∈ visits, ¬ CutHead v.read := by
  have hcount : visits.length ≤ st.numRequests ∧
      (st.numRequests = visits.length ↔ ∀ v ∈ visits, ¬ CutHead v.read) := by
    refine h.invariant (I := fun visits st => visits.length ≤ st.numRequests ∧
      (st.numRequests = visits.length ↔ ∀ v ∈ visits, ¬ CutHead v.read)) ⟨Nat.zero_le _, by simp [h0]⟩ ?_
    intro visits st v st' hbefore hserves
    obtain ⟨hle, hiff⟩ := hbefore
    rw [List.length_append, List.length_singleton]
    rcases hserves.numRequests_eq with ⟨hcut, hnum⟩ | ⟨hcut, hnum⟩
    · refine ⟨by omega, iff_of_false (by omega) fun hall => ?_⟩
      exact hall v (by simp) hcut
    · refine ⟨by omega, ?_⟩
      rw [hnum, Nat.add_right_cancel_iff, hiff]
      simp [or_imp, forall_and, hcut]
  exact hcount.2

theorem numRequests_eq_iff_status : ∃ visits st, Runs withStatus withStatusStatics visits st ∧ visits.length = 3 ∧
    st.numRequests = 3 ∧ ∀ v ∈ visits, ¬ CutHead v.read := by
  obtain ⟨visits, st, hrun, hlength, hcount, -⟩ := exists_runs_status
  have hiff := numRequests_eq_iff withStatus withStatusStatics st visits rfl hrun
  exact ⟨visits, st, hrun, hlength, hcount, hiff.mp (hcount.trans hlength.symm)⟩

/-- A new session that has read a request line. -/
def lineRead : Session := (filled 0).overwrite (bytes "GET / HTTP/1.1\r\n")

/-- A read that is only a request line is counted twice. -/
theorem lineRead_counts_twice :
    ∃ v st, Runs notFoundOnly .initial [v] st ∧ v.read = bytes "GET / HTTP/1.1\r\n" ∧ st.numRequests = 2 := by
  have hread : bytes "GET / HTTP/1.1\r\n" <+: lineRead.data := prefix_overwrite _ (by decide)
  have hparse : lineRead.parseRead 16 = .ok (lineRead.parse 16) :=
    parseRead_formatted hread (by decide) (by decide)
  have hmore : (lineRead.parse 16).1 = .indeterminate := by decide +kernel
  have hfirst : lineRead.parseRead 16 = .ok (.indeterminate, (lineRead.parse 16).2) := by rw [hparse, ← hmore]
  have hfresh : lineRead.Fresh := (filled_fresh 0).overwrite _
  obtain ⟨s', hsecond, -⟩ := parseRead_again hfresh hread (by decide) hfirst
  have hpasses : Passes lineRead 16 2 .bad s' := .more hfirst (.stop hsecond (by decide))
  obtain ⟨v, hserves, hv, -, -⟩ := exists_serves notFoundOnly .initial .isolated .notFound hfresh (by decide)
    hpasses rfl rfl
  have hcut : CutHead v.read := by
    rw [hv]
    exact (parseRead_more_iff hfresh hread (by decide) hfirst).mp rfl
  refine ⟨v, _, Run.single hserves, hv, ?_⟩
  rcases hserves.numRequests_eq with ⟨-, hnum⟩ | ⟨hnot, -⟩
  · exact hnum
  · exact absurd hcut hnot

end WebServer
