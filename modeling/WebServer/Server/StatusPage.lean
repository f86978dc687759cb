import WebServer.Lib.Pieces
import WebServer.Server.Records

/-!
# What the status page tells

The URIs are put into the page as they are, so a URI can hold the end of a row and the begin of another one
(`Confusable`). Then one record looks like two. Records without such URIs can be read back from the page
(`statusPage_faithful`): their rows are cut one by one, since the end of a URI is found in one place.
-/

namespace WebServer

open Lib Session Visit RequestHandlerDispatcher

namespace StatusRequestHandler

/-- What stands between the URIs of two rows. -/
def boundary (code : StatusCode) : Bytes :=
  bytes "</td><td>" ++ (decimal code ++ (bytes "</td></tr>" ++ bytes "<tr><td>"))

/-- The URI shows as more than one row. -/
def Confusable (uri : Bytes) : Prop := ∃ code, boundary code <:+: uri

theorem not_confusable_of_notMem {uri : Bytes} (h : ch '<' ∉ uri) : ¬ Confusable uri := by
  rintro ⟨code, hwithin⟩
  have hmem : ch '<' ∈ bytes "</td><td>" := by decide
  exact h (hwithin.subset (List.mem_append_left _ hmem))

variable {u rest : Bytes} {code : StatusCode}

theorem lt_notMem_decimal (code : StatusCode) : ch '<' ∉ decimal code :=
  fun hmem => absurd (decimal_digits code _ hmem).2 (by decide)

theorem row_ne_nil (left right : Bytes) : row left right ≠ [] := by
  simp [row, bytes]

theorem row_eq (u : Bytes) (code : StatusCode) (rest : Bytes) :
    row u (decimal code) ++ rest =
      bytes "<tr><td>" ++ (u ++ (bytes "</td><td>" ++ (decimal code ++ (bytes "</td></tr>" ++ rest)))) := by
  simp [row]

/-- Rows are no text, or begin with the tags of a row. -/
theorem rows_cases (log : List (Bytes × StatusCode)) : rows log = [] ∨ ∃ rest, rows log = bytes "<tr><td>" ++ rest := by
  rcases log with _ | ⟨⟨u, code⟩, log⟩
  · exact .inl rfl
  · exact .inr ⟨_, row_eq u code (rows log)⟩

/-- The tags between the two columns are not found again in front of the URI of the next row. -/
theorem boundary_isPrefix {w more : Bytes} (hrest : rest = [] ∨ ∃ rest', rest = bytes "<tr><td>" ++ rest')
    (hne : w ≠ []) (h : w ++ (bytes "</td><td>" ++ more) = bytes "</td><td>" ++ (decimal code ++ (bytes "</td></tr>" ++ rest))) :
    boundary code <+: w := by
  have hnumber : ch '<' ∉ bytes "td>" ++ decimal code := by
    have htag : ch '<' ∉ bytes "td>" := by decide
    simp [htag, lt_notMem_decimal]
  -- the tags one by one, the first one without its bracket
  obtain ⟨d, w, rfl⟩ := List.exists_cons_of_ne_nil hne
  have htext : d :: (w ++ ch '<' :: (bytes "/td><td>" ++ more)) = ch '<' :: (bytes "/td>" ++
      ch '<' :: ((bytes "td>" ++ decimal code) ++ ch '<' :: (bytes "/td>" ++ ch '<' :: (bytes "/tr>" ++ rest)))) := by
    simpa [bytes] using h
  obtain ⟨rfl, hclose⟩ := List.cons.inj htext
  obtain ⟨w, rfl, hcell⟩ := Word.split_append hclose (by decide)
  obtain ⟨w, rfl, hend⟩ := Word.split_block hcell hnumber (by simp +decide [bytes])
  obtain ⟨w, rfl, hrowEnd⟩ := Word.split_block hend (by decide) (by simp +decide [bytes])
  obtain ⟨w, rfl, hnext⟩ := Word.split_block hrowEnd (by decide) (by simp +decide [bytes])
  rcases hrest with rfl | ⟨rest, rfl⟩
  · simp at hnext
  · have hrow : w ++ ch '<' :: (bytes "/td><td>" ++ more) =
        ch '<' :: (bytes "tr>" ++ ch '<' :: (bytes "td>" ++ rest)) := hnext
    obtain ⟨w, rfl, hfirst⟩ := Word.split_block hrow (by decide) (by simp +decide [bytes])
    obtain ⟨w, rfl, -⟩ := Word.split_block hfirst (by decide) (by simp +decide [bytes])
    refine ⟨w, ?_⟩
    simp [boundary, bytes]

/-- A URI without a boundary does not go on behind the end of another one. -/
theorem eq_nil_of_not_confusable {w more : Bytes} (hplain : ¬ Confusable (u ++ w))
    (hrest : rest = [] ∨ ∃ rest', rest = bytes "<tr><td>" ++ rest')
    (h : w ++ (bytes "</td><td>" ++ more) = bytes "</td><td>" ++ (decimal code ++ (bytes "</td></tr>" ++ rest))) : w = [] := by
  by_contra hne
  obtain ⟨after, hafter⟩ := boundary_isPrefix hrest hne h
  exact hplain ⟨code, u, after, by rw [← hafter, List.append_assoc]⟩

/-- The first row can be read back. -/
theorem row_cancel {log log' : List (Bytes × StatusCode)} {r r' : Bytes × StatusCode} (hr : ¬ Confusable r.1)
    (hr' : ¬ Confusable r'.1) (h : row r.1 (decimal r.2) ++ rows log = row r'.1 (decimal r'.2) ++ rows log') : r = r' := by
  rw [row_eq, row_eq] at h
  have huri : r.1 = r'.1 := by
    rcases List.append_eq_append_iff.mp (List.append_cancel_left h) with ⟨w, hw, htext⟩ | ⟨w, hw, htext⟩
    · rw [hw] at hr'
      rw [hw, eq_nil_of_not_confusable hr' (rows_cases log) htext.symm, List.append_nil]
    · rw [hw] at hr
      rw [hw, eq_nil_of_not_confusable hr (rows_cases log') htext.symm, List.append_nil]
  rw [huri] at h
  have hcode := List.append_cancel_left (List.append_cancel_left (List.append_cancel_left h))
  obtain ⟨hdigits, -⟩ := Word.append_cons_inj (c := ch '<') hcode (lt_notMem_decimal r.2) (lt_notMem_decimal r'.2)
  exact Prod.ext huri (decimal_injective hdigits)

/-- Rows of records without confusable URIs can be read back. -/
theorem rows_injective {log log' : List (Bytes × StatusCode)} (hlog : ∀ r ∈ log, ¬ Confusable r.1)
    (hlog' : ∀ r ∈ log', ¬ Confusable r.1) (h : rows log = rows log') : log = log' :=
  Word.flatMap_cancel (fun _ => row_ne_nil _ _) (fun _ _ _ _ hr hr' hrows => row_cancel hr hr' hrows) hlog hlog' h

theorem rows_append (log log' : List (Bytes × StatusCode)) : rows (log ++ log') = rows log ++ rows log' :=
  List.flatMap_append

/-- Every row looks like rows without confusable URIs. -/
theorem exists_rows_eq (u : Bytes) (code : StatusCode) :
    ∃ shown : List (Bytes × StatusCode), rows shown = row u (decimal code) ∧ ∀ r ∈ shown, ¬ Confusable r.1 := by
  induction hn : u.length using Nat.strong_induction_on generalizing u code with
  | _ n ih =>
      by_cases hu : Confusable u
      · obtain ⟨cut, left, right, rfl⟩ := hu
        have hlength : 0 < (boundary cut).length := by simp [boundary, bytes]
        simp only [List.length_append] at hn
        obtain ⟨shown, hshown, hplain⟩ := ih left.length (by omega) left cut rfl
        obtain ⟨shown', hshown', hplain'⟩ := ih right.length (by omega) right code rfl
        refine ⟨shown ++ shown', ?_, List.forall_mem_append.mpr ⟨hplain, hplain'⟩⟩
        rw [rows_append, hshown, hshown']
        simp [row, boundary]
      · exact ⟨[(u, code)], by simp [rows], by simpa using hu⟩

/-! ### The page -/

/-- The rows of the records can be told from the rest of the page. -/
theorem requestInfo_of_body {st st' : Statics} {req : Request} (hnum : st.numRequests = st'.numRequests)
    (huri : st.requestHandlerUri = st'.requestHandlerUri)
    (h : (handleRequest req st).1.body = (handleRequest req st').1.body) :
    requestInfo (st.recordCode req.uri StatusCode.ok) = requestInfo (st'.recordCode req.uri StatusCode.ok) := by
  have hpage : displayContent st.numRequests (requestInfo (st.recordCode req.uri StatusCode.ok)) (requestHandlerInfo st) =
      displayContent st'.numRequests (requestInfo (st'.recordCode req.uri StatusCode.ok)) (requestHandlerInfo st') := h
  have hhandlers : requestHandlerInfo st = requestHandlerInfo st' := by rw [requestHandlerInfo, huri, requestHandlerInfo]
  rw [hnum, hhandlers] at hpage
  simpa [displayContent] using hpage

/-- A page is made of the rows of the records, with its own row among them. -/
theorem exists_rows_requestInfo (req : Request) (st : Statics) : ∃ front back,
    st.requestCodeReceived.pairs = front ++ back ∧
      requestInfo (st.recordCode req.uri StatusCode.ok) = rows front ++ row req.uri (decimal StatusCode.ok) ++ rows back ∧
      (∀ r ∈ front, ¬ req.uri < r.1) ∧ ∀ r ∈ back, req.uri < r.1 := by
  obtain ⟨front, back, hpairs, hrecord, hfront, hback⟩ :=
    OrdMap.exists_pairs_push st.requestCodeReceived req.uri StatusCode.ok
  refine ⟨front, back, hpairs, ?_, hfront, hback⟩
  rw [requestInfo_eq]
  show rows (st.requestCodeReceived.insert req.uri _).pairs = _
  rw [hrecord, rows_append, List.append_assoc]
  rfl

/-- **The status page is faithful** to records without confusable URIs: pages for different records differ. -/
theorem statusPage_faithful (st st' : Statics) (hnum : st.numRequests = st'.numRequests)
    (huri : st.requestHandlerUri = st'.requestHandlerUri)
    (hplain : ∀ r ∈ st.requestCodeReceived.pairs, ¬ Confusable r.1)
    (hplain' : ∀ r ∈ st'.requestCodeReceived.pairs, ¬ Confusable r.1)
    (hne : st.requestCodeReceived.pairs ≠ st'.requestCodeReceived.pairs) (req : Request) :
    (handleRequest req st).1.body ≠ (handleRequest req st').1.body := by
  intro hbody
  obtain ⟨front, back, hpairs, hinfo, hfront, hback⟩ := exists_rows_requestInfo req st
  obtain ⟨front', back', hpairs', hinfo', hfront', hback'⟩ := exists_rows_requestInfo req st'
  obtain ⟨shown, hshown, hown⟩ := exists_rows_eq req.uri StatusCode.ok
  have hrows : rows (front ++ (shown ++ back)) = rows (front' ++ (shown ++ back')) := by
    rw [rows_append, rows_append, rows_append, rows_append, hshown, ← List.append_assoc, ← List.append_assoc, ← hinfo,
      ← hinfo']
    exact requestInfo_of_body hnum huri hbody
  rw [hpairs] at hplain hne
  rw [hpairs'] at hplain' hne
  obtain ⟨hplainFront, hplainBack⟩ := List.forall_mem_append.mp hplain
  obtain ⟨hplainFront', hplainBack'⟩ := List.forall_mem_append.mp hplain'
  have hlogs := rows_injective (by simp only [List.forall_mem_append]; exact ⟨hplainFront, hown, hplainBack⟩)
    (by simp only [List.forall_mem_append]; exact ⟨hplainFront', hown, hplainBack'⟩) hrows
  obtain ⟨rfl, rfl⟩ := Word.append_append_inj (p := fun r => ¬ req.uri < r.1) hfront
    (fun r hr => not_not.mpr (hback r hr)) hfront' (fun r hr => not_not.mpr (hback' r hr)) hlogs
  exact hne rfl

/-- A request for the status page. -/
def statusRequest : Request := { Request.fresh .getReq 1 1 with uri := bytes "/status" }

/-- Requests for two paths show otherwise than two requests for one of them. -/
theorem statusPage_faithful_paths :
    (handleRequest statusRequest (notFoundAt (bytes "/b") (notFoundAt (bytes "/a") withStatusStatics))).1.body ≠
      (handleRequest statusRequest (notFoundAt (bytes "/a") (notFoundAt (bytes "/a") withStatusStatics))).1.body := by
  have htwo : ∀ r ∈ (notFoundAt (bytes "/b") (notFoundAt (bytes "/a") withStatusStatics)).requestCodeReceived.pairs,
      ch '<' ∉ r.1 := by decide
  have hone : ∀ r ∈ (notFoundAt (bytes "/a") (notFoundAt (bytes "/a") withStatusStatics)).requestCodeReceived.pairs,
      ch '<' ∉ r.1 := by decide
  exact statusPage_faithful (notFoundAt (bytes "/b") (notFoundAt (bytes "/a") withStatusStatics))
    (notFoundAt (bytes "/a") (notFoundAt (bytes "/a") withStatusStatics)) rfl rfl
    (fun r hr => not_confusable_of_notMem (htwo r hr)) (fun r hr => not_confusable_of_notMem (hone r hr)) (by decide)
    statusRequest

/-! ### Forged rows -/

/-- A URI with a row boundary in it. -/
def forgedUri : Bytes := bytes "/a</td><td>404</td></tr><tr><td>/b"

/-- What a request for it leaves, and one that is rejected. -/
def forgedStatics : Statics :=
  Statics.recordCode { withStatusStatics with numRequests := 2 } forgedUri StatusCode.notFound

/-- What requests for two paths leave. -/
def plainStatics : Statics := notFoundAt (bytes "/b") (notFoundAt (bytes "/a") withStatusStatics)

theorem exists_runs_forged : ∃ visits, Runs withStatus withStatusStatics visits forgedStatics := by
  obtain ⟨v, hserves, -⟩ := exists_getVisit (n := 51) withStatusStatics forgedUri .notFound (by decide) (by decide)
    (by decide +kernel) (by decide +kernel) (by decide +kernel) rfl
  obtain ⟨v', hserves', -⟩ := exists_blankVisit (notFoundAt forgedUri withStatusStatics)
  exact ⟨_, (Run.single hserves).snoc hserves'⟩

theorem exists_runs_plain : ∃ visits, Runs withStatus withStatusStatics visits plainStatics := by
  obtain ⟨v, hserves, -⟩ := exists_getVisit (n := 19) withStatusStatics (bytes "/a") .notFound (by decide) (by decide)
    (by decide +kernel) (by decide +kernel) (by decide +kernel) rfl
  obtain ⟨v', hserves', -⟩ := exists_getVisit (n := 19) (notFoundAt (bytes "/a") withStatusStatics) (bytes "/b") .notFound
    (by decide) (by decide) (by decide +kernel) (by decide +kernel) (by decide +kernel) rfl
  exact ⟨_, (Run.single hserves).snoc hserves'⟩

theorem requestInfo_forged :
    requestInfo (forgedStatics.recordCode statusRequest.uri StatusCode.ok) =
      requestInfo (plainStatics.recordCode statusRequest.uri StatusCode.ok) := by
  decide +kernel

set_option maxRecDepth 2000 in
/-- One request for a URI with a boundary gives the same page as two for other paths. -/
theorem forgedUri_same_page :
    NginxConfigParser.parse statusText = (true, statusConfig) ∧
      create statusConfig .initial = .ok (withStatus, withStatusStatics) ∧
      ∃ visits visits' st st', Runs withStatus withStatusStatics visits st ∧ Runs withStatus withStatusStatics visits' st' ∧
        st.numRequests = st'.numRequests ∧ st.requestHandlerUri = st'.requestHandlerUri ∧
        st.requestCodeReceived.pairs ≠ st'.requestCodeReceived.pairs ∧
        ∃ req, withStatus.dispatch req = some .status ∧ (handleRequest req st).1 = (handleRequest req st').1 := by
  obtain ⟨visits, hvisits⟩ := exists_runs_forged
  obtain ⟨visits', hvisits'⟩ := exists_runs_plain
  refine ⟨rfl, rfl, visits, visits', forgedStatics, plainStatics, hvisits, hvisits', rfl, rfl, by decide +kernel,
    statusRequest, by decide +kernel, ?_⟩
  rw [handleRequest, requestInfo_forged]
  rfl

end StatusRequestHandler

end WebServer
