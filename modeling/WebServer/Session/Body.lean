import WebServer.Session.HandleRead

/-!
# A head with a body behind it

A read that is a head and a body is judged by the head if the body is empty or ends in a line end. Any other
body sends the read down the path that replaces its line feeds; the head's own line ends then have two
carriage returns, and the parser rejects it in the request line (`run_requestLine_cr`).
-/

namespace WebServer

open Lib

namespace RequestHead

/-- The request line up to its line feed. -/
def requestLine (h : RequestHead) : Bytes :=
  h.method ++ sp :: (h.uri ++ sp :: (bytes "HTTP/" ++ (h.major ++ ch '.' :: (h.minor ++ [cr]))))

theorem render_eq (h : RequestHead) : h.render = h.requestLine ++ lf :: renderLines h.lines := by
  simp [render, renderVersion, requestLine]

theorem lf_notMem_requestLine (h : RequestHead) : lf ∉ h.requestLine := by
  have hmethod : lf ∉ h.method := fun hmem => absurd (h.method_ok lf hmem) (by decide)
  have huri : lf ∉ h.uri := fun hmem => absurd (h.uri_ok lf hmem) (by decide)
  have hmajor : lf ∉ h.major := fun hmem => absurd (h.major_ok lf hmem) (by decide)
  have hminor : lf ∉ h.minor := fun hmem => absurd (h.minor_ok lf hmem) (by decide)
  have hhttp : lf ∉ bytes "HTTP/" := by decide
  have hsp : lf ≠ sp := by decide
  have hdot : lf ≠ ch '.' := by decide
  have hcr : lf ≠ cr := by decide
  simp [requestLine, hmethod, huri, hmajor, hminor, hhttp, hsp, hdot, hcr]

theorem three_le_length_render (h : RequestHead) : 3 ≤ h.render.length := by
  rw [render_eq]
  simp only [requestLine, renderLines, List.length_append, List.length_cons]
  omega

theorem crlf_suffix_render (h : RequestHead) : crlf <:+ h.render := by
  rw [render_eq, renderLines]
  exact ⟨h.requestLine ++ lf :: h.lines.flatMap HeaderLine.render, by simp⟩

end RequestHead

namespace RequestParser

variable {p : RequestParser} {req : Request}

/-- Where the parser takes a line feed, it takes nothing else. -/
theorem step_cr_of_step_lf {s s' : RequestParser × Request} (h : machine.step s lf = (.more, s')) :
    machine.step s cr = (.reject, s) := by
  have hconsume := machine_step h
  obtain ⟨⟨state, key, value⟩, req⟩ := s
  cases state
  case expectingNewline1 => simp +decide [machine, consume, ResultType.verdict]
  case expectingNewline2 => simp +decide [machine, consume, ResultType.verdict]
  all_goals simp +decide [consume, expect, ResultType.ofVerdict] at hconsume

/-- What the parser reads wanting more holds no NUL. -/
theorem zero_notMem_of_advance {s s' : RequestParser × Request} {xs : Bytes}
    (h : machine.advance s xs = some s') : 0 ∉ xs := by
  intro hmem
  obtain ⟨u, v, rfl⟩ := List.append_of_mem hmem
  refine run_append_nul_ne_more s u v ?_
  rw [Recognizer.run_of_advance h]

/-- Behind a request line the parser takes no second carriage return. -/
theorem advance_requestLine_reject (hstate : p.state = .methodStart) (req : Request) (h : RequestHead) :
    ∃ s', machine.advance (p, req) h.requestLine = some s' ∧ machine.step s' cr = (.reject, s') := by
  obtain ⟨state, key, value⟩ := p
  obtain rfl : state = .methodStart := hstate
  have hline : machine.advance (⟨.methodStart, key, value⟩, req) _ = some _ := advance_requestLine h
  have hsplit : h.method ++ sp :: (h.uri ++ sp :: h.renderVersion) = h.requestLine ++ [lf] := by
    simp [RequestHead.renderVersion, RequestHead.requestLine]
  rw [hsplit] at hline
  obtain ⟨s', hadvance, hlf⟩ := Recognizer.advance_append.mp hline
  obtain ⟨s₂, hstep, -⟩ := Recognizer.advance_cons.mp hlf
  exact ⟨s', hadvance, step_cr_of_step_lf hstep⟩

theorem zero_notMem_requestLine (h : RequestHead) : 0 ∉ h.requestLine := by
  obtain ⟨s', hadvance, -⟩ := advance_requestLine_reject (p := new) rfl (Request.fresh .getReq 0 0) h
  exact zero_notMem_of_advance hadvance

theorem run_requestLine_cr (hstate : p.state = .methodStart) (req : Request) (h : RequestHead) (rest : Bytes) :
    (machine.run (p, req) (h.requestLine ++ cr :: rest)).verdict = .reject := by
  obtain ⟨s', hadvance, hstop⟩ := advance_requestLine_reject hstate req h
  rw [Recognizer.run_append hadvance, Recognizer.run_cons_stop hstop (by simp)]

/-- What a new parser accepts to the end is a head. -/
theorem exists_head_of_parse (hstate : p.state = .methodStart) (hheaders : req.headers.isEmpty = true)
    {xs : Bytes} (hgood : (p.parse req xs xs.length).result = .good)
    (hpos : (p.parse req xs xs.length).pos = xs.length) : ∃ h : RequestHead, h.render = xs := by
  rw [parse_eq_run, List.take_length] at hgood hpos
  obtain ⟨w, hpre, hw⟩ := (machine_residual.accept_iff _ _).mp (ofVerdict_eq_good.mp hgood)
  have hread := machine_residual.read_eq _ hpre hw
  obtain rfl := hpre.eq_of_length (hread.symm.trans hpos)
  have hlang : w ∈ tail .methodStart false := by
    have htail := hw
    rw [residual, hstate] at htail
    simpa [parseMethod, hheaders] using htail
  exact mem_tail_methodStart.mp hlang

end RequestParser

namespace Session

variable {s : Session} {H b : Bytes}

/-- The fields that the head of a request fills. -/
def SameHead (r r' : Request) : Prop :=
  r.method = r'.method ∧ r.uri = r'.uri ∧ r.httpVersionMajor = r'.httpVersionMajor ∧
    r.httpVersionMinor = r'.httpVersionMinor ∧ r.headers = r'.headers

theorem SameHead.symm {r r' : Request} (h : SameHead r r') : SameHead r' r :=
  ⟨h.1.symm, h.2.1.symm, h.2.2.1.symm, h.2.2.2.1.symm, h.2.2.2.2.symm⟩

theorem SameHead.trans {r r' r'' : Request} (h : SameHead r r') (h' : SameHead r' r'') : SameHead r r'' :=
  ⟨h.1.trans h'.1, h.2.1.trans h'.2.1, h.2.2.1.trans h'.2.2.1, h.2.2.2.1.trans h'.2.2.2.1,
    h.2.2.2.2.trans h'.2.2.2.2⟩

/-- The read of a head and a body is judged good, as that of the head is, and fills the same fields. -/
def KeepsHead (s : Session) (H b : Bytes) : Prop :=
  ∃ sH s', (s.overwrite H).parseRead H.length = .ok (.good, sH) ∧
    (s.overwrite (H ++ b)).parseRead (H ++ b).length = .ok (.good, s') ∧ SameHead s'.request sH.request

/-! ### A body that is empty or ends in a line end -/

/-- The method is that of the head alone. -/
theorem methodOf_of_head (h : RequestHead) {mem : Bytes} (hpre : h.render <+: mem) :
    RequestParser.methodOf mem = RequestParser.methodOf h.render := by
  obtain ⟨rest, rfl⟩ := hpre
  rw [RequestParser.methodOf, RequestParser.methodOf, List.take_append_of_le_length h.three_le_length_render]

/-- A formatted read that starts with a head. -/
theorem parseRead_head (hfresh : s.Fresh) (h : RequestHead) {x : Bytes} (hpre : h.render <+: x)
    (hlen : x.length ≤ maxLength) (hend : crlf <:+ x) :
    ∃ s', (s.overwrite x).parseRead x.length = .ok (.good, s') ∧
      SameHead s'.request (h.store (RequestParser.parseMethod s.request h.render)) := by
  have hread := prefix_overwrite s hlen
  have h2 : 2 ≤ x.length := by
    have h3 := h.three_le_length_render
    have := hpre.length_le
    omega
  obtain ⟨after, hmemory⟩ := memory_of_read hread
  have hout := RequestParser.parse_of_head h hpre s.requestParser hfresh.state_eq s.request after
  rw [← hmemory] at hout
  have hgood : ((s.overwrite x).parse x.length).1 = .good := congrArg ParseOutcome.result hout
  have hrequest : ((s.overwrite x).parse x.length).2.request = _ := congrArg ParseOutcome.request hout
  refine ⟨((s.overwrite x).parse x.length).2, ?_, ?_⟩
  · rw [parseRead_formatted hread h2 hend, ← hgood]
  · have hmethod := methodOf_of_head h (hpre.trans ⟨after, rfl⟩ : h.render <+: x ++ after)
    rw [hrequest, hmemory]
    refine ⟨?_, rfl, rfl, rfl, rfl⟩
    show (RequestParser.methodOf (x ++ after)).getD _ = (RequestParser.methodOf h.render).getD _
    rw [hmethod]

/-! ### Any other body -/

theorem crlf_suffix_append_iff (h : RequestHead) (hne : b ≠ []) : crlf <:+ h.render ++ b ↔ crlf <:+ b := by
  constructor
  · intro hend
    rcases b with _ | ⟨c, _ | ⟨d, b⟩⟩
    · exact absurd rfl hne
    · -- one byte behind the line feed of the head
      obtain ⟨front, hfront⟩ := h.crlf_suffix_render
      have hlast : [lf, c] <:+ h.render ++ [c] := ⟨front ++ [cr], by simp [← hfront]⟩
      have hsuffix := List.suffix_of_suffix_length_le hend hlast le_rfl
      have heq := hsuffix.eq_of_length rfl
      simp +decide at heq
    · exact List.suffix_of_suffix_length_le hend (List.suffix_append _ _) (by simp)
  · exact fun hend => hend.trans (List.suffix_append _ _)

/-- The reformatted text of a head and a body starts with the request line and a second carriage return. -/
theorem formatString_head (h : RequestHead) (b : Bytes) :
    ∃ rest, formatString (h.render ++ b) = h.requestLine ++ cr :: rest := by
  obtain ⟨y, dropped, happ, hdropped, -, hformat⟩ := formatString_eq (x := h.render ++ b) (by simp [h.render_eq])
  rw [hformat]
  -- what was dropped has no line feed, so it starts behind the request line
  obtain ⟨rest, rfl⟩ : ∃ rest, y = h.requestLine ++ lf :: rest := by
    rw [h.render_eq, List.append_assoc, List.cons_append] at happ
    rcases List.append_eq_append_iff.mp happ with ⟨mid, rfl, hmid⟩ | ⟨mid, -, hmid⟩
    · rcases mid with _ | ⟨c, mid⟩
      · rw [List.nil_append] at hmid
        exact (hdropped (by simp [← hmid])).elim
      · obtain ⟨rfl, -⟩ := List.cons_eq_cons.mp hmid
        exact ⟨mid, rfl⟩
    · exact (hdropped (by simp [hmid])).elim
  refine ⟨lf :: toCrlf rest ++ crlf, ?_⟩
  have hlf : toCrlf (lf :: rest) = cr :: lf :: toCrlf rest := by simp [toCrlf]
  rw [toCrlf_append, toCrlf_of_notMem h.lf_notMem_requestLine, hlf]
  simp

/-- A read of a head and a body that does not end in a line end is rejected. -/
theorem parseRead_head_reformatted (hfresh : s.Fresh) (h : RequestHead) (hne : b ≠ []) (hend : ¬ crlf <:+ b)
    (hlen : (h.render ++ b).length ≤ maxLength) (hfits : Fits (h.render ++ b)) :
    ∃ s', (s.overwrite (h.render ++ b)).parseRead (h.render ++ b).length = .ok (.bad, s') := by
  obtain ⟨rest, htext⟩ := formatString_head h b
  have hcut : cString (formatString (h.render ++ b)) = h.requestLine ++ cr :: cString rest := by
    rw [htext, cString_append (RequestParser.zero_notMem_requestLine h)]
    simp +decide [cString]
  have h2 : 2 ≤ (h.render ++ b).length := by
    have h3 := h.three_le_length_render
    rw [List.length_append]
    omega
  have hown : ownText (h.render ++ b) = some (h.requestLine ++ cr :: cString rest) :=
    ownText_eq_some.mpr ⟨h2, Or.inr ⟨fun hsuffix => hend ((crlf_suffix_append_iff h hne).mp hsuffix), hfits, hcut.symm⟩⟩
  have hfresh' := hfresh.overwrite (h.render ++ b)
  obtain ⟨s', hparse, -⟩ :=
    parseRead_ownText (prefix_overwrite s hlen) hfresh'.state_eq hfresh'.headers_isEmpty hown
  have hbad : (RequestParser.parse s.requestParser s.request ((h.requestLine ++ cr :: cString rest) ++ [0])
      ((h.requestLine ++ cr :: cString rest).length + 1)).result = .bad := by
    rw [RequestParser.parse_eq_run, List.take_of_length_le (by simp; omega), RequestParser.ofVerdict_eq_bad,
      List.append_assoc, List.cons_append]
    exact RequestParser.run_requestLine_cr hfresh.state_eq _ h _
  rw [show (s.overwrite (h.render ++ b)).requestParser = s.requestParser from rfl,
    show (s.overwrite (h.render ++ b)).request = s.request from rfl, hbad] at hparse
  exact ⟨s', hparse⟩

/-- Any other body has the read rejected. -/
theorem not_keepsHead (hfresh : s.Fresh) (h : RequestHead) (hne : b ≠ []) (hend : ¬ crlf <:+ b)
    (hlen : (h.render ++ b).length ≤ maxLength) (hfits : Fits (h.render ++ b)) : ¬ s.KeepsHead h.render b := by
  rintro ⟨-, s', -, hgood, -⟩
  obtain ⟨s'', hbad⟩ := parseRead_head_reformatted hfresh h hne hend hlen hfits
  rw [hbad] at hgood
  cases hgood

/-- **A body changes how its head is judged** unless it is empty or ends in a line end. -/
theorem keepsHead_iff (hfresh : s.Fresh) (hgood : (s.requestParser.parse s.request H H.length).result = .good)
    (hpos : (s.requestParser.parse s.request H H.length).pos = H.length)
    (hlen : (H ++ b).length ≤ maxLength) (hfits : Fits (H ++ b)) : s.KeepsHead H b ↔ b = [] ∨ crlf <:+ b := by
  obtain ⟨h, rfl⟩ := RequestParser.exists_head_of_parse hfresh.state_eq hfresh.headers_isEmpty hgood hpos
  constructor
  · intro hkeeps
    by_contra hnot
    obtain ⟨hne, hend⟩ := not_or.mp hnot
    exact not_keepsHead hfresh h hne hend hlen hfits hkeeps
  · intro hbody
    have hend : crlf <:+ h.render ++ b := by
      rcases hbody with rfl | hsuffix
      · rw [List.append_nil]
        exact h.crlf_suffix_render
      · exact hsuffix.trans (List.suffix_append _ _)
    have hlenH : h.render.length ≤ maxLength := by
      rw [List.length_append] at hlen
      omega
    obtain ⟨sH, hparseH, hsameH⟩ := parseRead_head hfresh h List.prefix_rfl hlenH h.crlf_suffix_render
    obtain ⟨s', hparse, hsame⟩ := parseRead_head hfresh h (List.prefix_append _ _) hlen hend
    exact ⟨sH, s', hparseH, hparse, hsame.trans hsameH.symm⟩

/-- A `POST` request with a body of one byte. -/
def postHead : Bytes := bytes "POST /echo HTTP/1.1\r\nContent-Length: 1\r\n\r\n"

theorem postHead_accepted :
    (RequestParser.new.parse (Request.fresh .getReq 0 0) postHead postHead.length).result = .good ∧
      (RequestParser.new.parse (Request.fresh .getReq 0 0) postHead postHead.length).pos = postHead.length := by
  decide

theorem keepsHead_postHead : (filled 0).KeepsHead postHead crlf ↔ crlf = [] ∨ crlf <:+ crlf :=
  keepsHead_iff (filled_fresh 0) postHead_accepted.1 postHead_accepted.2 (by decide) (by decide)

theorem post_not_keepsHead :
    (RequestParser.new.parse (Request.fresh .getReq 0 0) postHead postHead.length).result = .good ∧
      (RequestParser.new.parse (Request.fresh .getReq 0 0) postHead postHead.length).pos = postHead.length ∧
      0 ∉ bytes "a" ∧ (postHead ++ bytes "a").length ≤ maxLength ∧ Fits (postHead ++ bytes "a") ∧
      ¬ (filled 0).KeepsHead postHead (bytes "a") := by
  obtain ⟨hgood, hpos⟩ := postHead_accepted
  have hlen : (postHead ++ bytes "a").length ≤ maxLength := by decide
  have hfits : Fits (postHead ++ bytes "a") := by decide
  refine ⟨hgood, hpos, by decide, hlen, hfits, ?_⟩
  obtain ⟨h, hrender⟩ := RequestParser.exists_head_of_parse (p := RequestParser.new) rfl rfl hgood hpos
  rw [← hrender] at hlen hfits ⊢
  exact not_keepsHead (filled_fresh 0) h (by decide) (by decide) hlen hfits

end Session

end WebServer
