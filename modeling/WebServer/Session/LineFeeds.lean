import WebServer.Session.Body

/-!
# Heads with bare line feeds

A head typed with bare line feeds, with or without its blank line, gets its carriage returns back on the path of
`handle_read` that reformats, and the line end that is appended there completes it or stands behind it
(`formatString_toLf`). So it is judged as the head with CR LF is (`handleRead_lineFeeds`).
-/

namespace WebServer

open Lib

/-! ### Lines -/

/-- A text with every CR LF replaced by a line feed. -/
def toLf (xs : Bytes) : Bytes := replaceAll xs crlf [lf]

/-- The bytes of the lines of a head. -/
def IsLineByte (c : UInt8) : Prop := ¬ IsControl c ∨ c = ht

instance (c : UInt8) : Decidable (IsLineByte c) := inferInstanceAs (Decidable (_ ∨ _))

theorem toLf_line {l : Bytes} (h : cr ∉ l) (rest : Bytes) : toLf (l ++ (crlf ++ rest)) = l ++ lf :: toLf rest := by
  unfold toLf replaceAll
  induction l with
  | nil => simp [replaceAllFrom]
  | cons c l ih =>
      have hc : (cr == c) = false := by
        rw [beq_eq_false_iff_ne]
        exact fun he => h (by simp [he])
      have htail : cr ∉ l := fun hmem => h (by simp [hmem])
      rw [List.cons_append, replaceAllFrom, List.isPrefixOf, hc, Bool.false_and, ih htail]
      rfl

theorem toLf_withEnds {lines : List Bytes} (h : ∀ l ∈ lines, cr ∉ l) :
    toLf (withEnds crlf lines) = withEnds [lf] lines := by
  induction lines with
  | nil => rfl
  | cons l lines ih =>
      have htail : ∀ l' ∈ lines, cr ∉ l' := fun l' hl' => h l' (by simp [hl'])
      rw [withEnds_cons, toLf_line (h l (by simp)), ih htail]
      simp

/-! ### A head as lines -/

namespace HeaderLine

/-- A header line without its line end. -/
def text : HeaderLine → Bytes
  | .field name value => name ++ ch ':' :: sp :: value
  | .continuation blank value => blank ++ value

theorem render_eq_text (l : HeaderLine) : l.render = l.text ++ crlf := by
  cases l <;> simp [render, text]

theorem isLineByte_of_ok {l : HeaderLine} (h : l.Ok) : ∀ c ∈ l.text, IsLineByte c := by
  intro c hc
  cases l with
  | field name value =>
      obtain ⟨-, hname, hvalue⟩ := h
      simp only [text, List.mem_append, List.mem_cons] at hc
      rcases hc with hc | rfl | rfl | hc
      · exact Or.inl (hname c hc).2.1
      · decide
      · decide
      · exact Or.inl (hvalue c hc)
  | continuation blank value =>
      obtain ⟨-, hblank, hvalue, -⟩ := h
      rcases List.mem_append.mp hc with hc | hc
      · rcases hblank c hc with rfl | rfl <;> decide
      · exact Or.inl (hvalue c hc)

end HeaderLine

theorem not_isControl_of_isDigitByte {c : UInt8} (h : IsDigitByte c) : ¬ IsControl c := by
  have h0 : (ch '0').toNat = 48 := by decide
  have h9 : (ch '9').toNat = 57 := by decide
  simp only [IsDigitByte, IsControl, UInt8.le_iff_toNat_le, ← UInt8.toNat_inj, h0, h9] at h ⊢
  simp
  omega

namespace RequestHead

/-- The lines of a head, without the blank one. -/
def textLines (h : RequestHead) : List Bytes :=
  (h.method ++ sp :: (h.uri ++ sp :: (bytes "HTTP/" ++ (h.major ++ ch '.' :: h.minor)))) ::
    h.lines.map HeaderLine.text

theorem render_eq_withEnds (h : RequestHead) : h.render = withEnds crlf (h.textLines ++ [[]]) := by
  have hlines : h.lines.flatMap HeaderLine.render = withEnds crlf (h.lines.map HeaderLine.text) := by
    rw [withEnds, List.flatMap_map]
    exact congrArg (List.flatMap · h.lines) (funext HeaderLine.render_eq_text)
  rw [render, renderVersion, renderLines, hlines, textLines]
  simp

theorem isLineByte_textLines (h : RequestHead) : ∀ l ∈ h.textLines, ∀ c ∈ l, IsLineByte c := by
  intro l hl c hc
  rcases List.mem_cons.mp hl with rfl | hl
  · have hhttp : c ∈ bytes "HTTP/" → IsLineByte c := by
      have hall : (bytes "HTTP/").all fun d => decide (IsLineByte d) := by decide
      intro hmem
      simpa using List.all_eq_true.mp hall c hmem
    simp only [List.mem_append, List.mem_cons] at hc
    rcases hc with hc | rfl | hc | rfl | hc | hc | rfl | hc
    · exact Or.inl (h.method_ok c hc).2.1
    · decide
    · exact Or.inl (h.uri_ok c hc).1
    · decide
    · exact hhttp hc
    · exact Or.inl (not_isControl_of_isDigitByte (h.major_ok c hc))
    · decide
    · exact Or.inl (not_isControl_of_isDigitByte (h.minor_ok c hc))
  · obtain ⟨line, hline, rfl⟩ := List.mem_map.mp hl
    exact HeaderLine.isLineByte_of_ok (h.lines_ok.ok line hline) c hc

end RequestHead

namespace Session

variable {s : Session}

/-! ### The reformatted head -/

theorem toCrlf_withEnds {lines : List Bytes} (h : ∀ l ∈ lines, lf ∉ l) :
    toCrlf (withEnds [lf] lines) = withEnds crlf lines := by
  induction lines with
  | nil => rfl
  | cons l lines ih =>
      have htail : ∀ l' ∈ lines, lf ∉ l' := fun l' hl' => h l' (by simp [hl'])
      have hlf : toCrlf [lf] = crlf := by simp [toCrlf]
      rw [withEnds_cons, toCrlf_append, toCrlf_append, toCrlf_of_notMem (h l (by simp)), hlf, ih htail,
        withEnds_cons]

/-- Nothing is cut from a text that ends in a line feed. -/
theorem formatString_of_lf (x : Bytes) : formatString (x ++ [lf]) = toCrlf (x ++ [lf]) ++ crlf := by
  obtain ⟨y, rest, happ, hrest, -, hformat⟩ := formatString_eq (x := x ++ [lf]) (by simp)
  rcases List.eq_nil_or_concat' rest with rfl | ⟨rest, c, rfl⟩
  · rw [hformat, happ, List.append_nil]
  · rw [← List.append_assoc] at happ
    obtain ⟨-, hc⟩ := List.append_inj' happ rfl
    obtain rfl : lf = c := List.singleton_inj.mp hc
    exact absurd (by simp) hrest

/-- The lines of a head, with bare line feeds, are reformatted to the lines with CR LF and one more line end. -/
theorem formatString_toLf {lines : List Bytes} (hne : lines ≠ []) (h : ∀ l ∈ lines, ∀ c ∈ l, IsLineByte c) :
    formatString (toLf (withEnds crlf lines)) = withEnds crlf lines ++ crlf := by
  have hcr : ∀ l ∈ lines, cr ∉ l := fun l hl hmem => absurd (h l hl cr hmem) (by decide)
  have hlf : ∀ l ∈ lines, lf ∉ l := fun l hl hmem => absurd (h l hl lf hmem) (by decide)
  obtain ⟨front, last, rfl⟩ := (List.eq_nil_or_concat' lines).resolve_left hne
  have hend : withEnds [lf] (front ++ [last]) = withEnds [lf] front ++ last ++ [lf] := by simp
  rw [toLf_withEnds hcr, hend, formatString_of_lf, ← hend, toCrlf_withEnds hlf]

/-- A head, with or without its blank line, as lines. -/
theorem lines_of_head (h : RequestHead) {H : Bytes} (hH : H = h.render ∨ H ++ crlf = h.render) :
    ∃ lines, H = withEnds crlf lines ∧ (∀ l ∈ lines, ∀ c ∈ l, IsLineByte c) ∧ h.render <+: H ++ crlf ∧
      2 ≤ (withEnds [lf] lines).length := by
  have hlong : ∀ more, 2 ≤ (withEnds [lf] (h.textLines ++ more)).length := by
    intro more
    simp only [RequestHead.textLines, List.cons_append, withEnds_cons, List.length_append, List.length_cons,
      List.length_nil]
    omega
  rcases hH with rfl | hH
  · refine ⟨h.textLines ++ [[]], h.render_eq_withEnds, ?_, List.prefix_append _ _, hlong _⟩
    intro l hl
    rcases List.mem_append.mp hl with hl | hl
    · exact h.isLineByte_textLines l hl
    · simp [List.mem_singleton.mp hl]
  · have hrender : h.render = withEnds crlf h.textLines ++ crlf := by
      rw [h.render_eq_withEnds]
      simp
    refine ⟨h.textLines, ?_, h.isLineByte_textLines, by rw [hH], by simpa using hlong []⟩
    exact List.append_cancel_right (hH.trans hrender)

/-! ### The whole read -/

/-- **Bare line feeds do as well as CR LF.** A new session that reads a head, with or without its blank line, with
every CR LF replaced by a line feed, judges it good and fills the fields that the head with CR LF fills. -/
theorem handleRead_lineFeeds (hfresh : s.Fresh) {w H : Bytes} (hw : w ∈ requestLanguage)
    (hH : H = w ∨ H ++ crlf = w) (hread : toLf H <+: s.data) (hfits : Fits (toLf H)) (after : Bytes) :
    ∃ s', s.parseRead (toLf H).length = .ok (.good, s') ∧
      SameHead s'.request (RequestParser.new.parse s.request (w ++ after) w.length).request ∧
      ∀ (dispatch : Dispatch) (depth : Nat) (st : Statics),
        handleRead dispatch (depth + 1) s false (toLf H).length st =
          (answerGood dispatch s' { st with numRequests := st.numRequests + 1 }).map fun handled =>
            { handled with events := .parsed .good :: handled.events } := by
  obtain ⟨h, rfl⟩ := hw
  obtain ⟨lines, hlines, hbytes, hpre, h2⟩ := lines_of_head h hH
  have hcr : ∀ l ∈ lines, cr ∉ l := fun l hl hmem => absurd (hbytes l hl cr hmem) (by decide)
  have hlf : toLf H = withEnds [lf] lines := by rw [hlines, toLf_withEnds hcr]
  have hne : lines ≠ [] := by
    rintro rfl
    simp at h2
  have hformat : formatString (toLf H) = H ++ crlf := by rw [hlines, formatString_toLf hne hbytes]
  have hend : ¬ crlf <:+ toLf H := by
    intro hsuffix
    have hmem : cr ∈ toLf H := hsuffix.subset (by simp)
    rw [hlf] at hmem
    exact notMem_withEnds (by decide) hcr hmem
  have hnul : 0 ∉ H ++ crlf := by
    intro hmem
    rcases List.mem_append.mp hmem with hmem | hmem
    · rw [hlines] at hmem
      exact notMem_withEnds (by decide) (fun l hl hzero => absurd (hbytes l hl 0 hzero) (by decide)) hmem
    · exact absurd hmem (by decide)
  have hown : ownText (toLf H) = some (H ++ crlf) := by
    refine ownText_eq_some.mpr ⟨by rwa [hlf], Or.inr ⟨hend, hfits, ?_⟩⟩
    rw [hformat, cString_of_notMem hnul]
  obtain ⟨s', hparse, hrequest⟩ := parseRead_ownText hread hfresh.state_eq hfresh.headers_isEmpty hown
  have hpreNul : h.render <+: H ++ crlf ++ [0] := hpre.trans (List.prefix_append _ _)
  have hout := RequestParser.parse_of_head h hpreNul s.requestParser hfresh.state_eq s.request []
  rw [List.append_nil, List.length_append, List.length_singleton] at hout
  have hwhole := RequestParser.parse_of_head h List.prefix_rfl RequestParser.new rfl s.request after
  rw [hout] at hparse hrequest
  refine ⟨s', hparse, ?_, fun dispatch depth st => ?_⟩
  · rw [hrequest, hwhole]
    refine ⟨?_, rfl, rfl, rfl, rfl⟩
    show (RequestParser.methodOf (H ++ crlf ++ [0])).getD _ = (RequestParser.methodOf (h.render ++ after)).getD _
    rw [methodOf_of_head h hpreNul, methodOf_of_head h (List.prefix_append _ _)]
  · rw [handleRead_of_stop dispatch depth st hparse ResultType.noConfusion, answer, if_pos rfl]

/-- A request line with a bare line feed and nothing behind it. -/
theorem handleRead_lineFeeds_requestLine :
    ∃ s', ((filled 0).overwrite (bytes "GET / HTTP/1.0\n")).parseRead
        (toLf (bytes "GET / HTTP/1.0\r\n")).length = .ok (.good, s') ∧
      SameHead s'.request (RequestParser.new.parse ((filled 0).overwrite (bytes "GET / HTTP/1.0\n")).request
        (bytes "GET / HTTP/1.0\r\n\r\n" ++ []) (bytes "GET / HTTP/1.0\r\n\r\n").length).request ∧
      ∀ (dispatch : Dispatch) (depth : Nat) (st : Statics),
        handleRead dispatch (depth + 1) ((filled 0).overwrite (bytes "GET / HTTP/1.0\n")) false
            (toLf (bytes "GET / HTTP/1.0\r\n")).length st =
          (answerGood dispatch s' { st with numRequests := st.numRequests + 1 }).map fun handled =>
            { handled with events := .parsed .good :: handled.events } :=
  handleRead_lineFeeds ((filled_fresh 0).overwrite _)
    (RequestParser.exists_head_of_parse (show RequestParser.new.state = .methodStart from rfl)
      (show (Request.fresh .getReq 0 0).headers.isEmpty = true from rfl) (by decide) (by decide))
    (Or.inr rfl) (prefix_overwrite _ (by decide)) (by decide) []

end Session

end WebServer
