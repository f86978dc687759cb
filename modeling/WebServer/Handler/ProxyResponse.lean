import WebServer.Handler.ReverseProxyHandler

/-!
# The proxy's parser for responses

The parser undoes `to_buffers` (`parseResponse_toBuffers`). On other texts it may run past the end of what it has
received: it needs a line end, three bytes where there is no blank line, and headers that are cut without a rest
by its loops, into a stretch without carriage returns, a carriage return and one more byte
(`parseResponse_ok_iff`).
-/

namespace WebServer

open Lib

namespace ReverseProxyHandler

variable {xs : Bytes}

/-! ### One header line -/

theorem scan_key {buf : Bytes} (h : ch ':' ∉ xs) :
    xs.foldl HeaderScan.step ⟨[], buf, false, true⟩ = ⟨[], buf ++ xs, false, true⟩ := by
  induction xs generalizing buf with
  | nil => simp
  | cons c rest ih =>
      have hc : c ≠ ch ':' := fun he => h (by simp [he])
      have hrest : ch ':' ∉ rest := fun hmem => h (by simp [hmem])
      have hstep : HeaderScan.step ⟨[], buf, false, true⟩ c = ⟨[], buf ++ [c], false, true⟩ := by
        simp [HeaderScan.step, hc]
      rw [List.foldl_cons, hstep, ih hrest]
      simp

theorem scan_value (key buf xs : Bytes) :
    xs.foldl HeaderScan.step ⟨key, buf, false, false⟩ = ⟨key, buf ++ xs, false, false⟩ := by
  induction xs generalizing buf with
  | nil => simp
  | cons c rest ih =>
      have hstep : HeaderScan.step ⟨key, buf, false, false⟩ c = ⟨key, buf ++ [c], false, false⟩ := by
        simp [HeaderScan.step]
      rw [List.foldl_cons, hstep, ih]
      simp

/-- No white space at either end. -/
def Trimmed (text : Bytes) : Prop :=
  (∀ c ∈ text.head?, isSpace c = false) ∧ ∀ c ∈ text.getLast?, isSpace c = false

theorem trimmed_of_ends {text : Bytes} {c d : UInt8} (hhead : text.head? = some c) (hlast : text.getLast? = some d)
    (hc : isSpace c = false) (hd : isSpace d = false) : Trimmed text := by
  constructor
  · intro e he
    obtain rfl := Option.some.inj (hhead.symm.trans he)
    exact hc
  · intro e he
    obtain rfl := Option.some.inj (hlast.symm.trans he)
    exact hd

theorem trim_of_trimmed {text : Bytes} (h : Trimmed text) : trim text = text := by
  have hdrop : ∀ xs : Bytes, (∀ c ∈ xs.head?, isSpace c = false) → xs.dropWhile isSpace = xs := by
    intro xs hxs
    cases xs with
    | nil => rfl
    | cons c rest => simp [hxs c rfl]
  have hback := hdrop text.reverse (by simpa [List.head?_reverse] using h.2)
  rw [trim, hdrop text h.1, hback, List.reverse_reverse]

theorem trim_dropBlanks (text : Bytes) : trim (text.dropWhile (· = sp)) = trim text := by
  have hdrop : (text.dropWhile (· = sp)).dropWhile isSpace = text.dropWhile isSpace := by
    induction text with
    | nil => rfl
    | cons c rest ih =>
        by_cases hc : c = sp
        · have hspace : isSpace sp = true := rfl
          simp [hc, hspace, ih]
        · simp [hc]
  rw [trim, hdrop, trim]

/-- A header line: a name, a colon and what follows it. -/
def fieldLine (field : Bytes × Bytes) : Bytes := field.1 ++ ch ':' :: field.2

/-- The header lines whose names the proxy can read. -/
structure FieldOk (field : Bytes × Bytes) : Prop where
  name_ne : field.1 ≠ []
  name_colon : ch ':' ∉ field.1
  name_cr : cr ∉ field.1
  name_trimmed : Trimmed field.1
  value_cr : cr ∉ field.2

theorem FieldOk.cr_notMem {field : Bytes × Bytes} (h : FieldOk field) : cr ∉ fieldLine field := by
  have hcolon : cr ≠ ch ':' := by decide
  simp [fieldLine, h.name_cr, h.value_cr, hcolon]

/-- The blanks in front of a value are passed over. -/
theorem scan_blanks (key text : Bytes) :
    (text.foldl HeaderScan.step ⟨key, [], true, false⟩).headerKey = key ∧
      (text.foldl HeaderScan.step ⟨key, [], true, false⟩).tmpBuf = text.dropWhile (· = sp) := by
  induction text with
  | nil => exact ⟨rfl, rfl⟩
  | cons c rest ih =>
      by_cases hc : c = sp
      · have hstep : HeaderScan.step ⟨key, [], true, false⟩ c = ⟨key, [], true, false⟩ := by
          simp [HeaderScan.step, hc]
        rw [List.foldl_cons, hstep, List.dropWhile_cons_of_pos (by simpa using hc)]
        exact ih
      · have hstep : HeaderScan.step ⟨key, [], true, false⟩ c = ⟨key, [c], false, false⟩ := by
          simp [HeaderScan.step, hc]
        rw [List.foldl_cons, hstep, scan_value, List.dropWhile_cons_of_neg (by simpa using hc)]
        exact ⟨rfl, rfl⟩

theorem scan_fieldLine {field : Bytes × Bytes} (h : FieldOk field) :
    let scan := (fieldLine field).foldl HeaderScan.step HeaderScan.start
    scan.headerKey = field.1 ∧ scan.tmpBuf = field.2.dropWhile (· = sp) := by
  obtain ⟨name, value⟩ := field
  obtain ⟨c, name, rfl⟩ := List.exists_cons_of_ne_nil h.name_ne
  have hc : c ≠ sp := by
    rintro rfl
    exact absurd (h.name_trimmed.1 sp rfl) (by decide)
  have hcolon : ch ':' ∉ name := fun hmem => h.name_colon (by simp [hmem])
  have hfirst : HeaderScan.start.step c = ⟨[], [c], false, true⟩ := by simp [HeaderScan.step, HeaderScan.start, hc]
  have hend : HeaderScan.step ⟨[], c :: name, false, true⟩ (ch ':') = ⟨c :: name, [], true, false⟩ := by
    simp [HeaderScan.step]
  intro scan
  have hscan : scan = value.foldl HeaderScan.step ⟨c :: name, [], true, false⟩ := by
    show ((c :: name) ++ ch ':' :: value).foldl HeaderScan.step HeaderScan.start = _
    rw [List.foldl_append, List.foldl_cons (l := name), hfirst, scan_key hcolon, List.singleton_append,
      List.foldl_cons, hend]
  rw [hscan]
  exact scan_blanks (c :: name) value

/-- A header of a reply as `to_buffers` writes it. -/
def headerLine (header : Bytes × Bytes) : Bytes := header.1 ++ ch ':' :: sp :: header.2

/-- The headers that the proxy can read back. -/
structure HeaderOk (header : Bytes × Bytes) : Prop where
  name_ne : header.1 ≠ []
  name_colon : ch ':' ∉ header.1
  name_cr : cr ∉ header.1
  name_trimmed : Trimmed header.1
  value_cr : cr ∉ header.2
  value_trimmed : Trimmed header.2

theorem HeaderOk.fieldOk {header : Bytes × Bytes} (h : HeaderOk header) : FieldOk (header.1, sp :: header.2) where
  name_ne := h.name_ne
  name_colon := h.name_colon
  name_cr := h.name_cr
  name_trimmed := h.name_trimmed
  value_cr := by
    have hsp : cr ≠ sp := by decide
    simp [h.value_cr, hsp]

/-! ### All header lines -/

/-- The outer loop, with the headers that it has stored. -/
def parseHeadersFrom (headers : OrdMap Bytes Bytes) (text : Bytes) : Except Fault (OrdMap Bytes Bytes) :=
  if text = [] then .ok headers else headerLoop headers HeaderScan.start text

theorem parseHeaders_eq (text : Bytes) : parseHeaders text = parseHeadersFrom OrdMap.empty text := rfl

/-- What the inner loop makes of a line. -/
theorem headerLoop_line (headers : OrdMap Bytes Bytes) (scan : HeaderScan) (hcr : cr ∉ xs) (c : UInt8)
    (rest : Bytes) :
    headerLoop headers scan (xs ++ cr :: c :: rest) =
      parseHeadersFrom (headers.insert (trim (xs.foldl HeaderScan.step scan).headerKey)
        (trim (xs.foldl HeaderScan.step scan).tmpBuf)) rest := by
  induction xs generalizing scan with
  | nil =>
      rw [List.nil_append, headerLoop, if_pos rfl]
      rfl
  | cons d xs ih =>
      have hd : d ≠ cr := fun he => hcr (by simp [he])
      rw [List.cons_append, headerLoop, if_neg hd]
      exact ih (scan.step d) fun hmem => hcr (by simp [hmem])

theorem parseHeadersFrom_line (headers : OrdMap Bytes Bytes) {line : Bytes} (hcr : cr ∉ line) (c : UInt8)
    (rest : Bytes) :
    parseHeadersFrom headers (line ++ cr :: c :: rest) =
      parseHeadersFrom (headers.insert (trim (line.foldl HeaderScan.step HeaderScan.start).headerKey)
        (trim (line.foldl HeaderScan.step HeaderScan.start).tmpBuf)) rest := by
  have hne : line ++ cr :: c :: rest ≠ [] := by simp
  rw [parseHeadersFrom, if_neg hne, headerLoop_line headers HeaderScan.start hcr]

/-- The headers that lines are stored as: of lines with the same name the last one. -/
def storeFields (headers : OrdMap Bytes Bytes) (fields : List (Bytes × Bytes)) : OrdMap Bytes Bytes :=
  fields.foldl (fun acc field => acc.insert field.1 (trim field.2)) headers

theorem parseHeadersFrom_withEnds (headers : OrdMap Bytes Bytes) {fields : List (Bytes × Bytes)}
    (h : ∀ field ∈ fields, FieldOk field) :
    parseHeadersFrom headers (withEnds crlf (fields.map fieldLine)) = .ok (storeFields headers fields) := by
  induction fields generalizing headers with
  | nil => rfl
  | cons field fields ih =>
      have hfield := h field (by simp)
      obtain ⟨hkey, hvalue⟩ := scan_fieldLine hfield
      rw [List.map_cons, withEnds_cons]
      show parseHeadersFrom headers (fieldLine field ++ cr :: lf :: withEnds crlf (fields.map fieldLine)) = _
      rw [parseHeadersFrom_line headers hfield.cr_notMem, hkey, hvalue, trim_of_trimmed hfield.name_trimmed,
        trim_dropBlanks, ih _ fun field' hfield' => h field' (by simp [hfield'])]
      rfl

/-! ### Where the head ends -/

/-- The first blank line behind lines that are not empty. -/
theorem find?_blankLine {line : Bytes} {lines : List Bytes} (hline : cr ∉ line)
    (hlines : ∀ l ∈ lines, l ≠ [] ∧ cr ∉ l) (rest : Bytes) :
    Word.find? (crlf ++ crlf) (withEnds crlf (line :: lines) ++ (crlf ++ rest)) =
      some (line.length + (withEnds crlf lines).length) := by
  induction lines generalizing line with
  | nil =>
      have hhere : Word.find? (crlf ++ crlf) (crlf ++ (crlf ++ rest)) = some 0 :=
        Word.find?_of_isPrefix ⟨rest, by simp⟩
      have hskip := Word.find?_append (lf :: crlf) (crlf ++ (crlf ++ rest)) hline
      rw [show cr :: lf :: crlf = crlf ++ crlf from rfl, hhere] at hskip
      simpa using hskip
  | cons l lines ih =>
      obtain ⟨hne, hcr⟩ := hlines l (by simp)
      have hnext := ih hcr fun l' hl' => hlines l' (by simp [hl'])
      obtain ⟨c, l, rfl⟩ := List.exists_cons_of_ne_nil hne
      have hc : cr ≠ c := fun he => hcr (by simp [he])
      have hcrlf : ∀ more, Word.find? (crlf ++ crlf) (cr :: lf :: c :: more) =
          (Word.find? (crlf ++ crlf) (c :: more)).map (· + 2) := by
        intro more
        rw [Word.find?_cons (by simp [List.cons_prefix_cons, hc]), Word.find?_cons (by simp +decide),
          Option.map_map]
        rfl
      have hskip := Word.find?_append (lf :: crlf)
        (crlf ++ (withEnds crlf ((c :: l) :: lines) ++ (crlf ++ rest))) hline
      rw [show cr :: lf :: crlf = crlf ++ crlf from rfl] at hskip
      have htext : withEnds crlf ((c :: l) :: lines) ++ (crlf ++ rest) =
          c :: (l ++ (crlf ++ withEnds crlf lines) ++ (crlf ++ rest)) := by simp
      rw [withEnds_cons, List.append_assoc, List.append_assoc, hskip, htext]
      show Option.map _ (Word.find? (crlf ++ crlf) (cr :: lf :: c :: _)) = _
      rw [hcrlf, ← htext, hnext]
      simp
      omega

/-- The first line of a text. -/
theorem find?_lineEnd {line : Bytes} (hline : cr ∉ line) (rest : Bytes) :
    Word.find? crlf (line ++ (crlf ++ rest)) = some line.length := by
  rw [Word.find?_append _ _ hline, Word.find?_of_isPrefix (List.prefix_append _ _)]
  simp

/-- The status line of an enumerator shows its number. -/
theorem statusLine_spec : ∀ code ∈ StatusCode.enumerators, ∃ line,
    StatusStrings.toBuffer code = line ++ crlf ∧ cr ∉ line ∧ scanCode [] 0 0 line = code := by
  have hall : ∀ code ∈ StatusCode.enumerators,
      let line := (StatusStrings.toBuffer code).dropLast.dropLast
      StatusStrings.toBuffer code = line ++ crlf ∧ cr ∉ line ∧ scanCode [] 0 0 line = code := by
    decide +kernel
  exact fun code hcode => ⟨_, hall code hcode⟩

theorem exists_statusLine (code : StatusCode) : ∃ line, StatusStrings.toBuffer code = line ++ crlf ∧ cr ∉ line := by
  by_cases hmem : code ∈ StatusCode.enumerators
  · obtain ⟨line, hbuffer, hline, -⟩ := statusLine_spec code hmem
    exact ⟨line, hbuffer, hline⟩
  · obtain ⟨line, hbuffer, hline, -⟩ := statusLine_spec StatusCode.internalServerError (by decide)
    exact ⟨line, (StatusStrings.toBuffer_of_notMem hmem).trans hbuffer, hline⟩

theorem substr_append {n : Nat} (hn : n = xs.length) (ys : Bytes) : substr (xs ++ ys) n = .ok ys := by
  have hlt : ¬ (xs ++ ys).length < xs.length := by
    rw [List.length_append]
    omega
  rw [hn, substr, if_neg hlt, List.drop_left]

theorem toBuffers_eq {rep : Reply} {line : Bytes} (hline : StatusStrings.toBuffer rep.code = line ++ crlf) :
    rep.toBuffers =
      withEnds crlf (line :: rep.headers.entries.map headerLine) ++ (crlf ++ rep.body) := by
  have hheaders : rep.headers.entries.flatMap (fun header => header.1 ++ [ch ':', ch ' '] ++ header.2 ++ crlf) =
      withEnds crlf (rep.headers.entries.map headerLine) := by
    rw [withEnds, List.flatMap_map]
    refine congrArg (List.flatMap · rep.headers.entries) (funext fun header => ?_)
    simp [headerLine]
  rw [Reply.toBuffers, hline, hheaders]
  simp

/-- What the parser makes of a status line, header lines, a blank line and a body. -/
theorem parseResponse_lines {line : Bytes} (hline : cr ∉ line) {fields : List (Bytes × Bytes)}
    (h : ∀ field ∈ fields, FieldOk field) (body : Bytes) :
    parseResponse (withEnds crlf (line :: fields.map fieldLine) ++ (crlf ++ body)) =
      .ok ⟨scanCode [] 0 0 line, storeFields OrdMap.empty fields, body⟩ := by
  set lines := fields.map fieldLine with hlines
  have hok : ∀ l ∈ lines, l ≠ [] ∧ cr ∉ l := by
    intro l hl
    obtain ⟨field, hfield, rfl⟩ := List.mem_map.mp hl
    exact ⟨by simp [fieldLine], (h field hfield).cr_notMem⟩
  set response := withEnds crlf (line :: lines) ++ (crlf ++ body) with hresponse
  have hfirst : Word.find? crlf response = some line.length := by
    rw [hresponse, withEnds_cons, List.append_assoc, List.append_assoc]
    exact find?_lineEnd hline _
  have hblank : Word.find? (crlf ++ crlf) response = some (line.length + (withEnds crlf lines).length) :=
    find?_blankLine hline hok body
  have htake : response.take line.length = line := by
    rw [hresponse, withEnds_cons, List.append_assoc, List.take_left]
  have hbehind : substr response (line.length + crlf.length) = .ok (withEnds crlf lines ++ (crlf ++ body)) := by
    have hsplit : response = (line ++ crlf) ++ (withEnds crlf lines ++ (crlf ++ body)) := by
      rw [hresponse]
      simp
    rw [hsplit]
    exact substr_append (by simp) _
  have hbody : substr response (line.length + (withEnds crlf lines).length + 2 * crlf.length) = .ok body := by
    rw [hresponse, ← List.append_assoc]
    refine substr_append ?_ _
    simp
    omega
  have hparse : parseHeaders (withEnds crlf lines) = .ok (storeFields OrdMap.empty fields) := by
    rw [parseHeaders_eq, parseHeadersFrom_withEnds OrdMap.empty h]
  rw [parseResponse, hfirst, hblank]
  simp only [Option.getD_some, Option.elim_some, htake, hbehind, hbody, bind, Except.bind, pure, Except.pure]
  rw [Nat.add_sub_cancel_left, List.take_left, hparse]

theorem storeFields_headers {entries : List (Bytes × Bytes)} (h : ∀ e ∈ entries, HeaderOk e)
    (headers : OrdMap Bytes Bytes) :
    storeFields headers (entries.map fun e => (e.1, sp :: e.2)) =
      entries.foldl (fun acc e => acc.insert e.1 e.2) headers := by
  induction entries generalizing headers with
  | nil => rfl
  | cons e entries ih =>
      have htrim : trim (sp :: e.2) = e.2 := by
        rw [← trim_dropBlanks, List.dropWhile_cons_of_pos (by simp), trim_dropBlanks,
          trim_of_trimmed (h e (by simp)).value_trimmed]
      have hrest := ih (fun e' he' => h e' (by simp [he'])) (headers.insert e.1 e.2)
      rw [List.map_cons, storeFields, List.foldl_cons, htrim]
      exact hrest

/-- **The proxy reads back what the server writes**: of a reply with an enumerated code and with headers that can
be read back, the same reply. -/
theorem parseResponse_toBuffers {rep : Reply} (hcode : rep.code ∈ StatusCode.enumerators)
    (hheaders : ∀ e ∈ rep.headers.entries, HeaderOk e) : parseResponse rep.toBuffers = .ok rep := by
  obtain ⟨line, hbuffer, hline, hscan⟩ := statusLine_spec rep.code hcode
  have hfields : ∀ field ∈ rep.headers.entries.map fun e => (e.1, sp :: e.2), FieldOk field := by
    intro field hfield
    obtain ⟨e, he, rfl⟩ := List.mem_map.mp hfield
    exact (hheaders e he).fieldOk
  have hlines : (rep.headers.entries.map fun e => (e.1, sp :: e.2)).map fieldLine =
      rep.headers.entries.map headerLine := by
    rw [List.map_map]
    rfl
  rw [toBuffers_eq hbuffer, ← hlines, parseResponse_lines hline hfields, hscan,
    storeFields_headers hheaders, OrdMap.foldl_insert_entries]

theorem parseResponse_toBuffers_moved :
    parseResponse (⟨StatusCode.movedTemporarily, OrdMap.empty.insert (bytes "a") (bytes "b:c"), crlf ++ crlf⟩ :
        Reply).toBuffers =
      .ok ⟨StatusCode.movedTemporarily, OrdMap.empty.insert (bytes "a") (bytes "b:c"), crlf ++ crlf⟩ :=
  parseResponse_toBuffers (by simp [StatusCode.enumerators]) fun e he => by
    obtain rfl : e = (bytes "a", bytes "b:c") := List.mem_singleton.mp he
    exact ⟨by decide, by decide, by decide, trimmed_of_ends rfl rfl rfl rfl, by decide,
      trimmed_of_ends rfl rfl rfl rfl⟩

/-! ### Responses of any shape -/

/-- What the two loops over the headers can cut up: stretches without carriage returns, each with a carriage return
and one more byte. -/
def Pieces (text : Bytes) : Prop :=
  ∃ pieces : List (Bytes × UInt8), (∀ p ∈ pieces, cr ∉ p.1) ∧ text = pieces.flatMap fun p => p.1 ++ [cr, p.2]

theorem exists_line_of_headerLoop {headers headers' : OrdMap Bytes Bytes} {scan : HeaderScan} {text : Bytes}
    (h : headerLoop headers scan text = .ok headers') :
    ∃ line c rest, cr ∉ line ∧ text = line ++ cr :: c :: rest := by
  induction text generalizing scan with
  | nil => cases h
  | cons d text ih =>
      rw [headerLoop] at h
      split_ifs at h with hd
      · rcases text with _ | ⟨c, rest⟩
        · cases h
        · exact ⟨[], c, rest, by simp, by rw [hd]; rfl⟩
      · obtain ⟨line, c, rest, hline, rfl⟩ := ih h
        exact ⟨d :: line, c, rest, by simp [Ne.symm hd, hline], rfl⟩

theorem parseHeadersFrom_ok_iff (headers : OrdMap Bytes Bytes) (text : Bytes) :
    (∃ headers', parseHeadersFrom headers text = .ok headers') ↔ Pieces text := by
  constructor
  · rintro ⟨headers', h⟩
    -- each round takes a line off the text
    induction hn : text.length using Nat.strong_induction_on generalizing headers text with
    | _ n ih =>
        by_cases hne : text = []
        · exact ⟨[], by simp, by simp [hne]⟩
        have hloop := h
        rw [parseHeadersFrom, if_neg hne] at hloop
        obtain ⟨line, c, rest, hline, rfl⟩ := exists_line_of_headerLoop hloop
        rw [parseHeadersFrom_line headers hline] at h
        have hshort : rest.length < n := by
          rw [← hn, List.length_append, List.length_cons, List.length_cons]
          omega
        obtain ⟨pieces, hpieces, hrest⟩ := ih rest.length hshort _ rest h rfl
        refine ⟨(line, c) :: pieces, List.forall_mem_cons.mpr ⟨hline, hpieces⟩, ?_⟩
        rw [List.flatMap_cons, ← hrest]
        simp
  · rintro ⟨pieces, hpieces, rfl⟩
    induction pieces generalizing headers with
    | nil => exact ⟨headers, rfl⟩
    | cons p pieces ih =>
        obtain ⟨headers', hrest⟩ := ih _ fun q hq => hpieces q (by simp [hq])
        refine ⟨headers', ?_⟩
        rw [List.flatMap_cons, List.append_assoc]
        exact (parseHeadersFrom_line headers (hpieces p (by simp)) p.2 _).trans hrest

/-- The part of a response that is parsed as headers: from behind the first line end to the blank line, with the
line end in front of that, or to the end if there is no blank line. -/
def headerSection (response : Bytes) : Bytes :=
  match Word.find? crlf response with
  | none => []
  | some line =>
    match Word.find? (crlf ++ crlf) response with
    | none => response.drop (line + 2)
    | some head => (response.take (head + 2)).drop (line + 2)

theorem parseResponse_of_line {response : Bytes} {line : Nat} (hline : Word.find? crlf response = some line) :
    (∃ rep, parseResponse response = .ok rep) ↔
      (∃ body, substr response ((Word.find? (crlf ++ crlf) response).elim 3 fun pos => pos + 2 * crlf.length) =
        .ok body) ∧ Pieces (headerSection response) := by
  obtain ⟨hlength, hocc⟩ := Word.find?_spec hline
  have hlt : ¬ response.length < line + crlf.length := by omega
  have htake : (response.take line).length = line := by
    rw [List.length_take]
    omega
  have hbehind : substr response ((response.take line).length + crlf.length) = .ok (response.drop (line + 2)) := by
    rw [htake, substr, if_neg hlt]
    rfl
  have hsection : (Word.find? (crlf ++ crlf) response).elim (response.drop (line + 2))
      (fun pos => (response.drop (line + 2)).take (pos - (response.take line).length)) = headerSection response := by
    rw [headerSection, hline, htake]
    cases hblank : Word.find? (crlf ++ crlf) response with
    | none => rfl
    | some pos =>
        show (response.drop (line + 2)).take (pos - line) = (response.take (pos + 2)).drop (line + 2)
        rw [List.drop_take]
        congr 1
        omega
  rw [parseResponse, hline, Option.getD_some, ← parseHeadersFrom_ok_iff OrdMap.empty, ← hsection]
  simp only [bind_eq_ok, pure_eq_ok, hbehind, ← parseHeaders_eq]
  constructor
  · rintro ⟨rep, _, hsome, body, hbody, headers, hheaders, -⟩
    obtain rfl := Except.ok.inj hsome
    exact ⟨⟨body, hbody⟩, headers, hheaders⟩
  · rintro ⟨⟨body, hbody⟩, headers, hheaders⟩
    exact ⟨_, _, rfl, body, hbody, headers, hheaders, rfl⟩

theorem substr_ok_iff {text : Bytes} {pos : Nat} : (∃ rest, substr text pos = .ok rest) ↔ pos ≤ text.length := by
  rw [substr]
  split_ifs with h
  · simp
    omega
  · simp
    omega

/-- **What the response parser survives**: a response with a line end, and with at least three bytes if it has no
blank line, whose headers its loops can cut up. On any other it reads or cuts past the end. -/
theorem parseResponse_ok_iff (response : Bytes) :
    (∃ rep, parseResponse response = .ok rep) ↔
      crlf <:+: response ∧ response ≠ crlf ∧ Pieces (headerSection response) := by
  cases hline : Word.find? crlf response with
  | none =>
      have hno : ¬ crlf <:+: response := Word.find?_eq_none.mp hline
      have hlong : response.length < response.length + crlf.length := by
        rw [show crlf.length = 2 from rfl]
        omega
      rw [parseResponse, hline, Option.getD_none, List.take_length]
      simp [substr, hno, bind, Except.bind]
  | some line =>
      obtain ⟨hlength, hocc⟩ := Word.find?_spec hline
      have hsome : crlf <:+: response := hocc.isInfix.trans (List.drop_suffix _ _).isInfix
      have hbody : (Word.find? (crlf ++ crlf) response).elim 3 (fun pos => pos + 2 * crlf.length) ≤
          response.length ↔ response ≠ crlf := by
        cases hblank : Word.find? (crlf ++ crlf) response with
        | none =>
            show 3 ≤ response.length ↔ _
            constructor
            · rintro h rfl
              exact absurd h (by decide)
            · intro hne
              by_contra hshort
              exact hne (hsome.eq_of_length (by rw [show crlf.length = 2 from rfl] at *; omega)).symm
        | some pos =>
            obtain ⟨hhead, -⟩ := Word.find?_spec hblank
            refine iff_of_true (by simpa using hhead) ?_
            rintro rfl
            simp at hhead
      rw [parseResponse_of_line hline, substr_ok_iff, hbody]
      simp [hsome]

/-- The empty response, a line end, a header line without its end and one that ends in a bare carriage return. -/
theorem parseResponse_fails :
    parseResponse [] = .error .outOfRange ∧ parseResponse crlf = .error .outOfRange ∧
      parseResponse (bytes "\r\nA") = .error .indexOutOfBounds ∧
      parseResponse (bytes "\r\nA\r") = .error .outOfRange :=
  ⟨rfl, rfl, rfl, rfl⟩

end ReverseProxyHandler

end WebServer
