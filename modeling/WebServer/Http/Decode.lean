import WebServer.Http.Accept

/-!
# What the parser makes of a head

Reading a rendered head from the initial state leaves its URI, its version numbers and its header lines in
the request (`advance_requestLine`, `advance_lines`), and the blank line after it is accepted. A header line
is stored under its name; a continuation line, whose name accumulator is empty, under the empty name.
-/

namespace WebServer

open Lib

namespace HeaderLine

/-- The name a header line is stored under. -/
def key : HeaderLine → Bytes
  | .field name _ => name
  | .continuation _ _ => []

/-- The text stored for it. -/
def value : HeaderLine → Bytes
  | .field _ value => value
  | .continuation _ value => value

end HeaderLine

/-- The header lines stored one after the other. -/
def storeLines (headers : OrdMap Bytes Bytes) (lines : List HeaderLine) : OrdMap Bytes Bytes :=
  lines.foldl (fun m l => m.insert l.key l.value) headers

/-- The value of the last line with a name. -/
def lastValue (name : Bytes) (lines : List HeaderLine) : Option Bytes :=
  (lines.reverse.find? fun l => decide (l.key = name)).map HeaderLine.value

/-- A line that is looked up is one of the lines. -/
theorem mem_of_lastValue {name value : Bytes} {lines : List HeaderLine} (h : lastValue name lines = some value) :
    ∃ l ∈ lines, l.key = name ∧ l.value = value := by
  obtain ⟨l, hfind, hvalue⟩ := Option.map_eq_some_iff.mp h
  refine ⟨l, ?_, by simpa using List.find?_some hfind, hvalue⟩
  simpa using List.mem_of_find?_eq_some hfind

theorem find?_storeLines (headers : OrdMap Bytes Bytes) (lines : List HeaderLine) (name : Bytes) :
    (storeLines headers lines).find? name = (lastValue name lines).or (headers.find? name) := by
  induction lines using List.reverseRecOn with
  | nil => simp [storeLines, lastValue]
  | append_singleton lines l ih =>
      have hfold : storeLines headers (lines ++ [l]) = (storeLines headers lines).insert l.key l.value := by
        simp [storeLines]
      rw [hfold, OrdMap.find?_insert, ih]
      by_cases h : l.key = name <;> simp [lastValue, h]

namespace RequestHead

/-- The version number of a digit string, in `int`. -/
def version (digits : Bytes) : Int32 := digits.foldl RequestParser.addDigit 0

/-- The request with the fields of a head stored. -/
def store (h : RequestHead) (req : Request) : Request :=
  { req with
    uri := req.uri ++ h.uri
    httpVersionMajor := version h.major
    httpVersionMinor := version h.minor
    headers := storeLines req.headers h.lines }

end RequestHead

namespace RequestParser

/-! ### One step of the machine -/

theorem machine_step_more {p q : RequestParser} {r t : Request} {c : UInt8}
    (h : consume p r c = (.indeterminate, q, t)) : machine.step (p, r) c = (.more, (q, t)) := by
  simp only [machine, h, ResultType.verdict]

theorem isNotToken_eq_false {c : UInt8} (h : IsTokenByte c) : isNotToken c = false := by
  rw [← Bool.not_eq_true, isNotToken_iff]
  exact not_not_intro h

theorem isCtl_eq_false {c : UInt8} (h : ¬ IsControl c) : isCtl (charToInt c) = false := by
  rwa [← Bool.not_eq_true, isCtl_iff]

theorem ne_of_class {P : UInt8 → Prop} {c d : UInt8} (hc : P c) (hd : ¬ P d) : c ≠ d :=
  fun h => hd (h ▸ hc)

/-! ### Runs of a class -/

variable {key value : Bytes} {req : Request} {xs : Bytes}

theorem advance_method (h : ∀ c ∈ xs, IsTokenByte c) :
    machine.advance (⟨.method, key, value⟩, req) xs = some (⟨.method, key, value⟩, req) := by
  refine Recognizer.advance_collect (R := machine) (fun _ => (⟨.method, key, value⟩, req)) xs ?_
  rintro read c ⟨rest, rfl⟩
  have hc := h c (by simp)
  refine machine_step_more ?_
  simp [consume, ne_of_class hc not_isTokenByte_sp, isNotToken_eq_false hc]

theorem advance_uri (h : ∀ c ∈ xs, IsUriByte c) :
    machine.advance (⟨.uri, key, value⟩, req) xs =
      some (⟨.uri, key, value⟩, { req with uri := req.uri ++ xs }) := by
  have hcollect := Recognizer.advance_collect (R := machine)
    (fun read => (⟨.uri, key, value⟩, { req with uri := req.uri ++ read })) xs ?_
  · simpa using hcollect
  rintro read c ⟨rest, rfl⟩
  obtain ⟨hctl, hsp⟩ := h c (by simp)
  refine machine_step_more ?_
  simp [consume, hsp, isCtl_eq_false hctl]

theorem advance_major (h : ∀ c ∈ xs, IsDigitByte c) :
    machine.advance (⟨.httpVersionMajor, key, value⟩, req) xs =
      some (⟨.httpVersionMajor, key, value⟩,
        { req with httpVersionMajor := xs.foldl addDigit req.httpVersionMajor }) := by
  refine Recognizer.advance_collect (R := machine) (fun read => (⟨.httpVersionMajor, key, value⟩,
    { req with httpVersionMajor := read.foldl addDigit req.httpVersionMajor })) xs ?_
  rintro read c ⟨rest, rfl⟩
  have hc := h c (by simp)
  refine machine_step_more ?_
  simp [consume, ne_of_class hc not_isDigitByte_dot, (isDigit_iff c).mpr hc]

theorem advance_minor (h : ∀ c ∈ xs, IsDigitByte c) :
    machine.advance (⟨.httpVersionMinor, key, value⟩, req) xs =
      some (⟨.httpVersionMinor, key, value⟩,
        { req with httpVersionMinor := xs.foldl addDigit req.httpVersionMinor }) := by
  refine Recognizer.advance_collect (R := machine) (fun read => (⟨.httpVersionMinor, key, value⟩,
    { req with httpVersionMinor := read.foldl addDigit req.httpVersionMinor })) xs ?_
  rintro read c ⟨rest, rfl⟩
  have hc := h c (by simp)
  refine machine_step_more ?_
  simp [consume, ne_of_class hc not_isDigitByte_cr, (isDigit_iff c).mpr hc]

theorem advance_headerName (h : ∀ c ∈ xs, IsTokenByte c) :
    machine.advance (⟨.headerName, key, value⟩, req) xs = some (⟨.headerName, key ++ xs, value⟩, req) := by
  have hcollect := Recognizer.advance_collect (R := machine)
    (fun read => (⟨.headerName, key ++ read, value⟩, req)) xs ?_
  · simpa using hcollect
  rintro read c ⟨rest, rfl⟩
  have hc := h c (by simp)
  refine machine_step_more ?_
  simp [consume, ne_of_class hc not_isTokenByte_colon, isNotToken_eq_false hc]

theorem advance_headerValue (h : ∀ c ∈ xs, IsValueByte c) :
    machine.advance (⟨.headerValue, key, value⟩, req) xs = some (⟨.headerValue, key, value ++ xs⟩, req) := by
  have hcollect := Recognizer.advance_collect (R := machine)
    (fun read => (⟨.headerValue, key, value ++ read⟩, req)) xs ?_
  · simpa using hcollect
  rintro read c ⟨rest, rfl⟩
  have hc := h c (by simp)
  refine machine_step_more ?_
  simp [consume, ne_of_class hc not_isValueByte_cr, isCtl_eq_false hc]

theorem advance_headerLws (h : ∀ c ∈ xs, IsBlank c) :
    machine.advance (⟨.headerLws, key, value⟩, req) xs = some (⟨.headerLws, key, value⟩, req) := by
  refine Recognizer.advance_collect (R := machine) (fun _ => (⟨.headerLws, key, value⟩, req)) xs ?_
  rintro read c ⟨rest, rfl⟩
  have hc := h c (by simp)
  have hblank : c = sp ∨ c = ht := hc
  refine machine_step_more ?_
  simp [consume, ne_of_class hc not_isBlank_cr, hblank]

/-! ### Header lines -/

/-- The end of a header line stores it. -/
theorem advance_lineEnd {state : State} (hstate : state = .headerValue ∨ state = .headerLws) :
    machine.advance (⟨state, key, value⟩, req) crlf =
      some (⟨.headerLineStart, [], []⟩, { req with headers := req.headers.insert key value }) := by
  have hcr : machine.step (⟨state, key, value⟩, req) cr = (.more, (⟨.expectingNewline2, key, value⟩, req)) := by
    rcases hstate with rfl | rfl <;> exact machine_step_more (by simp [consume])
  rw [crlf, Recognizer.advance_cons_eq hcr]
  exact Recognizer.advance_cons_eq (machine_step_more (by simp [consume])) []

theorem advance_field {name text : Bytes} (h : (HeaderLine.field name text).Ok) :
    machine.advance (⟨.headerLineStart, [], []⟩, req) (HeaderLine.field name text).render =
      some (⟨.headerLineStart, [], []⟩, { req with headers := req.headers.insert name text }) := by
  obtain ⟨hne, hname, htext⟩ := h
  obtain ⟨c, name, rfl⟩ := List.exists_cons_of_ne_nil hne
  have hc := hname c (by simp)
  have hblank : (c == sp || c == ht) = false := by
    simpa [IsBlank] using fun h : IsBlank c => not_isTokenByte_of_isBlank h hc
  have hstart : machine.step (⟨.headerLineStart, [], []⟩, req) c = (.more, (⟨.headerName, [c], []⟩, req)) :=
    machine_step_more (by simp [consume, ne_of_class hc not_isTokenByte_cr, hblank, isNotToken_eq_false hc])
  rw [HeaderLine.render, List.cons_append, Recognizer.advance_cons_eq hstart,
    Recognizer.advance_append_eq (advance_headerName fun d hd => hname d (by simp [hd])),
    Recognizer.advance_cons_eq (machine_step_more (q := ⟨.spaceBeforeHeaderValue, c :: name, []⟩)
      (t := req) (by simp [consume])),
    Recognizer.advance_cons_eq (machine_step_more (q := ⟨.headerValue, c :: name, []⟩) (t := req)
      (by simp [consume, expect])),
    Recognizer.advance_append_eq (advance_headerValue htext)]
  exact advance_lineEnd (Or.inl rfl)

theorem advance_continuation {blank text : Bytes} (h : (HeaderLine.continuation blank text).Ok)
    (hheaders : req.headers.isEmpty = false) :
    machine.advance (⟨.headerLineStart, [], []⟩, req) (HeaderLine.continuation blank text).render =
      some (⟨.headerLineStart, [], []⟩, { req with headers := req.headers.insert [] text }) := by
  obtain ⟨hne, hblank, htext, hhead⟩ := h
  obtain ⟨c, blank, rfl⟩ := List.exists_cons_of_ne_nil hne
  have hc := hblank c (by simp)
  have hor : c = sp ∨ c = ht := hc
  have hstart : machine.step (⟨.headerLineStart, [], []⟩, req) c = (.more, (⟨.headerLws, [], []⟩, req)) :=
    machine_step_more (by simp [consume, ne_of_class hc not_isBlank_cr, hor, hheaders])
  rw [HeaderLine.render, List.cons_append, Recognizer.advance_cons_eq hstart,
    Recognizer.advance_append_eq (advance_headerLws fun d hd => hblank d (by simp [hd]))]
  rcases text with _ | ⟨d, text⟩
  · exact advance_lineEnd (Or.inr rfl)
  · have hd := htext d (by simp)
    have hdsp : d ≠ sp := by simpa using hhead
    have hdht : d ≠ ht := ne_of_class hd (by decide)
    have hfirst : machine.step (⟨.headerLws, [], []⟩, req) d = (.more, (⟨.headerValue, [], [d]⟩, req)) :=
      machine_step_more (by simp [consume, ne_of_class hd not_isValueByte_cr, hdsp, hdht, isCtl_eq_false hd])
    rw [List.cons_append, Recognizer.advance_cons_eq hfirst,
      Recognizer.advance_append_eq (advance_headerValue fun e he => htext e (by simp [he]))]
    exact advance_lineEnd (Or.inl rfl)

theorem advance_line {l : HeaderLine} (h : l.Ok)
    (hcont : l.IsContinuation → req.headers.isEmpty = false) :
    machine.advance (⟨.headerLineStart, [], []⟩, req) l.render =
      some (⟨.headerLineStart, [], []⟩, { req with headers := req.headers.insert l.key l.value }) := by
  cases l with
  | field name text => exact advance_field h
  | continuation blank text => exact advance_continuation h (hcont trivial)

theorem advance_lines {afterLine : Bool} {lines : List HeaderLine} (h : LinesOk afterLine lines)
    (hheaders : afterLine = true → req.headers.isEmpty = false) :
    machine.advance (⟨.headerLineStart, [], []⟩, req) (lines.flatMap HeaderLine.render) =
      some (⟨.headerLineStart, [], []⟩, { req with headers := storeLines req.headers lines }) := by
  induction lines generalizing afterLine req with
  | nil => rfl
  | cons l rest ih =>
      obtain ⟨hl, hcont, hrest⟩ := h
      rw [List.flatMap_cons, Recognizer.advance_append_eq (advance_line hl fun h => hheaders (hcont h)),
        ih hrest (by simp)]
      rfl

/-! ### The request line -/

theorem advance_http :
    machine.advance (⟨.httpVersionH, key, value⟩, req) (bytes "HTTP/") =
      some (⟨.httpVersionMajorStart, key, value⟩,
        { req with httpVersionMajor := 0, httpVersionMinor := 0 }) := by
  have hletter : ∀ {state : State} {c : UInt8} (next : State),
      consume ⟨state, key, value⟩ req c = expect ⟨state, key, value⟩ req c c next →
        machine.step (⟨state, key, value⟩, req) c = (.more, (⟨next, key, value⟩, req)) :=
    fun next h => machine_step_more (by simp [h, expect])
  rw [show bytes "HTTP/" = [ch 'H', ch 'T', ch 'T', ch 'P', ch '/'] from rfl,
    Recognizer.advance_cons_eq (hletter .httpVersionT1 rfl),
    Recognizer.advance_cons_eq (hletter .httpVersionT2 rfl),
    Recognizer.advance_cons_eq (hletter .httpVersionP rfl),
    Recognizer.advance_cons_eq (hletter .httpVersionSlash rfl)]
  exact Recognizer.advance_cons_eq (machine_step_more (by simp [consume])) []

theorem advance_majorDigits (hne : xs ≠ []) (h : ∀ c ∈ xs, IsDigitByte c) :
    machine.advance (⟨.httpVersionMajorStart, key, value⟩, req) xs =
      some (⟨.httpVersionMajor, key, value⟩,
        { req with httpVersionMajor := xs.foldl addDigit req.httpVersionMajor }) := by
  obtain ⟨c, digits, rfl⟩ := List.exists_cons_of_ne_nil hne
  have hc : IsDigitByte c := h c (by simp)
  rw [Recognizer.advance_cons_eq (machine_step_more (q := ⟨.httpVersionMajor, key, value⟩)
    (t := { req with httpVersionMajor := addDigit req.httpVersionMajor c })
    (by simp [consume, (isDigit_iff c).mpr hc]))]
  exact advance_major fun d hd => h d (by simp [hd])

theorem advance_minorDigits (hne : xs ≠ []) (h : ∀ c ∈ xs, IsDigitByte c) :
    machine.advance (⟨.httpVersionMinorStart, key, value⟩, req) xs =
      some (⟨.httpVersionMinor, key, value⟩,
        { req with httpVersionMinor := xs.foldl addDigit req.httpVersionMinor }) := by
  obtain ⟨c, digits, rfl⟩ := List.exists_cons_of_ne_nil hne
  have hc : IsDigitByte c := h c (by simp)
  rw [Recognizer.advance_cons_eq (machine_step_more (q := ⟨.httpVersionMinor, key, value⟩)
    (t := { req with httpVersionMinor := addDigit req.httpVersionMinor c })
    (by simp [consume, (isDigit_iff c).mpr hc]))]
  exact advance_minor fun d hd => h d (by simp [hd])

theorem step_dot :
    machine.step (⟨.httpVersionMajor, key, value⟩, req) (ch '.') =
      (.more, (⟨.httpVersionMinorStart, key, value⟩, req)) :=
  machine_step_more (by simp [consume])

theorem advance_version (h : RequestHead) :
    machine.advance (⟨.httpVersionH, key, value⟩, req) h.renderVersion =
      some (⟨.headerLineStart, [], []⟩,
        { req with
          httpVersionMajor := RequestHead.version h.major
          httpVersionMinor := RequestHead.version h.minor }) := by
  rw [RequestHead.renderVersion, Recognizer.advance_append_eq advance_http,
    Recognizer.advance_append_eq (advance_majorDigits h.major_ne h.major_ok),
    Recognizer.advance_cons_eq step_dot,
    Recognizer.advance_append_eq (advance_minorDigits h.minor_ne h.minor_ok),
    Recognizer.advance_cons_eq (machine_step_more (q := ⟨.expectingNewline1, key, value⟩)
      (t := { req with
        httpVersionMajor := RequestHead.version h.major
        httpVersionMinor := RequestHead.version h.minor })
      (by simp [consume, RequestHead.version]))]
  exact Recognizer.advance_cons_eq (machine_step_more (by simp [consume])) []

/-- The request line up to its version: the method is passed over, the URI is stored. -/
theorem advance_toVersion {method uri : Bytes} (hne : method ≠ []) (hmethod : ∀ c ∈ method, IsTokenByte c)
    (huri : ∀ c ∈ uri, IsUriByte c) (rest : Bytes) :
    machine.advance (⟨.methodStart, key, value⟩, req) (method ++ sp :: (uri ++ sp :: rest)) =
      machine.advance (⟨.httpVersionH, key, value⟩, { req with uri := req.uri ++ uri }) rest := by
  obtain ⟨c, method, rfl⟩ := List.exists_cons_of_ne_nil hne
  have hc : IsTokenByte c := hmethod c (by simp)
  rw [List.cons_append,
    Recognizer.advance_cons_eq (machine_step_more (q := ⟨.method, key, value⟩) (t := req)
      (by simp [consume, isNotToken_eq_false hc])),
    Recognizer.advance_append_eq (advance_method fun e he => hmethod e (by simp [he])),
    Recognizer.advance_cons_eq (machine_step_more (q := ⟨.uri, key, value⟩) (t := req)
      (by simp [consume])),
    Recognizer.advance_append_eq (advance_uri huri),
    Recognizer.advance_cons_eq (machine_step_more (q := ⟨.httpVersionH, key, value⟩)
      (t := { req with uri := req.uri ++ uri }) (by simp [consume]))]

/-- The request line: the URI and the version are stored. -/
theorem advance_requestLine (h : RequestHead) :
    machine.advance (⟨.methodStart, key, value⟩, req) (h.method ++ sp :: (h.uri ++ sp :: h.renderVersion)) =
      some (⟨.headerLineStart, [], []⟩,
        { req with
          uri := req.uri ++ h.uri
          httpVersionMajor := RequestHead.version h.major
          httpVersionMinor := RequestHead.version h.minor }) := by
  rw [advance_toVersion h.method_ne h.method_ok h.uri_ok]
  exact advance_version h

/-! ### The whole head -/

theorem run_blankLine (req : Request) (rest : Bytes) :
    machine.run (⟨.headerLineStart, [], []⟩, req) (crlf ++ rest) =
      ⟨.accept, 2, (⟨.expectingNewline3, [], []⟩, req)⟩ := by
  have hcr : machine.step (⟨.headerLineStart, [], []⟩, req) cr = (.more, (⟨.expectingNewline3, [], []⟩, req)) :=
    machine_step_more (by simp [consume])
  have hlf : machine.step (⟨.expectingNewline3, [], []⟩, req) lf =
      (.accept, (⟨.expectingNewline3, [], []⟩, req)) := by
    simp [machine, consume, ResultType.verdict]
  show machine.run _ (cr :: lf :: rest) = _
  rw [Recognizer.run_cons_more hcr, Recognizer.run_cons_stop hlf (by simp)]

/-- Reading a rendered head from the initial state, whatever follows it. -/
theorem run_render (h : RequestHead) (rest : Bytes) :
    machine.run (⟨.methodStart, key, value⟩, req) (h.render ++ rest) =
      ⟨.accept, h.render.length, (⟨.expectingNewline3, [], []⟩, h.store req)⟩ := by
  have hsplit : h.render ++ rest =
      (h.method ++ sp :: (h.uri ++ sp :: h.renderVersion)) ++
        (h.lines.flatMap HeaderLine.render ++ (crlf ++ rest)) := by
    simp [RequestHead.render, renderLines]
  rw [hsplit, Recognizer.run_append (advance_requestLine h),
    Recognizer.run_append (advance_lines h.lines_ok (by simp)), run_blankLine]
  simp only [RequestHead.store, Recognizer.Outcome.mk.injEq, true_and, and_true]
  simp only [RequestHead.render, renderLines, crlf, List.length_append, List.length_cons, List.length_nil]
  omega

/-! ### `parse` -/

theorem parse_eq_run (p : RequestParser) (req : Request) (mem : Bytes) (len : Nat) :
    parse p req mem len =
      let o := machine.run (p, parseMethod { req with body := cString mem } mem) (mem.take len)
      ⟨ResultType.ofVerdict o.verdict, o.read, o.final.1, o.final.2⟩ := by
  rw [parse, parseLoop_eq_run]
  simp

/-- The machine leaves the body to `parse`. -/
theorem consume_body (p : RequestParser) (req : Request) (c : UInt8) :
    (consume p req c).2.2.body = req.body := by
  obtain ⟨state, key, value⟩ := p
  cases state <;> simp only [consume, expect] <;> split_ifs <;> rfl

theorem parse_body (p : RequestParser) (req : Request) (mem : Bytes) (len : Nat) :
    (parse p req mem len).request.body = cString mem := by
  have hstep : ∀ (s : RequestParser × Request) (c : UInt8), s.2.body = cString mem →
      (machine.step s c).2.2.body = cString mem :=
    fun s c hs => (consume_body s.1 s.2 c).trans hs
  rw [parse_eq_run]
  exact Recognizer.run_invariant hstep rfl (mem.take len)

theorem ofVerdict_eq_good {v : Verdict} : ResultType.ofVerdict v = .good ↔ v = .accept := by
  cases v <;> simp [ResultType.ofVerdict]

theorem ofVerdict_eq_bad {v : Verdict} : ResultType.ofVerdict v = .bad ↔ v = .reject := by
  cases v <;> simp [ResultType.ofVerdict]

theorem ofVerdict_eq_indeterminate {v : Verdict} : ResultType.ofVerdict v = .indeterminate ↔ v = .more := by
  cases v <;> simp [ResultType.ofVerdict]

theorem residual_new (req : Request) (h : req.headers = OrdMap.empty) :
    residual (new, req) = requestLanguage := by
  ext w
  rw [residual, h]
  exact mem_tail_methodStart

/-- What `parse` leaves of a request that starts with a head. -/
theorem parse_of_head (h : RequestHead) {xs : Bytes} (hpre : h.render <+: xs) (p : RequestParser)
    (hp : p.state = .methodStart) (req : Request) (after : Bytes) :
    parse p req (xs ++ after) xs.length =
      ⟨.good, h.render.length, ⟨.expectingNewline3, [], []⟩,
        h.store (parseMethod { req with body := cString (xs ++ after) } (xs ++ after))⟩ := by
  obtain ⟨rest, rfl⟩ := hpre
  obtain ⟨state, key, value⟩ := p
  obtain rfl : state = .methodStart := hp
  rw [parse_eq_run, List.take_left, run_render]
  rfl

/-- What a new parser accepts starts with a head. -/
theorem exists_head_of_good {method : MethodType} {major minor : Int32} {after : Bytes}
    (hgood : (new.parse (Request.fresh method major minor) (xs ++ after) xs.length).result = .good) :
    ∃ head : RequestHead, head.render <+: xs := by
  rw [parse_eq_run, List.take_left] at hgood
  obtain ⟨w, hpre, hw⟩ := (machine_residual.accept_iff _ _).mp (ofVerdict_eq_good.mp hgood)
  rw [residual_new _ rfl] at hw
  obtain ⟨head, rfl⟩ := hw
  exact ⟨head, hpre⟩

/-- **`parse` decides the request grammar.** On a new parser and a new request it accepts the byte strings
that start with a head, waits on the proper prefixes of heads and rejects all others; from an accepted one it
has read just the head, and has stored the URI and, under each name, the value of the last line with it. -/
theorem parse_grammar (s after : Bytes) (method : MethodType) (major minor : Int32) :
    let out := parse new (Request.fresh method major minor) (s ++ after) s.length
    (out.result = .good ↔ ∃ w ∈ requestLanguage, w <+: s) ∧
    (out.result = .indeterminate ↔ ∃ w ∈ requestLanguage, s <+: w ∧ s ≠ w) ∧
    (out.result = .bad ↔
      (¬ ∃ w ∈ requestLanguage, w <+: s) ∧ ¬ ∃ w ∈ requestLanguage, s <+: w ∧ s ≠ w) ∧
    ∀ h : RequestHead, h.render <+: s →
      out.pos = h.render.length ∧ out.request.uri = h.uri ∧
      (¬ h.HasContinuation → ∀ name, out.request.headers.find? name = lastValue name h.lines) := by
  intro out
  have hout : out = _ := parse_eq_run new (Request.fresh method major minor) (s ++ after) s.length
  rw [List.take_left] at hout
  set req := parseMethod { Request.fresh method major minor with body := cString (s ++ after) } (s ++ after)
    with hreq
  have hlang : residual (new, req) = requestLanguage := residual_new req rfl
  have hgood : out.result = .good ↔ ∃ w ∈ requestLanguage, w <+: s := by
    rw [hout, ofVerdict_eq_good, machine_residual.accept_iff, hlang]
    exact exists_congr fun w => and_comm
  have hmore : out.result = .indeterminate ↔ ∃ w ∈ requestLanguage, s <+: w ∧ s ≠ w := by
    rw [hout, ofVerdict_eq_indeterminate, machine_residual.more_iff, hlang]
  refine ⟨hgood, hmore, ?_, fun h hpre => ?_⟩
  · rw [← hgood, ← hmore]
    cases out.result <;> simp
  · have hhead : out = _ := parse_of_head h hpre new rfl (Request.fresh method major minor) after
    refine ⟨by rw [hhead], by rw [hhead]; rfl, fun _ name => ?_⟩
    rw [hhead]
    show (storeLines OrdMap.empty h.lines).find? name = _
    simp [find?_storeLines]

end RequestParser

end WebServer
