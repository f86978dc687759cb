import WebServer.Http.RequestParser

/-!
# The request grammar

The heads a request may have, as text: a request line and header lines, each with the bytes it may be made
of, and the text they are written as (`RequestHead.render`). A head carries the proofs that its parts are
well formed, so the language `requestLanguage` is the set of all rendered heads.

`tail` is what is still to come of a head in each state of the parser; `mem_tail_methodStart` says that in
the initial state this is the whole language.
-/

namespace WebServer

open Lib

/-! ### Bytes of the grammar -/

def IsControl (c : UInt8) : Prop := c ≤ 31 ∨ c = 127

def IsTokenByte (c : UInt8) : Prop := c < 128 ∧ ¬ IsControl c ∧ c ∉ RequestParser.tspecials

def IsUriByte (c : UInt8) : Prop := ¬ IsControl c ∧ c ≠ sp

def IsValueByte (c : UInt8) : Prop := ¬ IsControl c

def IsDigitByte (c : UInt8) : Prop := ch '0' ≤ c ∧ c ≤ ch '9'

def IsBlank (c : UInt8) : Prop := c = sp ∨ c = ht

instance (c : UInt8) : Decidable (IsControl c) := inferInstanceAs (Decidable (_ ∨ _))
instance (c : UInt8) : Decidable (IsTokenByte c) := inferInstanceAs (Decidable (_ ∧ _ ∧ _))
instance (c : UInt8) : Decidable (IsUriByte c) := inferInstanceAs (Decidable (_ ∧ _))
instance (c : UInt8) : Decidable (IsValueByte c) := inferInstanceAs (Decidable (¬ _))
instance (c : UInt8) : Decidable (IsDigitByte c) := inferInstanceAs (Decidable (_ ∧ _))
instance (c : UInt8) : Decidable (IsBlank c) := inferInstanceAs (Decidable (_ ∨ _))

/-! ### Heads -/

/-- A header line: a field, or a continuation of the lines before it. -/
inductive HeaderLine
  | field (name value : Bytes)
  | continuation (blank value : Bytes)
  deriving DecidableEq

namespace HeaderLine

def IsContinuation : HeaderLine → Prop
  | .field _ _ => False
  | .continuation _ _ => True

instance (l : HeaderLine) : Decidable l.IsContinuation := by
  cases l <;> unfold IsContinuation <;> infer_instance

def Ok : HeaderLine → Prop
  | .field name value => name ≠ [] ∧ (∀ c ∈ name, IsTokenByte c) ∧ ∀ c ∈ value, IsValueByte c
  | .continuation blank value =>
    blank ≠ [] ∧ (∀ c ∈ blank, IsBlank c) ∧ (∀ c ∈ value, IsValueByte c) ∧ value.head? ≠ some sp

instance (l : HeaderLine) : Decidable l.Ok := by
  cases l <;> unfold Ok <;> infer_instance

def render : HeaderLine → Bytes
  | .field name value => name ++ ch ':' :: sp :: (value ++ crlf)
  | .continuation blank value => blank ++ (value ++ crlf)

end HeaderLine

/-- The lines are well formed, and a continuation has a line before it. -/
def LinesOk : Bool → List HeaderLine → Prop
  | _, [] => True
  | afterLine, l :: rest => l.Ok ∧ (l.IsContinuation → afterLine = true) ∧ LinesOk true rest

instance instDecidableLinesOk : (afterLine : Bool) → (lines : List HeaderLine) →
    Decidable (LinesOk afterLine lines)
  | _, [] => .isTrue trivial
  | _, _ :: rest =>
    have := instDecidableLinesOk true rest
    inferInstanceAs (Decidable (_ ∧ (_ → _) ∧ _))

theorem LinesOk.ok {afterLine : Bool} {lines : List HeaderLine} (h : LinesOk afterLine lines) :
    ∀ l ∈ lines, l.Ok := by
  induction lines generalizing afterLine with
  | nil => simp
  | cons l rest ih =>
      obtain ⟨hl, -, hrest⟩ := h
      simpa using ⟨hl, ih hrest⟩

/-- The lines and the blank line after them. -/
def renderLines (lines : List HeaderLine) : Bytes := lines.flatMap HeaderLine.render ++ crlf

/-- A request line and its header lines. -/
structure RequestHead where
  method : Bytes
  uri : Bytes
  major : Bytes
  minor : Bytes
  lines : List HeaderLine
  method_ne : method ≠ []
  method_ok : ∀ c ∈ method, IsTokenByte c
  uri_ok : ∀ c ∈ uri, IsUriByte c
  major_ne : major ≠ []
  major_ok : ∀ c ∈ major, IsDigitByte c
  minor_ne : minor ≠ []
  minor_ok : ∀ c ∈ minor, IsDigitByte c
  lines_ok : LinesOk false lines

namespace RequestHead

/-- The request line after its URI. -/
def renderVersion (h : RequestHead) : Bytes := bytes "HTTP/" ++ (h.major ++ ch '.' :: (h.minor ++ crlf))

def render (h : RequestHead) : Bytes :=
  h.method ++ sp :: (h.uri ++ sp :: (h.renderVersion ++ renderLines h.lines))

/-- A head for the root. -/
def root (method major minor : Bytes) (lines : List HeaderLine)
    (h : (method ≠ [] ∧ ∀ c ∈ method, IsTokenByte c) ∧ (major ≠ [] ∧ ∀ c ∈ major, IsDigitByte c) ∧
      minor ≠ [] ∧ ∀ c ∈ minor, IsDigitByte c) (hlines : LinesOk false lines) : RequestHead where
  method := method
  uri := bytes "/"
  major := major
  minor := minor
  lines := lines
  method_ne := h.1.1
  method_ok := h.1.2
  uri_ok := by decide +kernel
  major_ne := h.2.1.1
  major_ok := h.2.1.2
  minor_ne := h.2.2.1
  minor_ok := h.2.2.2
  lines_ok := hlines

def HasContinuation (h : RequestHead) : Prop := ∃ l ∈ h.lines, l.IsContinuation

end RequestHead

/-- The texts of the heads. -/
def requestLanguage : Set Bytes := Set.range RequestHead.render

/-! ### What is still to come -/

/-- The lines still to come, with the blank line. -/
def linesTail (afterLine : Bool) : Set Bytes := {w | ∃ lines, LinesOk afterLine lines ∧ w = renderLines lines}

/-- The end of a line and the lines after it. -/
def lineEndTail (afterLine : Bool) : Set Bytes := Lang.lit cr (Lang.lit lf (linesTail afterLine))

def valueTail : Set Bytes := Lang.many IsValueByte (lineEndTail true)

def nameTail : Set Bytes := Lang.many IsTokenByte (Lang.lit (ch ':') (Lang.lit sp valueTail))

/-- A continuation line after some of its blanks. -/
def blankTail : Set Bytes :=
  Lang.many IsBlank (lineEndTail true ∪ {w | ∃ c v, IsValueByte c ∧ c ≠ sp ∧ v ∈ valueTail ∧ w = c :: v})

def minorTail (afterLine : Bool) : Set Bytes := Lang.many IsDigitByte (lineEndTail afterLine)

def minorStartTail (afterLine : Bool) : Set Bytes := Lang.many1 IsDigitByte (lineEndTail afterLine)

def majorTail (afterLine : Bool) : Set Bytes :=
  Lang.many IsDigitByte (Lang.lit (ch '.') (minorStartTail afterLine))

def majorStartTail (afterLine : Bool) : Set Bytes :=
  Lang.many1 IsDigitByte (Lang.lit (ch '.') (minorStartTail afterLine))

def slashTail (afterLine : Bool) : Set Bytes := Lang.lit (ch '/') (majorStartTail afterLine)

def httpTail (afterLine : Bool) : Set Bytes :=
  Lang.lit (ch 'H') (Lang.lit (ch 'T') (Lang.lit (ch 'T') (Lang.lit (ch 'P') (slashTail afterLine))))

def uriTail (afterLine : Bool) : Set Bytes := Lang.many IsUriByte (Lang.lit sp (httpTail afterLine))

/-- What is still to come of a head in a state of the parser, where `afterLine` says that a header line has
been read. -/
def tail : State → Bool → Set Bytes
  | .methodStart, b => Lang.many1 IsTokenByte (Lang.lit sp (uriTail b))
  | .method, b => Lang.many IsTokenByte (Lang.lit sp (uriTail b))
  | .uri, b => uriTail b
  | .httpVersionH, b => httpTail b
  | .httpVersionT1, b => Lang.lit (ch 'T') (Lang.lit (ch 'T') (Lang.lit (ch 'P') (slashTail b)))
  | .httpVersionT2, b => Lang.lit (ch 'T') (Lang.lit (ch 'P') (slashTail b))
  | .httpVersionP, b => Lang.lit (ch 'P') (slashTail b)
  | .httpVersionSlash, b => slashTail b
  | .httpVersionMajorStart, b => majorStartTail b
  | .httpVersionMajor, b => majorTail b
  | .httpVersionMinorStart, b => minorStartTail b
  | .httpVersionMinor, b => minorTail b
  | .expectingNewline1, b => Lang.lit lf (linesTail b)
  | .headerLineStart, b => linesTail b
  | .headerLws, _ => blankTail
  | .headerName, _ => nameTail
  | .spaceBeforeHeaderValue, _ => Lang.lit sp valueTail
  | .headerValue, _ => valueTail
  | .expectingNewline2, _ => Lang.lit lf (linesTail true)
  | .expectingNewline3, _ => Lang.lit lf {[]}

/-! ### Derivatives of the lines -/

theorem linesTail_nil (b : Bool) : crlf ∈ linesTail b := ⟨[], trivial, rfl⟩

@[simp] theorem cons_mem_lineEndTail {b : Bool} {c : UInt8} {w : Bytes} :
    c :: w ∈ lineEndTail b ↔ c = cr ∧ w ∈ Lang.lit lf (linesTail b) := by
  rw [lineEndTail, Lang.cons_mem_lit]

theorem mem_lineEndTail {b : Bool} {w : Bytes} :
    w ∈ lineEndTail b ↔ ∃ lines, LinesOk b lines ∧ w = crlf ++ renderLines lines := by
  constructor
  · rintro ⟨_, ⟨_, ⟨lines, hlines, rfl⟩, rfl⟩, rfl⟩
    exact ⟨lines, hlines, rfl⟩
  · rintro ⟨lines, hlines, rfl⟩
    exact ⟨_, ⟨_, ⟨lines, hlines, rfl⟩, rfl⟩, rfl⟩

theorem mem_valueTail {w : Bytes} :
    w ∈ valueTail ↔
      ∃ value lines, (∀ c ∈ value, IsValueByte c) ∧ LinesOk true lines ∧
        w = value ++ (crlf ++ renderLines lines) := by
  constructor
  · rintro ⟨value, _, hvalue, hend, rfl⟩
    obtain ⟨lines, hlines, rfl⟩ := mem_lineEndTail.mp hend
    exact ⟨value, lines, hvalue, hlines, rfl⟩
  · rintro ⟨value, lines, hvalue, hlines, rfl⟩
    exact ⟨value, _, hvalue, mem_lineEndTail.mpr ⟨lines, hlines, rfl⟩, rfl⟩

theorem mem_nameTail {w : Bytes} :
    w ∈ nameTail ↔
      ∃ name value lines, (∀ c ∈ name, IsTokenByte c) ∧ (∀ c ∈ value, IsValueByte c) ∧ LinesOk true lines ∧
        w = name ++ ch ':' :: sp :: (value ++ (crlf ++ renderLines lines)) := by
  constructor
  · rintro ⟨name, _, hname, ⟨_, ⟨_, htail, rfl⟩, rfl⟩, rfl⟩
    obtain ⟨value, lines, hvalue, hlines, rfl⟩ := mem_valueTail.mp htail
    exact ⟨name, value, lines, hname, hvalue, hlines, rfl⟩
  · rintro ⟨name, value, lines, hname, hvalue, hlines, rfl⟩
    exact ⟨name, _, hname, ⟨_, ⟨_, mem_valueTail.mpr ⟨value, lines, hvalue, hlines, rfl⟩, rfl⟩, rfl⟩, rfl⟩

theorem mem_blankTail {w : Bytes} :
    w ∈ blankTail ↔
      ∃ blank value lines, (∀ c ∈ blank, IsBlank c) ∧ (∀ c ∈ value, IsValueByte c) ∧
        value.head? ≠ some sp ∧ LinesOk true lines ∧ w = blank ++ (value ++ (crlf ++ renderLines lines)) := by
  constructor
  · rintro ⟨blank, _, hblank, hend | ⟨c, _, hc, hcsp, htail, rfl⟩, rfl⟩
    · obtain ⟨lines, hlines, rfl⟩ := mem_lineEndTail.mp hend
      exact ⟨blank, [], lines, hblank, by simp, by simp, hlines, rfl⟩
    · obtain ⟨value, lines, hvalue, hlines, rfl⟩ := mem_valueTail.mp htail
      exact ⟨blank, c :: value, lines, hblank, by simpa using ⟨hc, hvalue⟩, by simpa using hcsp, hlines, rfl⟩
  · rintro ⟨blank, value, lines, hblank, hvalue, hhead, hlines, rfl⟩
    refine ⟨blank, _, hblank, ?_, rfl⟩
    rcases value with _ | ⟨c, value⟩
    · exact Or.inl (mem_lineEndTail.mpr ⟨lines, hlines, rfl⟩)
    · refine Or.inr ⟨c, _, hvalue c (by simp), by simpa using hhead, ?_, rfl⟩
      exact mem_valueTail.mpr ⟨value, lines, fun d hd => hvalue d (by simp [hd]), hlines, rfl⟩

@[simp] theorem cons_mem_blankTail {c : UInt8} {w : Bytes} :
    c :: w ∈ blankTail ↔
      (IsBlank c ∧ w ∈ blankTail) ∨ (c = cr ∧ w ∈ Lang.lit lf (linesTail true)) ∨
        (IsValueByte c ∧ c ≠ sp ∧ w ∈ valueTail) := by
  have hvalue : c :: w ∈ {w | ∃ c v, IsValueByte c ∧ c ≠ sp ∧ v ∈ valueTail ∧ w = c :: v} ↔
      IsValueByte c ∧ c ≠ sp ∧ w ∈ valueTail := by
    constructor
    · rintro ⟨d, v, hd, hsp, hv, h⟩
      obtain ⟨rfl, rfl⟩ := List.cons_eq_cons.mp h
      exact ⟨hd, hsp, hv⟩
    · rintro ⟨hc, hsp, hw⟩
      exact ⟨c, w, hc, hsp, hw, rfl⟩
  rw [blankTail, Lang.cons_mem_many, Set.mem_union, cons_mem_lineEndTail, hvalue]

@[simp] theorem nil_mem_linesTail (b : Bool) : [] ∉ linesTail b := by
  rintro ⟨lines, -, h⟩
  simp [renderLines] at h

/-- The first byte of the lines still to come tells the blank line, a continuation and a field apart. -/
@[simp] theorem cons_mem_linesTail {b : Bool} {c : UInt8} {w : Bytes} :
    c :: w ∈ linesTail b ↔
      (c = cr ∧ w ∈ Lang.lit lf {[]}) ∨ (b = true ∧ IsBlank c ∧ w ∈ blankTail) ∨
        (IsTokenByte c ∧ w ∈ nameTail) := by
  constructor
  · rintro ⟨lines, hlines, hw⟩
    rcases lines with _ | ⟨l, lines⟩
    · obtain ⟨rfl, rfl⟩ := List.cons_eq_cons.mp (show c :: w = cr :: [lf] from hw)
      exact Or.inl ⟨rfl, by simp⟩
    obtain ⟨hl, hcont, hlines⟩ := hlines
    cases l with
    | field name value =>
        obtain ⟨hne, hname, hvalue⟩ := hl
        obtain ⟨d, name, rfl⟩ := List.exists_cons_of_ne_nil hne
        obtain ⟨rfl, rfl⟩ := List.cons_eq_cons.mp
          (show c :: w = d :: (name ++ ch ':' :: sp :: (value ++ (crlf ++ renderLines lines))) by
            simpa [renderLines, HeaderLine.render] using hw)
        refine Or.inr (Or.inr ⟨hname c (by simp), mem_nameTail.mpr ?_⟩)
        exact ⟨name, value, lines, fun e he => hname e (by simp [he]), hvalue, hlines, rfl⟩
    | continuation blank value =>
        obtain ⟨hne, hblank, hvalue, hhead⟩ := hl
        obtain ⟨d, blank, rfl⟩ := List.exists_cons_of_ne_nil hne
        obtain ⟨rfl, rfl⟩ := List.cons_eq_cons.mp
          (show c :: w = d :: (blank ++ (value ++ (crlf ++ renderLines lines))) by
            simpa [renderLines, HeaderLine.render] using hw)
        refine Or.inr (Or.inl ⟨hcont trivial, hblank c (by simp), mem_blankTail.mpr ?_⟩)
        exact ⟨blank, value, lines, fun e he => hblank e (by simp [he]), hvalue, hhead, hlines, rfl⟩
  · rintro (⟨rfl, hw⟩ | ⟨rfl, hc, hw⟩ | ⟨hc, hw⟩)
    · obtain ⟨_, rfl, rfl⟩ := hw
      exact linesTail_nil b
    · obtain ⟨blank, value, lines, hblank, hvalue, hhead, hlines, rfl⟩ := mem_blankTail.mp hw
      refine ⟨.continuation (c :: blank) value :: lines, ⟨⟨by simp, ?_, hvalue, hhead⟩, by simp, hlines⟩, ?_⟩
      · simpa using ⟨hc, hblank⟩
      · simp [renderLines, HeaderLine.render]
    · obtain ⟨name, value, lines, hname, hvalue, hlines, rfl⟩ := mem_nameTail.mp hw
      refine ⟨.field (c :: name) value :: lines,
        ⟨⟨by simp, ?_, hvalue⟩, by simp [HeaderLine.IsContinuation], hlines⟩, ?_⟩
      · simpa using ⟨hc, hname⟩
      · simp [renderLines, HeaderLine.render]

/-! ### The whole head -/

theorem mem_minorStartTail {b : Bool} {w : Bytes} :
    w ∈ minorStartTail b ↔
      ∃ minor lines, minor ≠ [] ∧ (∀ c ∈ minor, IsDigitByte c) ∧ LinesOk b lines ∧
        w = minor ++ (crlf ++ renderLines lines) := by
  rw [minorStartTail, Lang.mem_many1_iff]
  constructor
  · rintro ⟨minor, _, hne, hminor, hend, rfl⟩
    obtain ⟨lines, hlines, rfl⟩ := mem_lineEndTail.mp hend
    exact ⟨minor, lines, hne, hminor, hlines, rfl⟩
  · rintro ⟨minor, lines, hne, hminor, hlines, rfl⟩
    exact ⟨minor, _, hne, hminor, mem_lineEndTail.mpr ⟨lines, hlines, rfl⟩, rfl⟩

theorem mem_majorStartTail {b : Bool} {w : Bytes} :
    w ∈ majorStartTail b ↔
      ∃ major v, major ≠ [] ∧ (∀ c ∈ major, IsDigitByte c) ∧ v ∈ minorStartTail b ∧
        w = major ++ ch '.' :: v := by
  rw [majorStartTail, Lang.mem_many1_iff]
  constructor
  · rintro ⟨major, _, hne, hmajor, ⟨v, hv, rfl⟩, rfl⟩
    exact ⟨major, v, hne, hmajor, hv, rfl⟩
  · rintro ⟨major, v, hne, hmajor, hv, rfl⟩
    exact ⟨major, _, hne, hmajor, ⟨v, hv, rfl⟩, rfl⟩

/-- In the initial state the whole head is still to come. -/
theorem mem_tail_methodStart {w : Bytes} : w ∈ tail .methodStart false ↔ w ∈ requestLanguage := by
  rw [tail, Lang.mem_many1_iff]
  constructor
  · rintro ⟨method, _, hne, hmethod, ⟨_, ⟨uri, _, huri, ⟨_, hhttp, rfl⟩, rfl⟩, rfl⟩, rfl⟩
    obtain ⟨_, ⟨_, ⟨_, ⟨_, ⟨_, hversion, rfl⟩, rfl⟩, rfl⟩, rfl⟩, rfl⟩ := hhttp
    obtain ⟨major, _, hmajorNe, hmajor, hrest, rfl⟩ := mem_majorStartTail.mp hversion
    obtain ⟨minor, lines, hminorNe, hminor, hlines, rfl⟩ := mem_minorStartTail.mp hrest
    exact ⟨⟨method, uri, major, minor, lines, hne, hmethod, huri, hmajorNe, hmajor, hminorNe, hminor, hlines⟩,
      by simp [RequestHead.render, RequestHead.renderVersion, bytes]⟩
  · rintro ⟨h, rfl⟩
    have hminor : h.minor ++ (crlf ++ renderLines h.lines) ∈ minorStartTail false :=
      mem_minorStartTail.mpr ⟨h.minor, h.lines, h.minor_ne, h.minor_ok, h.lines_ok, rfl⟩
    have hmajor : h.major ++ ch '.' :: (h.minor ++ (crlf ++ renderLines h.lines)) ∈ majorStartTail false :=
      mem_majorStartTail.mpr ⟨h.major, _, h.major_ne, h.major_ok, hminor, rfl⟩
    refine ⟨h.method, _, h.method_ne, h.method_ok, ⟨_, ⟨h.uri, _, h.uri_ok, ⟨_, ?_, rfl⟩, rfl⟩, rfl⟩, rfl⟩
    refine ⟨_, ⟨_, ⟨_, ⟨_, ⟨_, hmajor, rfl⟩, rfl⟩, rfl⟩, rfl⟩, ?_⟩
    simp [RequestHead.renderVersion, bytes]

end WebServer
