import WebServer.Bytes
import WebServer.Lib.Regex

/-!
# The line parsers of the markdown converter

The parsers that put the marks inside a line of markdown into HTML, each a `regex_replace`, and `runLineParser`,
which runs them one after the other. A `.` of an expression is a byte that is no line feed and no carriage return.
-/

namespace WebServer

namespace Maddy

open Lib

/-- `.`. -/
def dot : Regex UInt8 := .one fun c => c != lf && c != cr

/-- `.*`. -/
def dots : Regex UInt8 := .star dot

/-- `[^c]*`. -/
def butNot (c : UInt8) : Regex UInt8 := .star (.one fun d => d != c)

section

variable {a b : Place UInt8} {c : UInt8}

/-- The bytes that a `.` stands for. -/
abbrev IsDot (c : UInt8) : Prop := c ≠ lf ∧ c ≠ cr

theorem matches_dots : Regex.Matches dots a b ↔ ∃ w rest, a.rest = w ++ rest ∧ (∀ c ∈ w, IsDot c) ∧ b = a.after w rest := by
  simp [dots, dot, Regex.matches_star_one, IsDot]

theorem matches_butNot :
    Regex.Matches (butNot c) a b ↔ ∃ w rest, a.rest = w ++ rest ∧ c ∉ w ∧ b = a.after w rest := by
  rw [butNot, Regex.matches_star_one]
  refine exists_congr fun w => exists_congr fun rest => and_congr_right fun _ => and_congr_left fun _ => ?_
  simp only [bne_iff_ne, ne_eq]
  exact ⟨fun h hc => h c hc rfl, fun h d hd hdc => h (hdc ▸ hd)⟩

theorem matches_capture {i : Nat} : Regex.Matches (.group i (butNot c)) a b ↔
    ∃ w rest, a.rest = w ++ rest ∧ c ∉ w ∧ b = ⟨a.atStart && w.isEmpty, rest, (i, w) :: a.groups⟩ := by
  simp only [Regex.Matches, matches_butNot]
  constructor
  · rintro ⟨m, ⟨w, rest, hrest, hw, rfl⟩, rfl⟩
    exact ⟨w, rest, hrest, hw, by rw [Regex.between_after hrest]; rfl⟩
  · rintro ⟨w, rest, hrest, hw, rfl⟩
    exact ⟨a.after w rest, ⟨w, rest, hrest, hw, rfl⟩, by rw [Regex.between_after hrest]; rfl⟩

end

/-- A replacement: its text, in which `$1` and `$2` are the groups. -/
abbrev Replacement := List (Piece UInt8)

/-! ### Images and links -/

/-- A word, `([^\]]*)`, `\]\(`, `([^\]]*)` and `\)`. -/
def bracketed (opener : Bytes) : Regex UInt8 :=
  .seq (Regex.word opener) <| .seq (.group 1 (butNot (ch ']'))) <| .seq (Regex.word (bytes "](")) <|
    .seq (.group 2 (butNot (ch ']'))) (Regex.word (bytes ")"))

theorem bracketed_consumes (opener : Bytes) : (bracketed opener).consumes = true := by
  have hmid : (Regex.word (bytes "](")).consumes = true := Regex.consumes_word (by simp [bytes])
  simp [bracketed, Regex.consumes, hmid]

namespace ImageParser

/-- `re`: `\!\[([^\]]*)\]\(([^\]]*)\)`. -/
def re : Pattern UInt8 := ⟨bracketed (bytes "!["), bracketed_consumes _⟩

def replacement : Replacement :=
  [.text (bytes "<img src=\""), .captured 2, .text (bytes "\" alt=\""), .captured 1, .text (bytes "\"/>")]

/-- `ImageParser::Parse`. -/
def parse (line : Bytes) : Bytes := re.replace replacement line

end ImageParser

namespace LinkParser

/-- `re`: `\[([^\]]*)\]\(([^\]]*)\)`. -/
def re : Pattern UInt8 := ⟨bracketed (bytes "["), bracketed_consumes _⟩

def replacement : Replacement :=
  [.text (bytes "<a href=\""), .captured 2, .text (bytes "\">"), .captured 1, .text (bytes "</a>")]

/-- `LinkParser::Parse`. -/
def parse (line : Bytes) : Bytes := re.replace replacement line

end LinkParser

/-! ### Spans -/

/-- A replacement with one group between two tags. -/
def tagged (opener closer : String) : Replacement := [.text (bytes opener), .captured 1, .text (bytes closer)]

/-- "(?!.*`.*|.*tag.*)". -/
def noCodeAhead (tag : Bytes) : Regex UInt8 :=
  .notAhead (.alt (.seq dots (.seq (Regex.word (bytes "`")) dots)) (.seq dots (.seq (Regex.word tag) dots)))

/-- A mark, `([^c]*)` and the mark again, with no code ahead of the first mark, nor behind either of the marks. -/
def span (mark : Bytes) (c : UInt8) : Regex UInt8 :=
  .seq (noCodeAhead (bytes "<code>")) <| .seq (Regex.word mark) <| .seq (noCodeAhead (bytes "</code>")) <|
    .seq (.group 1 (butNot c)) <| .seq (Regex.word mark) (noCodeAhead (bytes "</code>"))

theorem span_consumes {mark : Bytes} (hmark : mark ≠ []) (c : UInt8) : (span mark c).consumes = true := by
  simp [span, Regex.consumes, Regex.consumes_word hmark]

namespace StrongParser

theorem stars_ne_nil : bytes "**" ≠ [] := by simp [bytes]

theorem lowLines_ne_nil : bytes "__" ≠ [] := by simp [bytes]

/-- `res`. The classes `[^\*\*]` and `[^__]` name their byte twice. -/
def res : List (Pattern UInt8) :=
  [⟨span (bytes "**") (ch '*'), span_consumes stars_ne_nil _⟩, ⟨span (bytes "__") (ch '_'), span_consumes lowLines_ne_nil _⟩]

def replacement : Replacement := tagged "<strong>" "</strong>"

/-- `StrongParser::Parse`. -/
def parse (line : Bytes) : Bytes := res.foldl (fun line re => re.replace replacement line) line

end StrongParser

namespace EmphasizedParser

theorem mark_ne_nil : bytes "_" ≠ [] := by simp [bytes]

def re : Pattern UInt8 := ⟨span (bytes "_") (ch '_'), span_consumes mark_ne_nil _⟩

def replacement : Replacement := tagged "<em>" "</em>"

/-- `EmphasizedParser::Parse`. -/
def parse (line : Bytes) : Bytes := re.replace replacement line

end EmphasizedParser

namespace StrikeThroughParser

theorem mark_ne_nil : bytes "~~" ≠ [] := by simp [bytes]

def re : Pattern UInt8 := ⟨span (bytes "~~") (ch '~'), span_consumes mark_ne_nil _⟩

def replacement : Replacement := tagged "<s>" "</s>"

/-- `StrikeThroughParser::Parse`. -/
def parse (line : Bytes) : Bytes := re.replace replacement line

end StrikeThroughParser

namespace InlineCodeParser

/-- "`([^`]*)`". -/
def expr : Regex UInt8 :=
  .seq (Regex.word (bytes "`")) (.seq (.group 1 (butNot (ch '`'))) (Regex.word (bytes "`")))

theorem expr_consumes : expr.consumes = true := by
  have hmark : (Regex.word (bytes "`")).consumes = true := Regex.consumes_word (by simp [bytes])
  simp [expr, Regex.consumes, hmark]

def re : Pattern UInt8 := ⟨expr, expr_consumes⟩

def replacement : Replacement := tagged "<code>" "</code>"

/-- `InlineCodeParser::Parse`. -/
def parse (line : Bytes) : Bytes := re.replace replacement line

end InlineCodeParser

namespace ItalicParser

theorem mark_ne_nil : bytes "*" ≠ [] := by simp [bytes]

def re : Pattern UInt8 := ⟨span (bytes "*") (ch '*'), span_consumes mark_ne_nil _⟩

def replacement : Replacement := tagged "<i>" "</i>"

/-- `ItalicParser::Parse`. -/
def parse (line : Bytes) : Bytes := re.replace replacement line

end ItalicParser

namespace BreakLineParser

/-- `(\r\n|\r)`. -/
def expr : Regex UInt8 := .group 1 (.alt (Regex.word crlf) (Regex.word [cr]))

theorem expr_consumes : expr.consumes = true := by simp [expr, Regex.consumes, Regex.word]

def re : Pattern UInt8 := ⟨expr, expr_consumes⟩

def replacement : Replacement := [.text (bytes "<br>")]

/-- `BreakLineParser::Parse`. -/
def parse (line : Bytes) : Bytes := re.replace replacement line

end BreakLineParser

/-- `Parser::runLineParser`, with the parser's default configuration. -/
def runLineParser (line : Bytes) : Bytes :=
  let line := ImageParser.parse line
  let line := LinkParser.parse line
  let line := StrongParser.parse line
  let line := EmphasizedParser.parse line
  let line := StrikeThroughParser.parse line
  let line := InlineCodeParser.parse line
  let line := ItalicParser.parse line
  BreakLineParser.parse line

/-! ### Where a mark can start -/

theorem span_starts (d m c : UInt8) (w : Bytes) : (span (m :: w) c).starts d = decide (d = m) := by
  simp [span, noCodeAhead, Regex.starts, Regex.consumes, Regex.word]

theorem code_starts (d : UInt8) : InlineCodeParser.re.regex.starts d = decide (d = ch '`') := by
  simp [InlineCodeParser.re, InlineCodeParser.expr, bytes, Regex.starts, Regex.consumes, Regex.word]

theorem code_bolFree : InlineCodeParser.re.regex.bolFree = true := by decide

theorem link_starts (d : UInt8) : LinkParser.re.regex.starts d = decide (d = ch '[') := by
  simp [LinkParser.re, bracketed, bytes, Regex.starts, Regex.consumes, Regex.word]

theorem link_bolFree : LinkParser.re.regex.bolFree = true := by decide

theorem image_bolFree : ImageParser.re.regex.bolFree = true := by decide

theorem image_starts (d : UInt8) : ImageParser.re.regex.starts d = decide (d = ch '!') := by
  simp [ImageParser.re, bracketed, bytes, Regex.starts, Regex.consumes, Regex.word]

theorem breakLine_starts (d : UInt8) : BreakLineParser.re.regex.starts d = decide (d = cr) := by
  simp [BreakLineParser.re, BreakLineParser.expr, Regex.starts, Regex.consumes, Regex.word]

/-- The bytes that a mark starts with. -/
def lineMarks : Bytes := bytes "![*_~`" ++ [cr]

/-- The line parsers leave a text without marks as it is, whatever follows it. -/
theorem runLineParser_append {pre : Bytes} (h : ∀ c ∈ pre, c ∉ lineMarks) (post : Bytes) :
    runLineParser (pre ++ post) = pre ++ runLineParser post := by
  have hne : ∀ m ∈ lineMarks, ∀ c ∈ pre, decide (c = m) = false := by
    intro m hm c hc
    rw [decide_eq_false_iff_not]
    rintro rfl
    exact h c hc hm
  have himage := fun c hc => (image_starts c).trans (hne (ch '!') (by decide) c hc)
  have hlink := fun c hc => (link_starts c).trans (hne (ch '[') (by decide) c hc)
  have hstar := fun w e c hc => (span_starts c (ch '*') e w).trans (hne (ch '*') (by decide) c hc)
  have hline := fun w e c hc => (span_starts c (ch '_') e w).trans (hne (ch '_') (by decide) c hc)
  have htilde := fun w e c hc => (span_starts c (ch '~') e w).trans (hne (ch '~') (by decide) c hc)
  have hcode := fun c hc => (code_starts c).trans (hne (ch '`') (by decide) c hc)
  have hbreak := fun c hc => (breakLine_starts c).trans (hne cr (by decide) c hc)
  simp only [runLineParser, ImageParser.parse, LinkParser.parse, StrongParser.parse, StrongParser.res, List.foldl_cons,
    List.foldl_nil, EmphasizedParser.parse, StrikeThroughParser.parse, InlineCodeParser.parse, ItalicParser.parse,
    BreakLineParser.parse]
  rw [Pattern.replace_append image_bolFree himage, Pattern.replace_append link_bolFree hlink,
    Pattern.replace_append rfl (hstar _ _), Pattern.replace_append rfl (hline _ _),
    Pattern.replace_append rfl (hline _ _), Pattern.replace_append rfl (htilde _ _),
    Pattern.replace_append code_bolFree hcode, Pattern.replace_append rfl (hstar _ _),
    Pattern.replace_append rfl hbreak]

theorem runLineParser_nil : runLineParser [] = [] := rfl

theorem runLineParser_eq_self {line : Bytes} (h : ∀ c ∈ line, c ∉ lineMarks) : runLineParser line = line := by
  have happend := runLineParser_append h []
  rwa [List.append_nil, runLineParser_nil, List.append_nil] at happend

end Maddy

end WebServer
