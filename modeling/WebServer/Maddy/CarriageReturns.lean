import WebServer.Handler.StaticContent
import WebServer.Maddy.Blocks

/-!
# Lines that end with carriage returns

`std::getline` leaves the carriage return of a line in the line, and a `.` of an expression does not match it. So in a
text whose lines end with CRLF no line starts a headline, a list, a table, a quote or a code block, and none is empty:
the whole text is one paragraph (`Parser.parse_crlf`). The static handler makes such a text of every file that it takes
for text and whose path contains `.md` (`StaticRequestHandler.handleRequest_markdown_text`).
-/

namespace WebServer

namespace Maddy

open Lib

variable {line : Bytes} {lines : List Bytes} {f : Fields}

/-- A line with a carriage return can only start a paragraph. -/
theorem getBlockParserForLine_of_cr (h : cr ∈ line) : getBlockParserForLine line = some .paragraph := by
  have hdots : ∀ {w t : Bytes}, line = w ++ t → cr ∉ w → ¬ ∀ c ∈ t, IsDot c := by
    rintro w t rfl hw ht
    exact (List.mem_append.mp h).elim hw fun hcr => (ht cr hcr).2 rfl
  have hcode : CodeBlockParser.isStartingLine line = false := by
    rw [← Bool.not_eq_true, CodeBlockParser.isStartingLine_iff]
    rintro rfl
    exact absurd h (by decide)
  have hheadline : HeadlineParser.isStartingLine line = false := by
    rw [← Bool.not_eq_true, HeadlineParser.isStartingLine_iff]
    rintro ⟨n, t, -, -, hline, ht⟩
    refine hdots hline ?_ ht
    have hhash : cr ≠ ch '#' ∧ cr ≠ sp := by decide
    simp [hashes, List.mem_replicate, bytes, hhash.1, hhash.2]
  have hrule : HorizontalLineParser.isStartingLine line = false := by
    rw [← Bool.not_eq_true, HorizontalLineParser.isStartingLine_iff]
    rintro rfl
    exact absurd h (by decide)
  have hquote : QuoteParser.isStartingLine line = false := by
    rw [← Bool.not_eq_true, QuoteParser.isStartingLine_iff]
    rintro ⟨t, hline, ht⟩
    exact hdots (w := [ch '>']) hline (by decide) ht
  have htable : TableParser.isStartingLine line = false := by
    rw [← Bool.not_eq_true, TableParser.isStartingLine_iff]
    rintro rfl
    exact absurd h (by decide)
  have hcheck : ChecklistParser.isStartingLine line = false := by
    rw [← Bool.not_eq_true, ChecklistParser.isStartingLine_iff]
    rintro ⟨c, t, hc, hline, ht⟩
    have hw : cr ∉ bytes "- [" ++ c :: bytes "] " := by rcases hc with rfl | rfl | rfl <;> decide
    exact hdots (by simpa using hline) hw ht
  have hordered : OrderedListParser.isStartingLine line = false := by
    rw [← Bool.not_eq_true, OrderedListParser.isStartingLine_iff]
    rintro ⟨t, hline, ht⟩
    exact hdots hline (by decide) ht
  have hunordered : UnorderedListParser.isStartingLine line = false := by
    rw [← Bool.not_eq_true, UnorderedListParser.isStartingLine_iff]
    rintro ⟨c, t, hc, hline, ht⟩
    have hw : cr ∉ c :: bytes " " := by
      have hbullet : c = ch '+' ∨ c = ch '*' ∨ c = ch '-' := by simpa [isBullet, or_assoc] using hc
      rcases hbullet with rfl | rfl | rfl <;> decide
    exact hdots (w := c :: bytes " ") hline hw ht
  have hparagraph : ParagraphParser.isStartingLine line = true :=
    ParagraphParser.isStartingLine_iff.mpr (List.ne_nil_of_mem h)
  simp [getBlockParserForLine, hcode, hheadline, hrule, hquote, htable, hcheck, hordered, hunordered, hparagraph]

namespace Parser

/-- A text whose lines end with CRLF is one paragraph, whatever is in its lines. -/
theorem parse_crlf (hne : lines ≠ []) (hlines : ∀ l ∈ lines, lf ∉ l) :
    parse (withEnds crlf lines) = .ok (paragraphHtml (lines.map (· ++ [cr]))) := by
  have hends : withEnds crlf lines = withEnds [lf] (lines.map (· ++ [cr])) := by simp [withEnds, List.flatMap_map]
  have hsplit : getlines lf (withEnds crlf lines) = lines.map (· ++ [cr]) := by
    rw [hends]
    refine getlines_withEnds_self fun l hl => ?_
    obtain ⟨l', hl', rfl⟩ := List.mem_map.mp hl
    have hcr : lf ≠ cr := by decide
    simp [hlines l' hl', hcr]
  obtain ⟨l, rest, rfl⟩ := List.exists_cons_of_ne_nil hne
  have hcr : cr ∈ l ++ [cr] := by simp
  have hfirst := getBlockParserForLine_of_cr hcr
  have hrest : ∀ l ∈ rest.map (· ++ [cr]), l ≠ [] := by simp
  rw [parse_eq, hsplit, List.map_cons, List.cons_append, foldlM_paragraph_block hfirst hrest]
  rfl

/-- The page of a text, as the handlers ask for it; what a failure gives is left open in the source. -/
def html (markdown : Bytes) : Bytes :=
  match parse markdown with
  | .ok page => page
  | .error _ => []

end Parser

end Maddy

namespace StaticRequestHandler

open Maddy

/-- The lines of a file that is taken for text get CRLF for their ends. -/
theorem replaceAll_lines (content : Bytes) :
    replaceAll content [lf] crlf ++ crlf = withEnds crlf (getlines lf (content ++ [lf])) := by
  obtain ⟨htext, hlines⟩ := withEnds_getlines lf content
  generalize getlines lf (content ++ [lf]) = lines at htext hlines ⊢
  have hmap : ∀ text : Bytes, replaceAll text [lf] crlf ++ crlf = replaceAll (text ++ [lf]) [lf] crlf := by
    intro text
    simp [replaceAll_singleton]
  have hline : ∀ l ∈ lines, ((l ++ [lf]).flatMap fun c => if c = lf then crlf else [c]) = l ++ crlf := by
    intro l hl
    have hself : (l.flatMap fun c => if c = lf then crlf else [c]) = l := by
      rw [← replaceAll_singleton, replaceAll_of_notMem (hlines l hl)]
    simp [hself]
  rw [hmap, ← htext, replaceAll_singleton, withEnds, List.flatMap_assoc, List.flatMap_congr hline]
  rfl

/-- The page of a content as one paragraph. -/
def paragraphPage (content : Bytes) : Bytes := Parser.paragraphHtml ((getlines lf (content ++ [lf])).map (· ++ [cr]))

theorem fileReply_eq_paragraph {path : Bytes} (hmd : bytes ".md" <:+: path)
    (htext : setContentType path = bytes "text/html" ∨ setContentType path = bytes "text/plain") (content : Bytes) :
    fileReply Parser.html path content =
      Reply.withBody StatusCode.ok (bytes "text/html") (paragraphPage content) (paragraphPage content).length := by
  obtain ⟨hends, hlines⟩ := withEnds_getlines lf content
  have hne : getlines lf (content ++ [lf]) ≠ [] := by
    intro hnil
    rw [hnil] at hends
    simp at hends
  have hpage : Parser.html (replaceAll content [lf] crlf ++ crlf) = paragraphPage content := by
    rw [replaceAll_lines, Parser.html, Parser.parse_crlf hne hlines]
    rfl
  simp only [fileReply, if_pos htext, if_pos hmd, hpage]

/-- A file that is taken for text and whose path contains `.md` is answered with one paragraph. -/
theorem handleRequest_markdown_text (h : StaticRequestHandler) (files : FileSystem) (req : Request) (content : Bytes)
    (hfile : files.isRegularFile (h.filePath req.uri) = true) (hread : files.read (h.filePath req.uri) = some content)
    (hmd : bytes ".md" <:+: h.filePath req.uri)
    (htext : setContentType (h.filePath req.uri) = bytes "text/html" ∨
      setContentType (h.filePath req.uri) = bytes "text/plain") :
    h.handleRequest files Parser.html req =
      Reply.withBody StatusCode.ok (bytes "text/html") (paragraphPage content) (paragraphPage content).length := by
  rw [← fileReply_eq_paragraph hmd htext content, handleRequest]
  simp only [hfile, if_true, hread]

/-- A headline and a list in a file for notes. -/
theorem handleRequest_markdown_text_notes :
    (filesHandler.handleRequest (sameContent (bytes "# a\n* b")) Parser.html
      (staticRequest (bytes "/static/notes.md.txt"))).body = bytes "<p># a<br> * b<br> </p>" := by
  rw [handleRequest_markdown_text filesHandler (sameContent (bytes "# a\n* b")) (staticRequest (bytes "/static/notes.md.txt"))
    (bytes "# a\n* b") rfl rfl (by decide +kernel) (.inr (by decide +kernel))]
  decide +kernel

end StaticRequestHandler

end WebServer
