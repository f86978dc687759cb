import WebServer.Maddy.Lists

/-!
# Quotes

A quote is a converter in the converter: what is left of a line goes to the parsers in the quote as a line of a text goes
to the parsers of the converter (`addLine_quote`). So a quote gives what its lines give without their marks, in one
element; but only if no block is open in it when the empty line comes that ends it (`Parser.parse_quote`).
-/

namespace WebServer

namespace Maddy

open Lib

variable {line : Bytes} {lines : List Bytes} {s : Bytes × BlockParser} {kind : Kind}

/-! ### A quote and the converter -/

/-- The parser of a quote, where the converter has come to `s` in what the quote contains. -/
def quoteParser (s : Bytes × BlockParser) : BlockParser :=
  .node .quote { isStarted := true, result := bytes "<blockquote>" ++ s.1 } s.2

theorem getBlockParserForLine_eq_none : getBlockParserForLine line = none ↔ line = [] := by
  constructor
  · intro h
    by_contra hne
    have hparagraph := ParagraphParser.isStartingLine_iff.mpr hne
    simp only [getBlockParserForLine, hparagraph, if_true] at h
    split_ifs at h
  · rintro rfl
    rfl

/-- Where a child is left open or ends, the converter does what a quote does. -/
theorem map_quoteParser (out : Bytes) (x : Except Fault BlockParser) :
    x.map (BlockParser.withChild .quote { isStarted := true, result := bytes "<blockquote>" ++ out }) =
      (x >>= fun p => .ok (if p.isFinished then (out ++ p.result, BlockParser.null) else (out, p))).map quoteParser := by
  cases x with
  | error e => rfl
  | ok p =>
      simp only [Except.map, bind, Except.bind, BlockParser.withChild]
      split_ifs <;> simp [quoteParser]

/-- What a quote does with a line is what the converter does with the line without its mark, unless the line ends the
quote. -/
theorem addLine_quote (hline : line ≠ [] ∨ s.2 ≠ .null) :
    BlockParser.addLine (quoteParser s) line = (Parser.parseLine s (QuoteParser.parseBlock line)).map quoteParser := by
  obtain ⟨out, child⟩ := s
  have hstart : BlockParser.startQuote .quote { isStarted := true, result := bytes "<blockquote>" ++ out } =
      { isStarted := true, result := bytes "<blockquote>" ++ out } := if_neg (by simp)
  have hparse : Kind.quote.parseBlock (BlockParser.startQuote .quote { isStarted := true, result := bytes "<blockquote>" ++ out })
      line = .ok ({ isStarted := true, result := bytes "<blockquote>" ++ out }, QuoteParser.parseBlock line) := by
    rw [hstart]
    rfl
  cases child with
  | null =>
      cases hnew : getBlockParserForLine (QuoteParser.parseBlock line) with
      | none =>
          have hempty := getBlockParserForLine_eq_none.mp hnew
          have hline : line ≠ [] := hline.resolve_right fun hnull => hnull rfl
          rw [quoteParser, BlockParser.addLine_append (by decide) hparse hnew, hempty]
          simp [BlockParser.appendLine, BlockParser.finishQuote, hline, Kind.isLineParserAllowed, runLineParser_nil,
            Parser.parseLine_empty, Except.map, quoteParser]
      | some new =>
          rw [quoteParser, BlockParser.addLine_new (by decide) hparse hnew, map_quoteParser]
          simp only [Parser.parseLine, hnew, BlockParser.newParser]
  | node kind g child =>
      rw [quoteParser, BlockParser.addLine_child (by decide) hparse, map_quoteParser]
      rfl

/-- The parser of a quote that has ended. -/
def quoteEnd (out : Bytes) : BlockParser :=
  .node .quote { isStarted := true, isFinished := true, result := bytes "<blockquote>" ++ out ++ bytes "</blockquote>" } .null

/-- The empty line behind a quote in which no block is open. -/
theorem addLine_quoteEnd (out : Bytes) : BlockParser.addLine (quoteParser (out, .null)) [] = .ok (quoteEnd out) := by
  have hstart : BlockParser.startQuote .quote { isStarted := true, result := bytes "<blockquote>" ++ out } =
      { isStarted := true, result := bytes "<blockquote>" ++ out } := if_neg (by simp)
  have hadd : (BlockParser.node .quote { isStarted := true, result := bytes "<blockquote>" ++ out } .null).addLine [] =
      .ok (BlockParser.appendLine .quote true { isStarted := true, result := bytes "<blockquote>" ++ out } []) :=
    BlockParser.addLine_append (by decide) (by rw [hstart]; rfl) rfl
  rw [quoteParser, hadd]
  simp [BlockParser.appendLine, BlockParser.finishQuote, Kind.isLineParserAllowed, runLineParser_nil, quoteEnd]

/-- The first line of a quote. -/
theorem addLine_firstQuote (line : Bytes) :
    BlockParser.addLine (.node .quote {} .null) line = BlockParser.addLine (quoteParser ([], .null)) line := by
  have hstart : BlockParser.startQuote .quote {} =
      BlockParser.startQuote .quote { isStarted := true, result := bytes "<blockquote>" ++ [] } := by
    simp [BlockParser.startQuote]
  change BlockParser.addLineWith _ _ _ =
    BlockParser.addLineWith _ (.node .quote { isStarted := true, result := bytes "<blockquote>" ++ [] } .null) line
  rw [BlockParser.addLineWith, BlockParser.addLineWith, if_neg (by decide), if_neg (by decide), hstart]

namespace Parser

open BlockParser

theorem getBlockParserForLine_quote (h : QuoteParser.isStartingLine line = true) :
    getBlockParserForLine line = some .quote := by
  obtain ⟨t, rfl, -⟩ := QuoteParser.isStartingLine_iff.mp h
  have hhead : ∀ w : Bytes, w.head? ≠ some (ch '>') → ch '>' :: t ≠ w := by
    rintro _ hw rfl
    exact hw rfl
  have hcode : CodeBlockParser.isStartingLine (ch '>' :: t) = false := by
    rw [← Bool.not_eq_true, CodeBlockParser.isStartingLine_iff]
    exact hhead _ (by decide)
  have hheadline : HeadlineParser.isStartingLine (ch '>' :: t) = false := by
    rw [← Bool.not_eq_true, HeadlineParser.isStartingLine_iff]
    rintro ⟨n, t', h1, -, hline, -⟩
    obtain ⟨k, rfl⟩ : ∃ k, n = k + 1 := ⟨n - 1, by omega⟩
    exact hhead _ (by simp [hashes, List.replicate_succ]; decide) hline
  have hrule : HorizontalLineParser.isStartingLine (ch '>' :: t) = false := by
    rw [← Bool.not_eq_true, HorizontalLineParser.isStartingLine_iff]
    exact hhead _ (by decide)
  simp [getBlockParserForLine, hcode, hheadline, hrule, h]

theorem parseLine_quoteParser (out : Bytes) (s : Bytes × BlockParser) (line : Bytes) :
    parseLine (out, quoteParser s) line = (addLine (quoteParser s) line >>= fun p =>
      .ok (if p.isFinished then (out ++ p.result, BlockParser.null) else (out, p))) := rfl

/-- A line in a quote. -/
theorem parseLine_quote (hline : line ≠ [] ∨ s.2 ≠ .null) (out : Bytes) :
    parseLine (out, quoteParser s) line =
      (parseLine s (QuoteParser.parseBlock line)).map fun s => (out, quoteParser s) := by
  rw [parseLine_quoteParser, addLine_quote hline]
  cases parseLine s (QuoteParser.parseBlock line) <;> rfl

/-- The lines of a quote. -/
theorem foldlM_quoteLines (hlines : ∀ l ∈ lines, l ≠ []) (out : Bytes) (s : Bytes × BlockParser) :
    lines.foldlM parseLine (out, quoteParser s) =
      ((lines.map QuoteParser.parseBlock).foldlM parseLine s).map fun s => (out, quoteParser s) := by
  induction lines generalizing s with
  | nil => rfl
  | cons l lines ih =>
      obtain ⟨hl, hlines⟩ := List.forall_mem_cons.mp hlines
      rw [List.foldlM_cons, List.map_cons, List.foldlM_cons, parseLine_quote (.inl hl)]
      cases parseLine s (QuoteParser.parseBlock l) with
      | error e => rfl
      | ok s' => exact ih hlines s'

/-- The lines of a quote, from the first one on. -/
theorem foldlM_quote (hne : lines ≠ []) (hlines : ∀ l ∈ lines, l ≠ [])
    (hfirst : ∀ l, lines.head? = some l → QuoteParser.isStartingLine l = true) (out : Bytes) :
    lines.foldlM parseLine (out, .null) =
      ((lines.map QuoteParser.parseBlock).foldlM parseLine ([], .null)).map fun s => (out, quoteParser s) := by
  obtain ⟨l, lines, rfl⟩ := List.exists_cons_of_ne_nil hne
  have hnew := getBlockParserForLine_quote (hfirst l rfl)
  have hstep : parseLine (out, .null) l = parseLine (out, quoteParser ([], .null)) l := by
    rw [parseLine_new hnew, parseLine_quoteParser, ← addLine_firstQuote]
    rfl
  rw [← foldlM_quoteLines hlines out ([], .null), List.foldlM_cons, hstep, List.foldlM_cons]

/-- The empty line behind a quote in which no block is open. -/
theorem parseLine_quoteEnd (out out' : Bytes) : parseLine (out, quoteParser (out', .null)) [] =
    .ok (out ++ (bytes "<blockquote>" ++ out' ++ bytes "</blockquote>"), .null) := by
  rw [parseLine_quoteParser, addLine_quoteEnd]
  rfl

end Parser

end Maddy

end WebServer
