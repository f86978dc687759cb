import WebServer.Maddy.Tables

/-!
# Blocks

What the converter makes of the lines of one block, from its first line to the line that ends it: a paragraph, a
headline, a horizontal line, a code block, a table.
-/

namespace WebServer

namespace Maddy

open Lib

variable {line l t : Bytes} {lines : List Bytes} {f : Fields}

/-! ### Paragraphs -/

/-- What a paragraph makes of a line. -/
theorem addLine_paragraph (f : Fields) (line : Bytes) :
    (BlockParser.node .paragraph f .null).addLine line = .ok (BlockParser.appendLine .paragraph line.isEmpty
      (ParagraphParser.parseBlock f line).1 (ParagraphParser.parseBlock f line).2) :=
  BlockParser.addLine_append (by decide) rfl rfl

theorem addLine_firstOfParagraph (line : Bytes) : (BlockParser.node .paragraph {} .null).addLine line =
    .ok (.node .paragraph { isStarted := true, result := bytes "<p>" ++ runLineParser (line ++ bytes " ") } .null) := by
  have htag : runLineParser (bytes "<p>" ++ (line ++ bytes " ")) = bytes "<p>" ++ runLineParser (line ++ bytes " ") :=
    runLineParser_append (by decide +kernel) _
  simp [addLine_paragraph, ParagraphParser.parseBlock, BlockParser.appendLine, BlockParser.finishQuote,
    Kind.isLineParserAllowed, htag]

theorem addLine_restOfParagraph (hstarted : f.isStarted = true) (hline : line ≠ []) :
    (BlockParser.node .paragraph f .null).addLine line =
      .ok (.node .paragraph { f with result := f.result ++ runLineParser (line ++ bytes " ") } .null) := by
  simp [addLine_paragraph, ParagraphParser.parseBlock, hstarted, hline, BlockParser.appendLine, BlockParser.finishQuote,
    Kind.isLineParserAllowed]

theorem addLine_endOfParagraph (hstarted : f.isStarted = true) : (BlockParser.node .paragraph f .null).addLine [] =
    .ok (.node .paragraph { f with isFinished := true, result := f.result ++ bytes "</p>" } .null) := by
  have htag : runLineParser (bytes "</p>") = bytes "</p>" := runLineParser_eq_self (by decide +kernel)
  simp [addLine_paragraph, ParagraphParser.parseBlock, hstarted, BlockParser.appendLine, BlockParser.finishQuote,
    Kind.isLineParserAllowed, htag]

namespace Parser

open BlockParser

/-- A paragraph goes on with every line that is not empty. -/
theorem foldlM_paragraph (hlines : ∀ l ∈ lines, l ≠ []) (out : Bytes) (hstarted : f.isStarted = true)
    (hfinished : f.isFinished = false) : lines.foldlM parseLine (out, .node .paragraph f .null) =
      .ok (out, .node .paragraph { f with result := f.result ++ lines.flatMap fun l => runLineParser (l ++ bytes " ") } .null) := by
  induction lines generalizing f with
  | nil => simp [pure, Except.pure]
  | cons l lines ih =>
      obtain ⟨hl, hlines⟩ := List.forall_mem_cons.mp hlines
      have hstep : parseLine (out, .node .paragraph f .null) l =
          .ok (out, .node .paragraph { f with result := f.result ++ runLineParser (l ++ bytes " ") } .null) :=
        parseLine_of_open (addLine_restOfParagraph hstarted hl) hfinished out
      rw [List.foldlM_cons, Lib.bind_eq_of_ok hstep,
        ih (f := { f with result := f.result ++ runLineParser (l ++ bytes " ") }) hlines hstarted hfinished]
      simp

/-- The HTML of a paragraph. -/
def paragraphHtml (lines : List Bytes) : Bytes :=
  bytes "<p>" ++ (lines.flatMap fun l => runLineParser (l ++ bytes " ")) ++ bytes "</p>"

/-- A paragraph up to the empty line behind it. -/
theorem foldlM_paragraph_block {l : Bytes} (hfirst : getBlockParserForLine l = some .paragraph) (hlines : ∀ l ∈ lines, l ≠ [])
    (out : Bytes) :
    (l :: (lines ++ [[]])).foldlM parseLine (out, .null) = .ok (out ++ paragraphHtml (l :: lines), .null) := by
  have hstart : parseLine (out, .null) l = .ok (out, .node .paragraph
      { isStarted := true, result := bytes "<p>" ++ runLineParser (l ++ bytes " ") } .null) := by
    rw [parseLine_new hfirst]
    exact parseLine_of_open (addLine_firstOfParagraph l) rfl out
  have hfinish : ∀ f : Fields, f.isStarted = true → parseLine (out, .node .paragraph f .null) [] =
      .ok (out ++ (f.result ++ bytes "</p>"), .null) :=
    fun f hf => parseLine_of_finished (addLine_endOfParagraph hf) rfl out
  rw [List.foldlM_cons, Lib.bind_eq_of_ok hstart, List.foldlM_append, Lib.bind_eq_of_ok (foldlM_paragraph hlines out rfl rfl),
    List.foldlM_cons, Lib.bind_eq_of_ok (hfinish _ rfl)]
  simp [paragraphHtml, pure, Except.pure]

/-! ### Headlines and horizontal lines -/

/-- The HTML of a headline. -/
def headlineHtml (digit : String) (text : Bytes) : Bytes :=
  bytes ("<h" ++ digit ++ ">") ++ text ++ bytes ("</h" ++ digit ++ ">")

theorem hashes_inj {m n : Nat} {t t' : Bytes} (h : hashes m ++ t = hashes n ++ t') : m = n := by
  have hcount : ∀ (k : Nat) (t : Bytes), ((hashes k ++ t).takeWhile (· == ch '#')).length = k := by
    intro k t
    induction k with
    | zero => rfl
    | succ k ih => simpa [hashes, List.replicate_succ] using ih
  rw [← hcount m t, h, hcount n t']

theorem hashes_append (n : Nat) (t : Bytes) :
    hashes n ++ t = (List.replicate n (bytes "#")).flatten ++ (bytes " " ++ t) := by simp [hashes, bytes]

theorem headline_of_ne {m n : Nat} (hne : m ≠ n) (digit : String) (t : Bytes) :
    replaceFront (HeadlineParser.numbered m) (HeadlineParser.numbered_consumes m) (HeadlineParser.replacement digit)
      (hashes n ++ t) = hashes n ++ t := by
  refine replaceFront_of_forall_not _ _ fun b hb => hne ?_
  obtain ⟨m₁, hm₁, m₂, hm₂, -⟩ := hb
  obtain ⟨rest₁, hrest₁, rfl⟩ := Regex.matches_times_word.mp hm₁
  obtain ⟨rest₂, hrest₂, -⟩ := Regex.matches_word.mp hm₂
  rw [Place.after_rest] at hrest₂
  have hline : hashes n ++ t = hashes m ++ rest₂ := by
    rw [hashes_append m, ← hrest₂]
    exact hrest₁
  exact (hashes_inj hline).symm

theorem headline_of_eq (n : Nat) (digit : String) (ht : ∀ c ∈ t, IsDot c) :
    replaceFront (HeadlineParser.numbered n) (HeadlineParser.numbered_consumes n) (HeadlineParser.replacement digit)
      (hashes n ++ t) = headlineHtml digit t := by
  have hdot : ∀ c ∈ t, (c != lf && c != cr) = true := by
    intro c hc
    obtain ⟨hlf, hcr⟩ := ht c hc
    simp [hlf, hcr]
  have hdots : ∀ a : Place UInt8, a.rest = t → Regex.first? dots a = some (a.after t []) := by
    rintro a rfl
    rw [dots, dot, Regex.first?_star_one, List.takeWhile_eq_self_iff.mpr hdot, List.dropWhile_eq_nil_iff.mpr hdot]
  have hgroup : ∀ a : Place UInt8, a.rest = t →
      Regex.first? (.group 1 dots) a = some ⟨(a.after t []).atStart, [], (1, t) :: a.groups⟩ := by
    intro a ha
    rw [Regex.first?_group (hdots a ha), Regex.between_after (by simpa using ha)]
    rfl
  have htimes : ∀ a : Place UInt8, a.rest = hashes n ++ t → Regex.first? (Regex.times (Regex.word (bytes "#")) n) a =
      some (a.after (List.replicate n (bytes "#")).flatten (bytes " " ++ t)) := by
    intro a ha
    rw [hashes_append] at ha
    refine Regex.first?_eq_some (Regex.matches_times_word.mpr ⟨_, ha, rfl⟩) fun b' hb' => ?_
    obtain ⟨rest', hrest', rfl⟩ := Regex.matches_times_word.mp hb'
    rw [List.append_cancel_left (ha.symm.trans hrest')]
  obtain ⟨s, hfirst⟩ : ∃ s, Regex.first? (.seq .bol (HeadlineParser.numbered n)) ⟨true, hashes n ++ t, []⟩ =
      some ⟨s, [], [(1, t)]⟩ := by
    exact ⟨_, Regex.first?_seq rfl (Regex.first?_seq (htimes _ rfl) (Regex.first?_seq (Regex.first?_word rfl)
      (hgroup _ rfl)))⟩
  rw [replaceFront, Pattern.replace_anchored_of_some rfl hfirst]
  simp [fill, HeadlineParser.replacement, tagged, headlineHtml]

/-- A headline. -/
theorem parseBlock_headline {level : Nat × String} (hlevel : level ∈ HeadlineParser.levels) (ht : ∀ c ∈ t, IsDot c) :
    HeadlineParser.parseBlock (hashes level.1 ++ t) = headlineHtml level.2 t := by
  have htag : ∀ (levels : List (Nat × String)) (w : Bytes), w.head? = some (ch '<') →
      levels.foldl (fun line l => replaceFront (HeadlineParser.numbered l.1) (HeadlineParser.numbered_consumes l.1)
        (HeadlineParser.replacement l.2) line) w = w := by
    intro levels w hw
    induction levels with
    | nil => rfl
    | cons l levels ih =>
        have hstarts : ∀ c, w.head? = some c → (HeadlineParser.numbered l.1).starts c = false := by
          intro c hc
          obtain rfl : ch '<' = c := Option.some.inj (hw.symm.trans hc)
          cases l.1 <;> rfl
        rw [List.foldl_cons, replaceFront_of_head _ _ hstarts, ih]
  have hnodup : (HeadlineParser.levels.map Prod.fst).Nodup := by decide
  rw [HeadlineParser.parseBlock]
  generalize HeadlineParser.levels = levels at hlevel hnodup ⊢
  induction levels with
  | nil => simp at hlevel
  | cons l levels ih =>
      rw [List.map_cons, List.nodup_cons] at hnodup
      rcases List.mem_cons.mp hlevel with rfl | hmem
      · rw [List.foldl_cons, headline_of_eq _ _ ht, htag]
        simp [headlineHtml, bytes]
      · have hne : l.1 ≠ level.1 := fun he => hnodup.1 (he ▸ List.mem_map_of_mem hmem)
        rw [List.foldl_cons, headline_of_ne hne, ih hmem hnodup.2]

theorem getBlockParserForLine_headline {n : Nat} (h1 : 1 ≤ n) (h6 : n ≤ 6) (ht : ∀ c ∈ t, IsDot c) :
    getBlockParserForLine (hashes n ++ t) = some .headline := by
  have hheadline : HeadlineParser.isStartingLine (hashes n ++ t) = true :=
    HeadlineParser.isStartingLine_iff.mpr ⟨n, t, h1, h6, rfl, ht⟩
  have hcode : CodeBlockParser.isStartingLine (hashes n ++ t) = false := by
    rw [← Bool.not_eq_true, CodeBlockParser.isStartingLine_iff]
    intro hline
    obtain ⟨k, rfl⟩ : ∃ k, n = k + 1 := ⟨n - 1, by omega⟩
    have hhead : (hashes (k + 1) ++ t).head? = some (ch '#') := by simp [hashes, List.replicate_succ]
    rw [hline] at hhead
    exact absurd hhead (by decide)
  simp [getBlockParserForLine, hcode, hheadline]

theorem addLine_headline {level : Nat × String} (hlevel : level ∈ HeadlineParser.levels) (ht : ∀ c ∈ t, IsDot c) :
    (BlockParser.node .headline {} .null).addLine (hashes level.1 ++ t) =
      .ok (.node .headline { result := headlineHtml level.2 t } .null) := by
  have hadd : (BlockParser.node .headline {} .null).addLine (hashes level.1 ++ t) =
      .ok (BlockParser.appendLine .headline (hashes level.1 ++ t).isEmpty {} (headlineHtml level.2 t)) :=
    BlockParser.addLine_append (by decide) (by rw [Kind.parseBlock, parseBlock_headline hlevel ht]; rfl) rfl
  rw [hadd]
  simp [appendLine, finishQuote, Kind.isLineParserAllowed]

/-- A headline is a block by itself. -/
theorem parseLine_headline {level : Nat × String} (hlevel : level ∈ HeadlineParser.levels) (ht : ∀ c ∈ t, IsDot c)
    (out : Bytes) : parseLine (out, .null) (hashes level.1 ++ t) = .ok (out ++ headlineHtml level.2 t, .null) := by
  have hrange : 1 ≤ level.1 ∧ level.1 ≤ 6 := by
    have hall : ∀ l ∈ HeadlineParser.levels, 1 ≤ l.1 ∧ l.1 ≤ 6 := by decide
    exact hall level hlevel
  rw [parseLine_new (getBlockParserForLine_headline hrange.1 hrange.2 ht)]
  exact parseLine_of_finished (addLine_headline hlevel ht) rfl out

theorem addLine_rule : (BlockParser.node .horizontalLine {} .null).addLine (bytes "---") =
    .ok (.node .horizontalLine { result := bytes "<hr/>" } .null) := by
  have hadd : (BlockParser.node .horizontalLine {} .null).addLine (bytes "---") =
      .ok (appendLine .horizontalLine false {} (bytes "<hr/>")) :=
    BlockParser.addLine_append (by decide) rfl rfl
  rw [hadd]
  rfl

theorem parseLine_rule (out : Bytes) : parseLine (out, .null) (bytes "---") = .ok (out ++ bytes "<hr/>", .null) := by
  have hnew : getBlockParserForLine (bytes "---") = some .horizontalLine := by decide +kernel
  rw [parseLine_new hnew]
  exact parseLine_of_finished addLine_rule rfl out

/-- Empty lines between blocks are left out. -/
theorem parseLine_empty (out : Bytes) : parseLine (out, .null) [] = .ok (out, .null) := rfl

/-! ### Code blocks -/

/-- The HTML of a code block. -/
def codeHtml (lines : List Bytes) : Bytes := bytes "<pre><code>\n" ++ withEnds [lf] lines ++ bytes "</code></pre>"

theorem addLine_codeBlock (f : Fields) (line : Bytes) :
    (BlockParser.node .codeBlock f .null).addLine line = .ok (BlockParser.appendLine .codeBlock line.isEmpty
      (CodeBlockParser.parseBlock f line).1 (CodeBlockParser.parseBlock f line).2) :=
  BlockParser.addLine_append (by decide) rfl rfl

theorem addLine_startOfCode : (BlockParser.node .codeBlock {} .null).addLine (bytes "```") =
    .ok (.node .codeBlock { isStarted := true, result := bytes "<pre><code>\n" } .null) := by
  simp [addLine_codeBlock, CodeBlockParser.parseBlock, appendLine, finishQuote, Kind.isLineParserAllowed]

theorem addLine_code (hline : line ≠ bytes "```") : (BlockParser.node .codeBlock f .null).addLine line =
    .ok (.node .codeBlock { f with result := f.result ++ (line ++ [lf]) } .null) := by
  have hend : bytes "\n" = [lf] := rfl
  simp [addLine_codeBlock, CodeBlockParser.parseBlock, hline, appendLine, finishQuote, Kind.isLineParserAllowed, hend]

theorem addLine_endOfCode (hstarted : f.isStarted = true) : (BlockParser.node .codeBlock f .null).addLine (bytes "```") =
    .ok (.node .codeBlock { f with isStarted := false, isFinished := true, result := f.result ++ bytes "</code></pre>" }
      .null) := by
  simp [addLine_codeBlock, CodeBlockParser.parseBlock, hstarted, appendLine, finishQuote, Kind.isLineParserAllowed]

theorem foldlM_codeLines (hlines : ∀ l ∈ lines, l ≠ bytes "```") (out : Bytes) (hfinished : f.isFinished = false) :
    lines.foldlM parseLine (out, .node .codeBlock f .null) =
      .ok (out, .node .codeBlock { f with result := f.result ++ withEnds [lf] lines } .null) := by
  induction lines generalizing f with
  | nil => simp [pure, Except.pure]
  | cons l lines ih =>
      obtain ⟨hl, hlines⟩ := List.forall_mem_cons.mp hlines
      have hstep : parseLine (out, .node .codeBlock f .null) l =
          .ok (out, .node .codeBlock { f with result := f.result ++ (l ++ [lf]) } .null) :=
        parseLine_of_open (addLine_code hl) hfinished out
      rw [List.foldlM_cons, Lib.bind_eq_of_ok hstep, ih (f := { f with result := f.result ++ (l ++ [lf]) }) hlines hfinished]
      simp

/-- A code block from mark to mark, its lines as they are. -/
theorem foldlM_codeBlock (hlines : ∀ l ∈ lines, l ≠ bytes "```") (out : Bytes) :
    (bytes "```" :: (lines ++ [bytes "```"])).foldlM parseLine (out, .null) = .ok (out ++ codeHtml lines, .null) := by
  have hnew : getBlockParserForLine (bytes "```") = some .codeBlock := by decide +kernel
  have hstart : parseLine (out, .null) (bytes "```") =
      .ok (out, .node .codeBlock { isStarted := true, result := bytes "<pre><code>\n" } .null) := by
    rw [parseLine_new hnew]
    exact parseLine_of_open addLine_startOfCode rfl out
  have hfinish : ∀ f : Fields, f.isStarted = true → parseLine (out, .node .codeBlock f .null) (bytes "```") =
      .ok (out ++ (f.result ++ bytes "</code></pre>"), .null) :=
    fun f hf => parseLine_of_finished (addLine_endOfCode hf) rfl out
  rw [List.foldlM_cons, Lib.bind_eq_of_ok hstart, List.foldlM_append, Lib.bind_eq_of_ok (foldlM_codeLines hlines out rfl),
    List.foldlM_cons, Lib.bind_eq_of_ok (hfinish _ rfl)]
  simp [codeHtml, pure, Except.pure]

end Parser

/-! ### Tables -/

/-- A table: its rows in one block, with a head, or with a head and a foot. -/
inductive Table
  | plain (body : List (List Bytes))
  | headed (head body : List (List Bytes))
  | footed (head body : List (List Bytes)) (bodies : List (List (List Bytes))) (foot : List (List Bytes))

namespace Table

open TableParser

/-- The blocks of a table. -/
def blocks : Table → List (List (List Bytes))
  | .plain body => [body]
  | .headed head body => [head, body]
  | .footed head body bodies foot => head :: body :: (bodies ++ [foot])

/-- A block of rows. -/
def rowsHtml (tag cellTag : String) (rows : List (List Bytes)) : Bytes :=
  element tag (rows.flatMap fun row => element "tr" (row.flatMap fun cell => element cellTag (runLineParser cell)))

/-- The HTML of a table. -/
def html : Table → Bytes
  | .plain body => element "table" (rowsHtml "tbody" "td" body)
  | .headed head body => element "table" (rowsHtml "thead" "th" head ++ rowsHtml "tbody" "td" body)
  | .footed head body bodies foot => element "table" (rowsHtml "thead" "th" head ++
      ((body :: bodies).flatMap (rowsHtml "tbody" "td") ++ rowsHtml "tfoot" "td" foot))

/-- The line of a row. -/
def rowLine (row : List Bytes) : Bytes := withEnds [ch '|'] row

/-- The lines of a table, from mark to mark. -/
def markdown (t : Table) : List Bytes :=
  bytes "|table>" :: (List.intercalate [blockEnd] (t.blocks.map fun rows => rows.map rowLine) ++ [tableEnd])

/-- The blocks have rows, and the cells contain no end of a cell or a line. -/
structure Valid (t : Table) : Prop where
  rows : ∀ rows ∈ t.blocks, rows ≠ []
  cells : ∀ rows ∈ t.blocks, ∀ row ∈ rows, ∀ cell ∈ row, ch '|' ∉ cell ∧ lf ∉ cell

/-- The rows as the parser keeps them. -/
def parsedRows (rows : List (List Bytes)) : List (List Bytes) := rows.map fun row => row.map runLineParser

theorem blockHtml_parsedRows (isInHeader : Bool) (rows : List (List Bytes)) :
    blockHtml isInHeader (parsedRows rows) = rows.flatMap fun row =>
      element "tr" (row.flatMap fun cell => element (if isInHeader then "th" else "td") (runLineParser cell)) := by
  simp [blockHtml, parsedRows, List.flatMap_map]

/-- The blocks behind the first one, if there is a foot. -/
theorem blocksHtml_foot (bodies : List (List (List Bytes))) (foot : List (List Bytes)) {n size : Nat}
    (hsize : n + bodies.length + 1 = size) :
    blocksHtml true true size false n ((bodies ++ [foot]).map parsedRows) =
      bodies.flatMap (rowsHtml "tbody" "td") ++ rowsHtml "tfoot" "td" foot := by
  induction bodies generalizing n with
  | nil =>
      have hlast : (n + 1 == size) = true := by simpa using hsize
      simp [blocksHtml, hlast, blockHtml_parsedRows, rowsHtml]
  | cons body bodies ih =>
      have hnot : (n + 1 == size) = false := by
        simp only [List.length_cons] at hsize
        simp
        omega
      have hrest : n + 1 + bodies.length + 1 = size := by
        simp only [List.length_cons] at hsize
        omega
      rw [List.cons_append, List.map_cons, blocksHtml, ih hrest]
      simp [hnot, blockHtml_parsedRows, rowsHtml]

/-- What the parser makes of the blocks is the HTML of the table. -/
theorem parseBlock_parsedRows (t : Table) : TableParser.parseBlock (t.blocks.map parsedRows) = t.html := by
  cases t with
  | plain body => simp [blocks, html, TableParser.parseBlock, blocksHtml, blockHtml_parsedRows, rowsHtml]
  | headed head body => simp [blocks, html, TableParser.parseBlock, blocksHtml, blockHtml_parsedRows, rowsHtml]
  | footed head body bodies foot =>
      have hfoot : blocksHtml true true (bodies.length + 3) false 1 ((body :: bodies ++ [foot]).map parsedRows) =
          (body :: bodies).flatMap (rowsHtml "tbody" "td") ++ rowsHtml "tfoot" "td" foot :=
        blocksHtml_foot (body :: bodies) foot (by simp only [List.length_cons]; omega)
      have hlen : ((head :: body :: (bodies ++ [foot])).map parsedRows).length = bodies.length + 3 := by simp
      rw [TableParser.parseBlock, blocks, hlen, html, List.map_cons, blocksHtml]
      simp only [List.cons_append] at hfoot
      simp only [Nat.zero_add, show 1 < bodies.length + 3 by omega, show 3 ≤ bodies.length + 3 by omega, decide_true,
        Bool.and_self, if_true, hfoot, blockHtml_parsedRows]
      simp [rowsHtml]

theorem rowLine_ne (row : List Bytes) : rowLine row ≠ blockEnd ∧ rowLine row ≠ tableEnd := by
  have hlast : ∀ line : Bytes, line ≠ [] → line.getLast? ≠ some (ch '|') → rowLine row ≠ line := by
    rintro line hne hlast rfl
    obtain ⟨cells, cell, rfl⟩ := (List.eq_nil_or_concat row).resolve_left fun hnil => hne (by rw [hnil]; rfl)
    simp [rowLine] at hlast
  constructor
  · exact hlast _ (by simp [blockEnd, bytes]) (by decide)
  · exact hlast _ (by simp [tableEnd, bytes]) (by decide)

theorem cells_rowLine {row : List Bytes} (h : ∀ cell ∈ row, ch '|' ∉ cell) : cells (rowLine row) = row.map runLineParser := by
  rw [cells, rowLine, getlines_withEnds_self h]

/-- The rows of a block. -/
theorem foldlM_rows {rows : List (List Bytes)} (h : ∀ row ∈ rows, ∀ cell ∈ row, ch '|' ∉ cell)
    (front : List (List (List Bytes))) (done : List (List Bytes)) :
    (rows.map rowLine).foldlM advance (front, done, 0) = some (front, done ++ parsedRows rows, 0) := by
  induction rows generalizing done with
  | nil => simp [parsedRows]
  | cons row rows ih =>
      obtain ⟨hrow, hrows⟩ := List.forall_mem_cons.mp h
      have hstep : advance (front, done, 0) (rowLine row) = some (front, done ++ [row.map runLineParser], 0) := by
        rw [advance, if_neg (rowLine_ne row).1, if_pos rfl, cells_rowLine hrow]
      rw [List.map_cons, List.foldlM_cons, hstep]
      simp only [Option.bind_eq_bind, Option.bind_some, ih hrows]
      simp [parsedRows]

/-- The blocks of a table: at the end all of them but the last are complete. -/
theorem foldlM_blocks {blocks : List (List (List Bytes))} (hne : blocks ≠ [])
    (hrows : ∀ rows ∈ blocks, rows ≠ [] ∧ ∀ row ∈ rows, ∀ cell ∈ row, ch '|' ∉ cell) (front : List (List (List Bytes))) :
    ∃ done last, (List.intercalate [blockEnd] (blocks.map fun rows => rows.map rowLine)).foldlM advance (front, [], 0) =
      some (done, last, 0) ∧ last ≠ [] ∧ done ++ [last] = front ++ blocks.map parsedRows := by
  have hparsed : ∀ rows : List (List Bytes), rows ≠ [] → parsedRows rows ≠ [] := by
    intro rows hrows
    simpa [parsedRows] using hrows
  induction blocks generalizing front with
  | nil => exact absurd rfl hne
  | cons rows blocks ih =>
      obtain ⟨⟨hrowsNe, hcells⟩, hblocks⟩ := List.forall_mem_cons.mp hrows
      have hfirst := foldlM_rows hcells front []
      rw [List.nil_append] at hfirst
      cases blocks with
      | nil => exact ⟨front, parsedRows rows, by simpa using hfirst, hparsed rows hrowsNe, rfl⟩
      | cons rows' blocks =>
          have hend : advance (front, parsedRows rows, 0) blockEnd = some (front ++ [parsedRows rows], [], 0) := by
            simp [advance, hparsed rows hrowsNe]
          obtain ⟨done, last, hrun, hlast, hdone⟩ := ih (by simp) hblocks (front ++ [parsedRows rows])
          refine ⟨done, last, ?_, hlast, by simpa using hdone⟩
          rw [List.map_cons, List.map_cons, List.intercalate_cons_cons, List.foldlM_append, List.foldlM_append, hfirst]
          simp only [Option.bind_eq_bind, Option.bind_some, List.foldlM_cons, List.foldlM_nil, hend]
          simpa using hrun

theorem tableEnd_notMem (blocks : List (List (List Bytes))) :
    tableEnd ∉ List.intercalate [blockEnd] (blocks.map fun rows => rows.map rowLine) := by
  have hrows : ∀ rows : List (List Bytes), tableEnd ∉ rows.map rowLine := by
    intro rows hmem
    obtain ⟨row, -, hrow⟩ := List.mem_map.mp hmem
    exact (rowLine_ne row).2 hrow
  have hne : tableEnd ≠ blockEnd := by decide
  induction blocks with
  | nil => simp
  | cons rows blocks ih =>
      cases blocks with
      | nil => simpa using hrows rows
      | cons rows' blocks =>
          rw [List.map_cons, List.map_cons, List.intercalate_cons_cons]
          simp only [List.mem_append, List.mem_singleton, not_or]
          exact ⟨⟨hrows rows, hne⟩, ih⟩

end Table

/-- A table from mark to mark. -/
theorem Parser.foldlM_tableBlock {t : Table} (ht : t.Valid) (out : Bytes) :
    t.markdown.foldlM parseLine (out, .null) = .ok (out ++ t.html, .null) := by
  obtain ⟨f, hstart, hat⟩ := parseLine_tableStart out
  have hne : t.blocks ≠ [] := by cases t <;> simp [Table.blocks]
  obtain ⟨done, last, hadvance, hlast, hblocks⟩ := Table.foldlM_blocks hne
    (fun rows hrows => ⟨ht.rows rows hrows, fun row hrow cell hcell => (ht.cells rows hrows row hrow cell hcell).1⟩) []
  rw [Table.markdown, List.foldlM_cons, Lib.bind_eq_of_ok hstart, List.foldlM_append]
  rcases foldlM_table hat (Table.tableEnd_notMem t.blocks) out with ⟨p', f', hp', hat', hrun⟩ | ⟨hnone, -⟩
  · obtain rfl := Option.some.inj (hadvance.symm.trans hp')
    have htable : f'.table = t.blocks.map Table.parsedRows := by
      rw [hat'.table, if_neg hlast, hblocks, List.nil_append]
    rw [Lib.bind_eq_of_ok hrun, List.foldlM_cons, Lib.bind_eq_of_ok (parseLine_tableEnd hat'), htable,
      Table.parseBlock_parsedRows]
    rfl
  · rw [hadvance] at hnone
    simp at hnone

end Maddy

end WebServer
