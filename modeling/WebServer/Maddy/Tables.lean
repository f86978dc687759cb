import WebServer.Maddy.AddLine

/-!
# Tables

Where the table of a table parser is indexed past its end. The table has a vector for each block that has a row, but the
number of the current block grows with every `- | - | -`; so a row behind a block without rows has no vector to go to.
Nothing else in the converter fails (`Parser.parse_eq_error_iff`).
-/

namespace WebServer

namespace Maddy

open Lib

variable {line : Bytes} {f f' : Fields} {front : List (List (List Bytes))} {rows : List (List Bytes)} {n : Nat}

namespace TableParser

/-- The cells of a row. -/
def cells (line : Bytes) : List Bytes := (getlines (ch '|') line).map runLineParser

/-- The blocks that are complete, the rows of the current one, and how many ends of blocks there were behind no row. -/
abbrev Progress := List (List (List Bytes)) × List (List Bytes) × Nat

/-- What a line does to a table; nothing, if it is a row without a place in the table. -/
def advance (p : Progress) (line : Bytes) : Option Progress :=
  if line = blockEnd then some (if p.2.1 = [] then (p.1, [], p.2.2 + 1) else (p.1 ++ [p.2.1], [], 0))
  else if p.2.2 = 0 then some (p.1, p.2.1 ++ [cells line], 0)
  else none

/-- The members of the parser of an open table. -/
structure IsAt (f : Fields) (p : Progress) : Prop where
  isStarted : f.isStarted = true
  isFinished : f.isFinished = false
  result : f.result = []
  table : f.table = p.1 ++ (if p.2.1 = [] then [] else [p.2.1])
  currentBlock : f.currentBlock = p.1.length + p.2.2
  currentRow : f.currentRow = p.2.1.length
  skipped : 0 < p.2.2 → p.2.1 = []

theorem foldlM_pushSegment (front : List (List (List Bytes))) (rows : List (List Bytes)) (row segments : List Bytes) :
    segments.foldlM (pushSegment front.length rows.length) (front ++ [rows ++ [row]]) =
      .ok (front ++ [rows ++ [row ++ segments.map runLineParser]]) := by
  induction segments generalizing row with
  | nil => simp [pure, Except.pure]
  | cons segment segments ih =>
      have hstep : pushSegment front.length rows.length (front ++ [rows ++ [row]]) segment =
          .ok (front ++ [rows ++ [row ++ [runLineParser segment]]]) := by
        simp [pushSegment]
      rw [List.foldlM_cons, Lib.bind_eq_of_ok hstep, ih]
      simp

/-- A row. -/
theorem addLine_row {p : Progress} (h : IsAt f p) (hskipped : p.2.2 = 0) (hblock : line ≠ blockEnd) (hend : line ≠ tableEnd) :
    ∃ f', addLine f line = .ok f' ∧ IsAt f' (p.1, p.2.1 ++ [cells line], 0) := by
  obtain ⟨front, rows, n⟩ := p
  obtain rfl : n = 0 := hskipped
  have hblockNumber : f.currentBlock = front.length := h.currentBlock
  have htable : (if f.table.length < f.currentBlock + 1 then f.table ++ [[]] else f.table) = front ++ [rows] := by
    rw [h.table, hblockNumber]
    by_cases hrows : rows = []
    · simp [hrows]
    · simp [hrows]
  have hpush : pushRow (front ++ [rows]) front.length = .ok (front ++ [rows ++ [[]]]) := by simp [pushRow]
  refine ⟨{ f with table := front ++ [rows ++ [cells line]], currentRow := f.currentRow + 1 }, ?_,
    ⟨h.isStarted, h.isFinished, h.result, by simp, h.currentBlock, ?_, by simp⟩⟩
  · rw [addLine, h.isStarted, if_neg (by simp), if_pos rfl, if_neg hblock, if_neg hend, htable, hblockNumber,
      h.currentRow]
    simp only [Lib.bind_eq_of_ok hpush]
    rw [Lib.bind_eq_of_ok (foldlM_pushSegment front rows [] (getlines (ch '|') line))]
    simp [cells]
  · simp [h.currentRow]

/-- A row behind a block without rows. -/
theorem addLine_row_fault {p : Progress} (h : IsAt f p) (hskipped : 0 < p.2.2) (hblock : line ≠ blockEnd)
    (hend : line ≠ tableEnd) : addLine f line = .error .indexOutOfBounds := by
  have htable : f.table = p.1 := by rw [h.table, if_pos (h.skipped hskipped), List.append_nil]
  have hsize : f.table.length < f.currentBlock + 1 := by
    rw [htable, h.currentBlock]
    omega
  have hpush : pushRow (f.table ++ [[]]) f.currentBlock = .error .indexOutOfBounds := by
    have hnone : (f.table ++ [[]])[f.currentBlock]? = none := by
      rw [List.getElem?_eq_none_iff, List.length_append, htable, h.currentBlock]
      simp
      omega
    rw [pushRow, hnone]
  rw [addLine, h.isStarted, if_neg (by simp), if_pos rfl, if_neg hblock, if_neg hend, if_pos hsize]
  simp only [hpush]
  rfl

theorem addLine_blockEnd {p : Progress} (h : IsAt f p) :
    ∃ f', addLine f blockEnd = .ok f' ∧ IsAt f' (if p.2.1 = [] then (p.1, [], p.2.2 + 1) else (p.1 ++ [p.2.1], [], 0)) := by
  obtain ⟨front, rows, n⟩ := p
  refine ⟨{ f with currentBlock := f.currentBlock + 1, currentRow := 0 }, ?_, ?_⟩
  · rw [addLine, h.isStarted, if_neg (by simp), if_pos rfl, if_pos rfl]
  · have htable := h.table
    have hnumber := h.currentBlock
    by_cases hrows : rows = []
    · simp only [hrows, if_true] at htable ⊢
      refine ⟨h.isStarted, h.isFinished, h.result, by simpa using htable, ?_, rfl, fun _ => rfl⟩
      simp only at hnumber ⊢
      omega
    · have hn : n = 0 := by
        by_contra hn
        exact hrows (h.skipped (by simp only; omega))
      simp only [hrows, if_false] at htable ⊢
      refine ⟨h.isStarted, h.isFinished, h.result, by simpa using htable, ?_, rfl, by simp⟩
      simp only [List.length_append, List.length_singleton] at hnumber ⊢
      omega

/-- The parser of a table follows the progress of the table. -/
theorem addLine_of_advance {p p' : Progress} (h : IsAt f p) (hend : line ≠ tableEnd) (hp : advance p line = some p') :
    ∃ f', addLine f line = .ok f' ∧ IsAt f' p' := by
  rw [advance] at hp
  split_ifs at hp with hblock hrows hskipped <;> obtain rfl := Option.some.inj hp
  · subst hblock
    simpa [hrows] using addLine_blockEnd h
  · subst hblock
    simpa [hrows] using addLine_blockEnd h
  · exact addLine_row h hskipped hblock hend

theorem addLine_of_advance_none {p : Progress} (h : IsAt f p) (hend : line ≠ tableEnd) (hp : advance p line = none) :
    addLine f line = .error .indexOutOfBounds := by
  rw [advance] at hp
  split_ifs at hp with hblock hskipped
  exact addLine_row_fault h (Nat.pos_of_ne_zero hskipped) hblock hend

theorem addLine_tableEnd {p : Progress} (h : IsAt f p) :
    addLine f tableEnd = .ok { f with result := parseBlock f.table, isFinished := true } := by
  have hne : tableEnd ≠ blockEnd := by decide
  rw [addLine, h.isStarted, if_neg (by simp), if_pos rfl, if_neg hne, if_pos rfl, h.result]
  rfl

/-! ### The rows that have no place -/

/-- A block without rows has just ended. -/
def BehindEmptyBlock (body : List Bytes) : Prop := body = [blockEnd] ∨ [blockEnd, blockEnd] <:+ body

theorem suffix_concat (xs ys : List Bytes) (x y : Bytes) : xs ++ [x] <:+ ys ++ [y] ↔ x = y ∧ xs <:+ ys := by
  rw [← List.reverse_prefix, ← List.reverse_prefix ]
  simp [List.cons_prefix_cons]

theorem behindEmptyBlock_concat {body : List Bytes} {x : Bytes} :
    BehindEmptyBlock (body ++ [x]) ↔ x = blockEnd ∧ (body = [] ∨ [blockEnd] <:+ body) := by
  have hpair : [blockEnd, blockEnd] <:+ body ++ [x] ↔ blockEnd = x ∧ [blockEnd] <:+ body :=
    suffix_concat [blockEnd] ..
  have hone : body ++ [x] = [blockEnd] ↔ body = [] ∧ x = blockEnd := by simp [List.append_eq_singleton_iff]
  rw [BehindEmptyBlock, hpair, hone, eq_comm (a := blockEnd)]
  constructor
  · rintro (⟨hbody, hx⟩ | ⟨hx, hbody⟩)
    · exact ⟨hx, .inl hbody⟩
    · exact ⟨hx, .inr hbody⟩
  · rintro ⟨hx, hbody | hbody⟩
    · exact .inl ⟨hbody, hx⟩
    · exact .inr ⟨hx, hbody⟩

/-- The progress after some lines. -/
theorem foldlM_advance {body : List Bytes} {p : Progress} (h : body.foldlM advance ([], [], 0) = some p) :
    (0 < p.2.2 ↔ BehindEmptyBlock body) ∧ (p.2.1 = [] ↔ body = [] ∨ [blockEnd] <:+ body) := by
  induction body using List.reverseRecOn generalizing p with
  | nil =>
      obtain rfl : (([], [], 0) : Progress) = p := Option.some.inj h
      simp [BehindEmptyBlock]
  | append_singleton body x ih =>
      rw [List.foldlM_append] at h
      obtain ⟨q, hq, hx⟩ := Option.bind_eq_some_iff.mp h
      obtain ⟨hskipped, hrows⟩ := ih hq
      have hlast : [blockEnd] <:+ body ++ [x] ↔ blockEnd = x :=
        (suffix_concat [] ..).trans (and_iff_left List.nil_suffix)
      simp only [List.foldlM_cons, List.foldlM_nil, Option.bind_eq_bind] at hx
      obtain ⟨q', hadvance, hp⟩ := Option.bind_eq_some_iff.mp hx
      obtain rfl : q' = p := Option.some.inj hp
      rw [behindEmptyBlock_concat, hlast]
      rw [advance] at hadvance
      split_ifs at hadvance with hblock hempty hzero <;> obtain rfl := Option.some.inj hadvance
      · simp [hblock, hrows.mp hempty]
      · simp [hblock, hrows.not.mp hempty]
      · simp [hblock, Ne.symm hblock]

end TableParser

namespace Parser

open BlockParser TableParser

/-! ### A line of the text -/

section

variable {kind : Kind} {child q : BlockParser}

/-- A line that starts a block. -/
theorem parseLine_new (hnew : getBlockParserForLine line = some kind) (out : Bytes) :
    parseLine (out, .null) line = parseLine (out, .node kind {} .null) line := by
  simp only [parseLine, hnew, newParser]

/-- A line that leaves its block open. -/
theorem parseLine_of_open (hadd : addLine (.node kind f child) line = .ok q) (hopen : q.isFinished = false) (out : Bytes) :
    parseLine (out, .node kind f child) line = .ok (out, q) := by
  simp only [parseLine, hadd, bind, Except.bind, hopen, Bool.false_eq_true, if_false]

/-- A line that ends its block. -/
theorem parseLine_of_finished (hadd : addLine (.node kind f child) line = .ok q) (hfinished : q.isFinished = true)
    (out : Bytes) : parseLine (out, .node kind f child) line = .ok (out ++ q.result, .null) := by
  simp only [parseLine, hadd, bind, Except.bind, hfinished, if_true]

end

/-- The empty line behind the last one is treated like every other line. -/
theorem parse_eq (markdown : Bytes) :
    parse markdown = ((getlines lf markdown ++ [[]]).foldlM parseLine ([], .null)).map Prod.fst := by
  rw [parse, List.foldlM_append]
  cases (getlines lf markdown).foldlM parseLine ([], .null) with
  | error e => rfl
  | ok s =>
      obtain ⟨out, p⟩ := s
      have hnew : getBlockParserForLine [] = none := rfl
      simp only [bind, Except.bind, List.foldlM_cons, List.foldlM_nil, finish, parseLine, hnew]
      cases p with
      | null => rfl
      | node kind f child =>
          cases hadd : addLine (.node kind f child) [] with
          | error e => simp only [Except.map]
          | ok q =>
              simp only [Except.map, pure, Except.pure]
              split_ifs <;> rfl

/-- Lines behind which no block is open. -/
theorem parse_withEnds {lines : List Bytes} {page : Bytes} (hlines : ∀ l ∈ lines, lf ∉ l)
    (hrun : lines.foldlM parseLine ([], .null) = .ok (page, .null)) : parse (withEnds [lf] lines) = .ok page := by
  rw [parse_eq, getlines_withEnds_self hlines, List.foldlM_append, Lib.bind_eq_of_ok hrun]
  rfl

/-- A row behind a block without rows, in a table that is opened where no block is open. -/
def BadRow (lines : List Bytes) : Prop :=
  ∃ before body row after out, lines = before ++ bytes "|table>" :: (body ++ row :: after) ∧
    before.foldlM parseLine ([], .null) = .ok (out, .null) ∧ tableEnd ∉ body ∧ row ≠ blockEnd ∧ row ≠ tableEnd ∧
      BehindEmptyBlock body

variable {out out' : Bytes} {p p' : Progress} {body lines : List Bytes} {e : Fault} {s : Bytes × BlockParser}

theorem parseLine_table (h : TableParser.addLine f line = .ok f') (hfinished : f'.isFinished = false) :
    parseLine (out, .node .table f .null) line = .ok (out, .node .table f' .null) := by
  have hadd : addLine (.node .table f .null) line = .ok (.node .table f' .null) := by
    rw [BlockParser.addLine, addLineWith, if_pos rfl, h]
    rfl
  exact parseLine_of_open hadd hfinished out

theorem parseLine_table_error (h : TableParser.addLine f line = .error e) :
    parseLine (out, .node .table f .null) line = .error e := by
  have hadd : addLine (.node .table f .null) line = .error e := by
    rw [BlockParser.addLine, addLineWith, if_pos rfl, h]
    rfl
  simp only [parseLine, hadd, bind, Except.bind]

theorem parseLine_tableEnd (h : IsAt f p) :
    parseLine (out, .node .table f .null) tableEnd = .ok (out ++ TableParser.parseBlock f.table, .null) := by
  have hadd : addLine (.node .table f .null) tableEnd =
      .ok (.node .table { f with result := TableParser.parseBlock f.table, isFinished := true } .null) := by
    rw [BlockParser.addLine, addLineWith, if_pos rfl, addLine_tableEnd h]
    rfl
  exact parseLine_of_finished hadd rfl out

/-- The first line of a table. -/
theorem parseLine_tableStart (out : Bytes) : ∃ f, parseLine (out, .null) (bytes "|table>") = .ok (out, .node .table f .null) ∧
    IsAt f ([], [], 0) := by
  have hnew : getBlockParserForLine (bytes "|table>") = some .table := by decide +kernel
  have hadd : TableParser.addLine {} (bytes "|table>") = .ok { isStarted := true } := by simp [TableParser.addLine]
  refine ⟨{ isStarted := true }, ?_, rfl, rfl, rfl, rfl, rfl, rfl, fun h => absurd h (by simp)⟩
  rw [parseLine_new hnew, parseLine_table hadd rfl]

/-- The lines of a table up to its end. -/
theorem foldlM_table (h : IsAt f p) (hend : tableEnd ∉ body) (out : Bytes) :
    (∃ p' f', body.foldlM advance p = some p' ∧ IsAt f' p' ∧
      body.foldlM parseLine (out, .node .table f .null) = .ok (out, .node .table f' .null)) ∨
    (body.foldlM advance p = none ∧ body.foldlM parseLine (out, .node .table f .null) = .error .indexOutOfBounds) := by
  induction body generalizing f p with
  | nil => exact .inl ⟨p, f, rfl, h, rfl⟩
  | cons line body ih =>
      obtain ⟨hline, hbody⟩ := not_or.mp (List.mem_cons.not.mp hend)
      rw [List.foldlM_cons, List.foldlM_cons]
      cases hp : advance p line with
      | none =>
          right
          exact ⟨rfl, by rw [parseLine_table_error (addLine_of_advance_none h (Ne.symm hline) hp)]; rfl⟩
      | some p' =>
          obtain ⟨f', hf', hat⟩ := addLine_of_advance h (Ne.symm hline) hp
          rw [Lib.bind_eq_of_ok (parseLine_table hf' hat.isFinished)]
          exact ih hat hbody

/-- The converter, when no table is open. -/
theorem parseLine_noTable (h : NoTable s.2) (hline : s.2 = .null → line ≠ bytes "|table>") :
    ∃ s', parseLine s line = .ok s' ∧ NoTable s'.2 := by
  obtain ⟨out, p⟩ := s
  have hresult : ∀ {kind : Kind} {f : Fields} {child : BlockParser}, NoTable (.node kind f child) →
      ∃ s', (do
        let p ← addLine (.node kind f child) line
        .ok (if p.isFinished then (out ++ p.result, BlockParser.null) else (out, p)) : Except Fault (Bytes × BlockParser)) =
          .ok s' ∧ NoTable s'.2 := by
    intro kind f child hno
    obtain ⟨q, hq, -, hnoq⟩ := exists_adds hno line
    rw [hq]
    refine ⟨_, rfl, ?_⟩
    split_ifs
    · trivial
    · exact hnoq
  cases p with
  | null =>
      simp only [parseLine]
      cases hnew : getBlockParserForLine line with
      | none => exact ⟨(out, .null), rfl, trivial⟩
      | some kind => exact hresult ⟨fun htable => hline rfl (getBlockParserForLine_eq_table (htable ▸ hnew)), trivial⟩
  | node kind f child => exact hresult h

/-- Where the converter is after some lines: in no table, or in one that is opened in a line between blocks. -/
def IsAfter (lines : List Bytes) (s : Bytes × BlockParser) : Prop :=
  NoTable s.2 ∨ ∃ before body p f, lines = before ++ bytes "|table>" :: body ∧
    before.foldlM parseLine ([], .null) = .ok (s.1, .null) ∧ tableEnd ∉ body ∧
      body.foldlM advance ([], [], 0) = some p ∧ IsAt f p ∧ s.2 = .node .table f .null

/-- What the next line does. -/
theorem isAfter_concat (hrun : lines.foldlM parseLine ([], .null) = .ok s) (h : IsAfter lines s) (line : Bytes) :
    (∃ s', parseLine s line = .ok s' ∧ IsAfter (lines ++ [line]) s') ∨
      (parseLine s line = .error .indexOutOfBounds ∧ BadRow (lines ++ [line])) := by
  obtain ⟨out, q⟩ := s
  rcases h with hno | ⟨before, body, p, f, rfl, hbefore, hend, hbody, hat, hq⟩
  · left
    by_cases hstart : q = .null ∧ line = bytes "|table>"
    · obtain ⟨rfl, rfl⟩ := hstart
      obtain ⟨f, hf, hat⟩ := parseLine_tableStart out
      exact ⟨_, hf, .inr ⟨lines, [], _, f, rfl, hrun, by simp, rfl, hat, rfl⟩⟩
    · obtain ⟨s', hs', hno'⟩ := parseLine_noTable hno fun hnull hline => hstart ⟨hnull, hline⟩
      exact ⟨s', hs', .inl hno'⟩
  · obtain rfl : q = .node .table f .null := hq
    by_cases hline : line = tableEnd
    · left
      subst hline
      exact ⟨_, parseLine_tableEnd hat, .inl trivial⟩
    · have hend' : tableEnd ∉ body ++ [line] := by simp [hend, Ne.symm hline]
      cases hp : advance p line with
      | some p' =>
          left
          obtain ⟨f', hf', hat'⟩ := addLine_of_advance hat hline hp
          refine ⟨_, parseLine_table hf' hat'.isFinished, .inr ⟨before, body ++ [line], p', f', by simp, hbefore, hend', ?_,
            hat', rfl⟩⟩
          simp [List.foldlM_append, hbody, hp]
      | none =>
          right
          rw [advance] at hp
          split_ifs at hp with hblock hskipped
          have hbehind := (foldlM_advance hbody).1.mp (Nat.pos_of_ne_zero hskipped)
          exact ⟨parseLine_table_error (addLine_row_fault hat (Nat.pos_of_ne_zero hskipped) hblock hline),
            before, body, line, [], out, by simp, hbefore, hend, hblock, hline, hbehind⟩

theorem isAfter_of_ok (h : lines.foldlM parseLine ([], .null) = .ok s) : IsAfter lines s := by
  induction lines using List.reverseRecOn generalizing s with
  | nil =>
      obtain rfl : (([], .null) : Bytes × BlockParser) = s := Except.ok.inj h
      exact .inl trivial
  | append_singleton lines line ih =>
      rw [List.foldlM_append] at h
      obtain ⟨s', hrun, hline⟩ := Lib.bind_eq_ok.mp h
      rw [List.foldlM_cons] at hline
      obtain ⟨s'', hstep, hs⟩ := Lib.bind_eq_ok.mp hline
      obtain rfl : s'' = s := Except.ok.inj hs
      rcases isAfter_concat hrun (ih hrun) line with ⟨t, ht, hafter⟩ | ⟨herror, -⟩
      · obtain rfl := Except.ok.inj (ht.symm.trans hstep)
        exact hafter
      · simp [hstep] at herror

/-- A row without a place stops the loop. -/
theorem foldlM_ne_ok (h : BadRow lines) (s : Bytes × BlockParser) : lines.foldlM parseLine ([], .null) ≠ .ok s := by
  obtain ⟨before, body, row, after, out, rfl, hbefore, hend, hblock, hrow, hbehind⟩ := h
  obtain ⟨f, hstart, hat⟩ := parseLine_tableStart out
  rw [List.foldlM_append, Lib.bind_eq_of_ok hbefore, List.foldlM_cons, Lib.bind_eq_of_ok hstart, List.foldlM_append]
  rcases foldlM_table hat hend out with ⟨p', f', hp', hat', hrun⟩ | ⟨-, hrun⟩
  · have hskipped := (foldlM_advance hp').1.mpr hbehind
    rw [Lib.bind_eq_of_ok hrun, List.foldlM_cons, parseLine_table_error (addLine_row_fault hat' hskipped hblock hrow)]
    simp [bind, Except.bind]
  · rw [hrun]
    simp [bind, Except.bind]

theorem foldlM_eq_error_iff :
    lines.foldlM parseLine ([], .null) = .error e ↔ e = .indexOutOfBounds ∧ BadRow lines := by
  have hforward : ∀ e, lines.foldlM parseLine ([], .null) = .error e → e = .indexOutOfBounds ∧ BadRow lines := by
    induction lines using List.reverseRecOn with
    | nil => simp [pure, Except.pure]
    | append_singleton lines line ih =>
        intro e h
        rw [List.foldlM_append] at h
        cases hrun : lines.foldlM parseLine ([], .null) with
        | error e' =>
            obtain ⟨he, before, body, row, after, out, rfl, hbad⟩ := ih e' hrun
            rw [hrun] at h
            obtain rfl : e' = e := Except.error.inj h
            exact ⟨he, before, body, row, after ++ [line], out, by simp, hbad⟩
        | ok s =>
            rw [Lib.bind_eq_of_ok hrun, List.foldlM_cons] at h
            rcases isAfter_concat hrun (isAfter_of_ok hrun) line with ⟨s', hs', -⟩ | ⟨herror, hbad⟩
            · rw [Lib.bind_eq_of_ok hs'] at h
              simp [pure, Except.pure] at h
            · rw [herror] at h
              obtain rfl : Fault.indexOutOfBounds = e := Except.error.inj h
              exact ⟨rfl, hbad⟩
  constructor
  · exact hforward e
  · rintro ⟨rfl, hbad⟩
    cases hrun : lines.foldlM parseLine ([], .null) with
    | ok s => exact absurd hrun (foldlM_ne_ok hbad s)
    | error e => rw [(hforward e hrun).1]

/-- The converter never throws, and it indexes a vector past its end exactly at a row of a table behind a block
without rows. -/
theorem parse_eq_error_iff (markdown : Bytes) (e : Fault) :
    parse markdown = .error e ↔ e = .indexOutOfBounds ∧ BadRow (getlines lf markdown ++ [[]]) := by
  rw [parse_eq, ← foldlM_eq_error_iff]
  cases (getlines lf markdown ++ [[]]).foldlM parseLine ([], .null) with
  | error e' => simp [Except.map]
  | ok s => simp [Except.map]

end Parser

end Maddy

end WebServer
