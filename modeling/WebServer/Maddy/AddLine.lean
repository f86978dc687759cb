import WebServer.Maddy.Lines

/-!
# Adding a line

What `AddLine` does, without the bound on how many parsers a line opens (`addLineWith_eq_addLine`): only quotes open parsers that
open parsers, and each quote takes a `>` away from the line.
-/

namespace WebServer

namespace Maddy

open Lib

variable {line line' rest w : Bytes} {r : Regex UInt8} {kind new : Kind} {f f' : Fields} {c : UInt8}

/-! ### Lists -/

/-- The parts in which the lists differ. -/
structure ListTags where
  isStart : Bytes → Bool
  strip : Bytes → Bytes
  opening : Bytes
  next : Bytes
  closing : Bytes
  ends : List Bytes

/-- The parts of the kinds that are lists. -/
def Kind.listTags : Kind → Option ListTags
  | .checklist => some ⟨ChecklistParser.isStartingLine, ChecklistParser.strip, bytes "<ul class=\"checklist\"><li><label>",
      bytes "</label></li><li><label>", bytes "</label></li></ul>",
      [bytes "</label></li><li><label>", bytes "</label></li></ul>"]⟩
  | .orderedList => some ⟨OrderedListParser.isStartOfNewListItem, OrderedListParser.strip, bytes "<ol><li>",
      bytes "</li><li>", bytes "</li></ol>", listEnds⟩
  | .unorderedList => some ⟨UnorderedListParser.isStartingLine, UnorderedListParser.strip, bytes "<ul><li>",
      bytes "</li><li>", bytes "</li></ul>", listEnds⟩
  | _ => none

variable {L : ListTags}

theorem listTags_head (hL : kind.listTags = some L) :
    L.opening.head? = some (ch '<') ∧ L.next.head? = some (ch '<') ∧ L.closing.head? = some (ch '<') := by
  cases kind <;> simp only [Kind.listTags, reduceCtorEq, Option.some.injEq] at hL <;> subst hL <;> exact ⟨rfl, rfl, rfl⟩

theorem parseBlock_list (hL : kind.listTags = some L) :
    kind.parseBlock f line = listParseBlock L.isStart L.strip L.opening L.next L.closing L.ends f line := by
  cases kind <;> simp only [Kind.listTags, reduceCtorEq, Option.some.injEq] at hL <;> subst hL <;> rfl

theorem contains_iff : contains line w = true ↔ w <:+: line := by
  rw [contains, Option.isSome_iff_ne_none, ne_eq, Word.find?_eq_none, not_not]

theorem substr2_eq_ok (h : 2 ≤ line.length) : substr2 line = .ok (line.drop 2) := by rw [substr2, if_pos h]

theorem length_of_indentation (h : 2 ≤ getIndentationWidth line) : 2 ≤ line.length :=
  h.trans (List.takeWhile_sublist _).length_le

theorem head_of_indentation (h : 2 ≤ getIndentationWidth line) : ∃ c rest, line = c :: rest ∧ isSpace c = true := by
  cases line with
  | nil => simp [getIndentationWidth] at h
  | cons c rest =>
      refine ⟨c, rest, rfl, ?_⟩
      by_contra hc
      simp [getIndentationWidth, hc] at h

/-- A line with white space in front has no marker. -/
theorem strip_of_indentation (hL : kind.listTags = some L) (h : 2 ≤ getIndentationWidth line) : L.strip line = line := by
  have hheads : ∀ c ∈ markerHeads, isSpace c = false := by decide +kernel
  obtain ⟨d, rest, rfl, hspace⟩ := head_of_indentation h
  have hhead : ∀ c, (d :: rest).head? = some c → c ∉ markerHeads := by
    intro c hc hmem
    obtain rfl : d = c := by simpa using hc
    simp [hheads d hmem] at hspace
  have hstrip := strip_of_head hhead
  cases kind <;> simp only [Kind.listTags, reduceCtorEq, Option.some.injEq] at hL <;> subst hL
  · exact hstrip.1
  · exact hstrip.2.1
  · exact hstrip.2.2

/-- What a list makes of a line. -/
theorem list_cases (hL : kind.listTags = some L) (f : Fields) (line : Bytes) :
    (f.isStarted = false ∧ kind.parseBlock f line = .ok ({ f with isStarted := true }, L.opening ++ L.strip line)) ∨
    (f.isStarted = true ∧ 2 ≤ getIndentationWidth line ∧ kind.parseBlock f line = .ok (f, line.drop 2)) ∨
    (f.isStarted = true ∧ getIndentationWidth line < 2 ∧ (L.strip line = [] ∨ ∃ e ∈ L.ends, e <:+: L.strip line) ∧
      kind.parseBlock f line = .ok ({ f with isFinished := true }, L.closing ++ L.strip line)) ∨
    (f.isStarted = true ∧ getIndentationWidth line < 2 ∧ L.strip line ≠ [] ∧ (∀ e ∈ L.ends, ¬ e <:+: L.strip line) ∧
      kind.parseBlock f line = .ok (f, if L.isStart line then L.next ++ L.strip line else L.strip line)) := by
  have hends : ((L.strip line).isEmpty || L.ends.any (contains (L.strip line))) = true ↔
      (L.strip line = [] ∨ ∃ e ∈ L.ends, e <:+: L.strip line) := by
    rw [Bool.or_eq_true, List.isEmpty_iff, List.any_eq_true]
    simp only [contains_iff]
  rw [parseBlock_list hL, listParseBlock]
  cases hstarted : f.isStarted with
  | false => exact .inl ⟨rfl, by simp⟩
  | true =>
      right
      by_cases hind : 2 ≤ getIndentationWidth line
      · left
        have hlen := length_of_indentation hind
        rw [strip_of_indentation hL hind]
        simp [hind, substr2_eq_ok hlen, Except.map]
      · right
        by_cases hfinish : L.strip line = [] ∨ ∃ e ∈ L.ends, e <:+: L.strip line
        · left
          refine ⟨rfl, by omega, hfinish, ?_⟩
          simp only [if_neg hind, if_pos (hends.mpr hfinish), Bool.not_true, Bool.false_eq_true, if_false]
        · right
          obtain ⟨hne, hnone⟩ := not_or.mp hfinish
          refine ⟨rfl, by omega, hne, fun e he hin => hnone ⟨e, he, hin⟩, ?_⟩
          simp only [if_neg hind, if_neg (hends.not.mpr hfinish), Bool.not_true, Bool.false_eq_true, if_false]
          split_ifs <;> rfl

/-! ### How deep new parsers are nested -/

/-- Bounds how many parsers a line can open one in the other: a quote takes a `>` away, and nothing that starts with a
tag is a quote. -/
def depthBound (line : Bytes) : Nat := if line.head? = some (ch '<') then 1 else line.count (ch '>') + 2

theorem one_le_depthBound (line : Bytes) : 1 ≤ depthBound line := by
  rw [depthBound]
  split_ifs <;> omega

theorem depthBound_le (line : Bytes) : depthBound line ≤ line.length + 2 := by
  have := List.count_le_length (l := line) (a := ch '>')
  rw [depthBound]
  split_ifs <;> omega

theorem depthBound_of_head (h : line.head? = some (ch '<')) : depthBound line = 1 := by rw [depthBound, if_pos h]

theorem depthBound_suffix (h : w <:+ line) (hhead : line.head? ≠ some (ch '<')) : depthBound w ≤ depthBound line := by
  have hcount := h.sublist.count_le (ch '>')
  rw [depthBound, depthBound, if_neg hhead]
  split_ifs <;> omega

theorem depthBound_append_space (line : Bytes) (hc : c ≠ ch '<') (hc' : c ≠ ch '>') :
    depthBound (line ++ [c]) ≤ depthBound line := by
  have hcount : (line ++ [c]).count (ch '>') = line.count (ch '>') := by
    rw [List.count_append, List.count_singleton, if_neg (by simpa using hc'), Nat.add_zero]
  rw [depthBound, depthBound, hcount]
  cases line with
  | nil => simp [hc]
  | cons d rest => rfl

/-- What is replaced at the start of a line does not make the bound larger. -/
theorem depthBound_replaceFront (hr : r.consumes = true) (replacement : Replacement) (hlt : r.starts (ch '<') = false)
    (hfill : replacement = [] ∨ ∀ gs : List (Nat × Bytes), (fill gs replacement).head? = some (ch '<')) (line : Bytes) :
    depthBound (replaceFront r hr replacement line) ≤ depthBound line := by
  rcases replaceFront_cases hr replacement line with hsame | ⟨b, hb, hreplaced⟩
  · rw [hsame]
  · rw [hreplaced]
    rcases hfill with rfl | hfill
    · have hlen := hb.length_lt hr
      obtain ⟨c, rest, rfl, hc⟩ : ∃ c rest, line = c :: rest ∧ r.starts c = true :=
        hb.starts_or.resolve_left fun hsame => by
          rw [hsame] at hlen
          omega
      have hne : c ≠ ch '<' := by
        rintro rfl
        simp [hlt] at hc
      have hcount : b.rest.count (ch '>') ≤ (c :: rest).count (ch '>') := hb.suffix.sublist.count_le _
      simp only [fill, List.flatMap_nil, List.nil_append, depthBound, List.head?_cons, Option.some.injEq, hne, if_false]
      split_ifs <;> omega
    · have hhead : (fill b.groups replacement ++ b.rest).head? = some (ch '<') := by
        rw [List.head?_append, hfill]
        rfl
      rw [depthBound_of_head hhead]
      exact one_le_depthBound line

theorem depthBound_strip (hL : kind.listTags = some L) (line : Bytes) : depthBound (L.strip line) ≤ depthBound line := by
  have hword : ∀ (w : Bytes) (hw : (Regex.word w).consumes = true) (replacement : Replacement) (line : Bytes),
      (Regex.word w).starts (ch '<') = false →
        (replacement = [] ∨ ∀ gs : List (Nat × Bytes), (fill gs replacement).head? = some (ch '<')) →
          depthBound (replaceFront (Regex.word w) hw replacement line) ≤ depthBound line :=
    fun w hw replacement line hlt hfill => depthBound_replaceFront hw replacement hlt hfill line
  cases kind <;> simp only [Kind.listTags, reduceCtorEq, Option.some.injEq] at hL <;> subst hL
  · refine (hword _ _ _ _ rfl (.inr fun _ => rfl)).trans ((hword _ _ _ _ rfl (.inr fun _ => rfl)).trans ?_)
    exact depthBound_replaceFront _ _ rfl (.inl rfl) _
  · refine (depthBound_replaceFront _ _ rfl (.inl rfl) _).trans ?_
    exact hword _ _ _ _ rfl (.inl rfl)
  · exact depthBound_replaceFront _ _ rfl (.inl rfl) _

theorem depthBound_quote (line : Bytes) : depthBound (QuoteParser.parseBlock line) ≤ depthBound line := by
  have hsp : sp ≠ ch '<' ∧ sp ≠ ch '>' := by decide
  have hstrip := (depthBound_replaceFront QuoteParser.withoutSpace_consumes [] rfl (.inl rfl) _).trans
    (depthBound_replaceFront QuoteParser.withSpace_consumes [] rfl (.inl rfl) line)
  rw [QuoteParser.parseBlock]
  split_ifs
  · exact hstrip
  · exact (depthBound_append_space _ hsp.1 hsp.2).trans hstrip

theorem depthBound_headline (line : Bytes) : depthBound (HeadlineParser.parseBlock line) ≤ depthBound line := by
  have hstep : ∀ (n : Nat) (digit : String) (line : Bytes), depthBound (replaceFront (HeadlineParser.numbered n)
      (HeadlineParser.numbered_consumes n) (HeadlineParser.replacement digit) line) ≤ depthBound line := by
    intro n digit line
    refine depthBound_replaceFront _ _ ?_ (.inr fun gs => ?_) line
    · cases n <;> rfl
    · simp [HeadlineParser.replacement, tagged, fill, bytes]
  rw [HeadlineParser.parseBlock]
  generalize HeadlineParser.levels = levels
  induction levels generalizing line with
  | nil => exact le_rfl
  | cons l levels ih => exact (ih _).trans (hstep l.1 l.2 line)

theorem depthBound_parseBlock (hkind : kind ≠ .table) (h : kind.parseBlock f line = .ok (f', line')) :
    depthBound line' ≤ depthBound line := by
  have htag : ∀ {w : Bytes}, w.head? = some (ch '<') → depthBound w ≤ depthBound line := by
    intro w hw
    rw [depthBound_of_head hw]
    exact one_le_depthBound line
  have hhead : ∀ {w w' : Bytes}, w.head? = some (ch '<') → (w ++ w').head? = some (ch '<') := by
    intro w w' hw
    rw [List.head?_append, hw]
    rfl
  cases hL : kind.listTags with
  | some L =>
      obtain ⟨hopening, hnext, hclosing⟩ := listTags_head hL
      rcases list_cases hL f line with ⟨-, heq⟩ | ⟨-, hind, heq⟩ | ⟨-, -, -, heq⟩ | ⟨-, -, -, -, heq⟩
      all_goals
        rw [heq] at h
        obtain ⟨rfl, rfl⟩ := Prod.mk.inj (Except.ok.inj h)
      · exact htag (hhead hopening)
      · obtain ⟨c, rest, rfl, hspace⟩ := head_of_indentation hind
        refine depthBound_suffix (List.drop_suffix _ _) ?_
        rintro hc
        obtain rfl : c = ch '<' := by simpa using hc
        exact absurd hspace (by decide +kernel)
      · exact htag (hhead hclosing)
      · split_ifs
        · exact htag (hhead hnext)
        · exact depthBound_strip hL line
  | none =>
      have hlf : lf ≠ ch '<' ∧ lf ≠ ch '>' := by decide
      have hsp : sp ≠ ch '<' ∧ sp ≠ ch '>' := by decide
      cases kind with
      | codeBlock =>
          simp only [Kind.parseBlock, CodeBlockParser.parseBlock] at h
          split_ifs at h <;> obtain ⟨rfl, rfl⟩ := Prod.mk.inj (Except.ok.inj h)
          · exact htag rfl
          · exact htag rfl
          · exact depthBound_append_space _ hlf.1 hlf.2
      | headline =>
          obtain ⟨rfl, rfl⟩ := Prod.mk.inj (Except.ok.inj h)
          exact depthBound_headline line
      | horizontalLine =>
          obtain ⟨rfl, rfl⟩ := Prod.mk.inj (Except.ok.inj h)
          exact depthBound_replaceFront _ _ rfl (.inr fun _ => rfl) line
      | quote =>
          obtain ⟨rfl, rfl⟩ := Prod.mk.inj (Except.ok.inj h)
          exact depthBound_quote line
      | table => exact absurd rfl hkind
      | paragraph =>
          simp only [Kind.parseBlock, ParagraphParser.parseBlock] at h
          split_ifs at h with hstarted hempty <;> obtain ⟨rfl, rfl⟩ := Prod.mk.inj (Except.ok.inj h)
          · exact htag rfl
          · obtain rfl := List.isEmpty_iff.mp hempty
            exact htag (w := bytes "</p>") rfl
          · exact depthBound_append_space _ hsp.1 hsp.2
      | checklist => simp [Kind.listTags] at hL
      | orderedList => simp [Kind.listTags] at hL
      | unorderedList => simp [Kind.listTags] at hL

/-- How many parsers a new parser may open with its first line, itself included. -/
def depth (kind : Kind) (line : Bytes) : Nat := if kind = .quote then line.count (ch '>') + 2 else 1

theorem getBlockParserForLine_eq_quote (h : getBlockParserForLine line = some .quote) : ∃ t, line = ch '>' :: t := by
  by_cases hquote : QuoteParser.isStartingLine line = true
  · obtain ⟨t, rfl, -⟩ := QuoteParser.isStartingLine_iff.mp hquote
    exact ⟨t, rfl⟩
  · exfalso
    simp only [getBlockParserForLine, hquote] at h
    split_ifs at h <;> simp_all

theorem getBlockParserForLine_eq_table (h : getBlockParserForLine line = some .table) : line = bytes "|table>" := by
  by_cases htable : TableParser.isStartingLine line = true
  · exact TableParser.isStartingLine_iff.mp htable
  · exfalso
    simp only [getBlockParserForLine, htable] at h
    split_ifs at h <;> simp_all

theorem newChild_eq_quote (h : kind.newChild line = some .quote) : ∃ t, line = ch '>' :: t := by
  cases kind with
  | quote => exact getBlockParserForLine_eq_quote h
  | checklist =>
      simp only [Kind.newChild, Kind.isInlineBlockAllowed, Kind.getBlockParserForLineCallback, if_true] at h
      split_ifs at h
      simp at h
  | orderedList | unorderedList =>
      simp only [Kind.newChild, Kind.isInlineBlockAllowed, Kind.getBlockParserForLineCallback, if_true] at h
      split_ifs at h <;> simp at h
  | codeBlock | headline | horizontalLine | table | paragraph => simp [Kind.newChild, Kind.isInlineBlockAllowed] at h

theorem newChild_list_of_tag (hL : kind.listTags = some L) (h : line.head? = some (ch '<')) :
    kind.newChild line = none := by
  have hnot : ChecklistParser.isStartingLine line = false ∧ OrderedListParser.isStartingLine line = false ∧
      UnorderedListParser.isStartingLine line = false := by
    simp only [← Bool.not_eq_true, ← not_or]
    intro hstart
    obtain ⟨c, hc, hhead⟩ := listStart_head hstart
    obtain rfl : ch '<' = c := Option.some.inj (h.symm.trans hhead)
    exact absurd hc (by decide)
  cases kind <;> simp only [Kind.listTags, reduceCtorEq] at hL <;>
    simp [Kind.newChild, Kind.isInlineBlockAllowed, Kind.getBlockParserForLineCallback, hnot]

/-- What is left of a line in a quote. -/
theorem quote_line (line : Bytes) : QuoteParser.parseBlock line = [] ∨ ∃ w, QuoteParser.parseBlock line = w ++ bytes " " := by
  rw [QuoteParser.parseBlock]
  split_ifs with hempty
  · exact .inl (List.isEmpty_iff.mp hempty)
  · exact .inr ⟨_, rfl⟩

/-- A quote in a quote has lost a mark. -/
theorem quote_count (h : ∃ t, QuoteParser.parseBlock line = ch '>' :: t) :
    (QuoteParser.parseBlock line).count (ch '>') < line.count (ch '>') := by
  obtain ⟨t, ht⟩ := h
  have hcount : ∀ line, (replaceFront (Regex.word (bytes "> ")) QuoteParser.withSpace_consumes [] line).count (ch '>') ≤
      line.count (ch '>') := by
    intro line
    by_cases hpre : bytes "> " <+: line
    · obtain ⟨rest, rfl⟩ := hpre
      rw [replaceFront_word]
      exact (List.suffix_append _ rest).sublist.count_le _
    · rw [replaceFront_word_of_not _ _ hpre]
  have hle := hcount line
  rw [QuoteParser.parseBlock] at ht ⊢
  generalize replaceFront (Regex.word (bytes "> ")) QuoteParser.withSpace_consumes [] line = stripped at ht hle ⊢
  by_cases hpre : bytes ">" <+: stripped
  · obtain ⟨rest, rfl⟩ := hpre
    have hmark : (bytes ">" ++ rest).count (ch '>') = rest.count (ch '>') + 1 := List.count_cons_self
    have hspace : (bytes " ").count (ch '>') = 0 := rfl
    simp only [replaceFront_word, fill, List.flatMap_nil, List.nil_append]
    split_ifs
    · omega
    · rw [List.count_append, hspace]
      omega
  · rw [replaceFront_word_of_not _ _ hpre] at ht
    cases stripped with
    | nil => simp at ht
    | cons c rest =>
        obtain ⟨rfl, -⟩ : c = ch '>' ∧ rest ++ bytes " " = t := List.cons.inj ht
        exact absurd ⟨rest, rfl⟩ hpre

theorem one_le_depth (kind : Kind) (line : Bytes) : 1 ≤ depth kind line := by
  rw [depth]
  split_ifs <;> omega

theorem depth_le (h : kind.newChild line = some new) : depth new line ≤ depthBound line := by
  rw [depth]
  split_ifs with hquote
  · obtain ⟨t, rfl⟩ := newChild_eq_quote (hquote ▸ h)
    exact le_rfl
  · exact one_le_depthBound line

namespace BlockParser

variable {first first' : Kind → Bytes → Except Fault BlockParser}

section equations

variable (hkind : kind ≠ .table) (hparse : kind.parseBlock (startQuote kind f) line = .ok (f', line'))

include hkind hparse

/-- A line that the parser keeps for itself. -/
theorem addLineWith_append (hnew : kind.newChild line' = none) :
    addLineWith first (.node kind f .null) line = .ok (appendLine kind line.isEmpty f' line') := by
  rw [addLineWith, if_neg hkind, hparse]
  simp [bind, Except.bind, hnew]

/-- A line that opens a child. -/
theorem addLineWith_new (hnew : kind.newChild line' = some new) :
    addLineWith first (.node kind f .null) line = (first new line').map (withChild kind f') := by
  rw [addLineWith, if_neg hkind, hparse]
  simp only [bind, Except.bind, hnew]
  rfl

/-- A line for the child. -/
theorem addLineWith_child {kind' : Kind} {g : Fields} {child : BlockParser} :
    addLineWith first (.node kind f (.node kind' g child)) line =
      (addLineWith first (.node kind' g child) line').map (withChild kind f') := by
  rw [addLineWith, if_neg hkind, hparse]
  rfl

end equations

/-- Only lines that are no deeper matter. -/
theorem addLineWith_congr (p : BlockParser) {line : Bytes}
    (h : ∀ new line', depth new line' ≤ depthBound line → first new line' = first' new line') :
    addLineWith first p line = addLineWith first' p line := by
  induction p generalizing line with
  | null => rfl
  | node kind f child ih =>
      by_cases htable : kind = .table
      · rw [addLineWith, addLineWith, if_pos htable, if_pos htable]
      · cases hparse : kind.parseBlock (startQuote kind f) line with
        | error e =>
            rw [addLineWith, addLineWith, if_neg htable, if_neg htable, hparse]
            rfl
        | ok r =>
            obtain ⟨f', line'⟩ := r
            have hle := depthBound_parseBlock htable hparse
            cases child with
            | null =>
                cases hnew : kind.newChild line' with
                | none => rw [addLineWith_append htable hparse hnew, addLineWith_append htable hparse hnew]
                | some new =>
                    rw [addLineWith_new htable hparse hnew, addLineWith_new htable hparse hnew,
                      h new line' ((depth_le hnew).trans hle)]
            | node kind' g child =>
                rw [addLineWith_child htable hparse, addLineWith_child htable hparse,
                  ih fun new line'' hdepth => h new line'' (hdepth.trans hle)]

/-- The child that a new parser opens may open fewer parsers. -/
theorem depth_lt (hparse : kind.parseBlock (startQuote kind {}) line = .ok (f', line'))
    (hnew : kind.newChild line' = some new) : depth new line' < depth kind line := by
  cases hL : kind.listTags with
  | some L =>
      exfalso
      rcases list_cases hL (startQuote kind {}) line with ⟨-, heq⟩ | ⟨hstarted, -⟩ | ⟨hstarted, -⟩ | ⟨hstarted, -⟩
      · obtain ⟨-, rfl⟩ := Prod.mk.inj (Except.ok.inj (heq.symm.trans hparse))
        have hhead : (L.opening ++ L.strip line).head? = some (ch '<') := by
          rw [List.head?_append, (listTags_head hL).1]
          rfl
        rw [newChild_list_of_tag hL hhead] at hnew
        simp at hnew
      all_goals cases kind <;> simp [Kind.listTags, startQuote] at hL hstarted
  | none =>
      cases kind with
      | quote =>
          obtain ⟨-, rfl⟩ := Prod.mk.inj (Except.ok.inj hparse)
          rw [depth, depth, if_pos rfl]
          split_ifs with hquote
          · have := quote_count (newChild_eq_quote (hquote ▸ hnew))
            omega
          · omega
      | codeBlock | headline | horizontalLine | table | paragraph => simp [Kind.newChild, Kind.isInlineBlockAllowed] at hnew
      | checklist => simp [Kind.listTags] at hL
      | orderedList => simp [Kind.listTags] at hL
      | unorderedList => simp [Kind.listTags] at hL

/-- The bound on the parsers that are opened does not matter. -/
theorem firstLine_eq {n m : Nat} (hn : depth kind line ≤ n) (hm : depth kind line ≤ m) :
    firstLine n kind line = firstLine m kind line := by
  induction n generalizing m kind line with
  | zero =>
      have := one_le_depth kind line
      omega
  | succ n ih =>
      obtain ⟨m, rfl⟩ : ∃ k, m = k + 1 := by
        have := one_le_depth kind line
        exact ⟨m - 1, by omega⟩
      rw [firstLine, firstLine]
      by_cases htable : kind = .table
      · rw [addLineWith, addLineWith, if_pos htable, if_pos htable]
      · cases hparse : kind.parseBlock (startQuote kind {}) line with
        | error e =>
            rw [addLineWith, addLineWith, if_neg htable, if_neg htable, hparse]
            rfl
        | ok r =>
            obtain ⟨f', line'⟩ := r
            cases hnew : kind.newChild line' with
            | none => rw [addLineWith_append htable hparse hnew, addLineWith_append htable hparse hnew]
            | some new =>
                have hlt := depth_lt hparse hnew
                have hsame : firstLine n new line' = firstLine m new line' := ih (by omega) (by omega)
                rw [addLineWith_new htable hparse hnew, addLineWith_new htable hparse hnew, hsame]

theorem addLineWith_eq_addLine (p : BlockParser) {n : Nat} (h : depthBound line ≤ n) :
    addLineWith (firstLine n) p line = addLine p line :=
  addLineWith_congr p fun _ _ hdepth =>
    firstLine_eq (hdepth.trans h) (hdepth.trans (depthBound_le line))

section equations

variable (hkind : kind ≠ .table) (hparse : kind.parseBlock (startQuote kind f) line = .ok (f', line'))

include hkind hparse

/-- `AddLine`, if there is no child and none is opened. -/
theorem addLine_append (hnew : kind.newChild line' = none) :
    addLine (.node kind f .null) line = .ok (appendLine kind line.isEmpty f' line') :=
  addLineWith_append hkind hparse hnew

/-- `AddLine`, if a child is opened: it gets what is left of the line. -/
theorem addLine_new (hnew : kind.newChild line' = some new) :
    addLine (.node kind f .null) line = (addLine (.node new {} .null) line').map (withChild kind f') := by
  have hdepth := depth_le hnew
  have hle := hdepth.trans ((depthBound_parseBlock hkind hparse).trans (depthBound_le line))
  have hle' := hdepth.trans (depthBound_le line')
  have hfirst : firstLine (line.length + 2) new line' = addLine (.node new {} .null) line' :=
    firstLine_eq (m := line'.length + 2 + 1) hle (by omega)
  rw [addLine, addLineWith_new hkind hparse hnew, hfirst]

/-- `AddLine`, if there is a child. -/
theorem addLine_child {kind' : Kind} {g : Fields} {child : BlockParser} :
    addLine (.node kind f (.node kind' g child)) line = (addLine (.node kind' g child) line').map (withChild kind f') := by
  rw [addLine, addLineWith_child hkind hparse,
    addLineWith_eq_addLine _ ((depthBound_parseBlock hkind hparse).trans (depthBound_le line))]

end equations

/-! ### What adding a line can do -/

/-- A line is added to a parser that is no table. -/
inductive Adds : BlockParser → Bytes → BlockParser → Prop
  | append {kind : Kind} {f f' : Fields} {line line' : Bytes}
      (hparse : kind.parseBlock (startQuote kind f) line = .ok (f', line')) (hnew : kind.newChild line' = none) :
      Adds (.node kind f .null) line (appendLine kind line.isEmpty f' line')
  | new {kind new : Kind} {f f' : Fields} {line line' : Bytes} {child : BlockParser}
      (hparse : kind.parseBlock (startQuote kind f) line = .ok (f', line')) (hnew : kind.newChild line' = some new)
      (hchild : Adds (.node new {} .null) line' child) : Adds (.node kind f .null) line (withChild kind f' child)
  | child {kind kind' : Kind} {f f' g : Fields} {line line' : Bytes} {child child' : BlockParser}
      (hparse : kind.parseBlock (startQuote kind f) line = .ok (f', line'))
      (hchild : Adds (.node kind' g child) line' child') :
      Adds (.node kind f (.node kind' g child)) line (withChild kind f' child')

/-- No parser of a chain is a table. -/
def NoTable : BlockParser → Prop
  | .null => True
  | .node kind _ child => kind ≠ .table ∧ NoTable child

theorem noTable_withChild (hkind : kind ≠ .table) (f : Fields) {child : BlockParser} (h : NoTable child) :
    NoTable (withChild kind f child) := by
  rw [withChild]
  split_ifs
  · exact ⟨hkind, trivial⟩
  · exact ⟨hkind, h⟩

/-- `parseBlock` does not fail: the marker of a line that is indented is not taken away, so that there are two bytes
for `substr` to leave out. -/
theorem exists_parseBlock (kind : Kind) (f : Fields) (line : Bytes) :
    ∃ f' line', kind.parseBlock f line = .ok (f', line') := by
  cases hL : kind.listTags with
  | some L => rcases list_cases hL f line with ⟨-, h⟩ | ⟨-, -, h⟩ | ⟨-, -, -, h⟩ | ⟨-, -, -, -, h⟩ <;> exact ⟨_, _, h⟩
  | none => cases kind <;> simp only [Kind.listTags, reduceCtorEq] at hL <;> exact ⟨_, _, rfl⟩

/-- A line in a quote ends with a space, so it starts no table. -/
theorem quote_ne_table (line : Bytes) : QuoteParser.parseBlock line ≠ bytes "|table>" := by
  intro htable
  rcases quote_line line with hline | ⟨w, hline⟩
  · rw [hline] at htable
    simp [bytes] at htable
  · rw [hline] at htable
    have hlast := congrArg List.getLast? htable
    rw [List.getLast?_append] at hlast
    have hne : sp ≠ ch '>' := by decide
    exact hne (Option.some.inj hlast)

theorem newChild_ne_table (hparse : kind.parseBlock f line = .ok (f', line')) : kind.newChild line' ≠ some .table := by
  intro hnew
  cases kind with
  | quote =>
      obtain ⟨-, rfl⟩ := Prod.mk.inj (Except.ok.inj hparse)
      exact quote_ne_table line (getBlockParserForLine_eq_table hnew)
  | checklist =>
      simp only [Kind.newChild, Kind.isInlineBlockAllowed, Kind.getBlockParserForLineCallback, if_true] at hnew
      split_ifs at hnew
      simp at hnew
  | orderedList | unorderedList =>
      simp only [Kind.newChild, Kind.isInlineBlockAllowed, Kind.getBlockParserForLineCallback, if_true] at hnew
      split_ifs at hnew <;> simp at hnew
  | codeBlock | headline | horizontalLine | table | paragraph => simp [Kind.newChild, Kind.isInlineBlockAllowed] at hnew

theorem exists_adds_new (hkind : kind ≠ .table) (line : Bytes) :
    ∃ p, addLine (.node kind {} .null) line = .ok p ∧ Adds (.node kind {} .null) line p ∧ NoTable p := by
  induction hdepth : depth kind line using Nat.strong_induction_on generalizing kind line with
  | _ n ih =>
      obtain ⟨f', line', hparse⟩ := exists_parseBlock kind (startQuote kind {}) line
      cases hnew : kind.newChild line' with
      | none => exact ⟨_, addLine_append hkind hparse hnew, .append hparse hnew, hkind, trivial⟩
      | some new =>
          have hlt := depth_lt hparse hnew
          obtain ⟨child, hchild, hadds, hno⟩ :=
            ih _ (hdepth ▸ hlt) (fun htable => newChild_ne_table hparse (htable ▸ hnew)) line' rfl
          refine ⟨withChild kind f' child, ?_, .new hparse hnew hadds, noTable_withChild hkind _ hno⟩
          rw [addLine_new hkind hparse hnew, hchild]
          rfl

/-- Adding a line to a parser that is no table does not fail. -/
theorem exists_adds {f : Fields} {child : BlockParser} (h : NoTable (.node kind f child)) (line : Bytes) :
    ∃ p, addLine (.node kind f child) line = .ok p ∧ Adds (.node kind f child) line p ∧ NoTable p := by
  induction hp : BlockParser.node kind f child generalizing kind f child line with
  | null => simp at hp
  | node kind' f' child' ih =>
      obtain ⟨rfl, rfl, rfl⟩ := BlockParser.node.inj hp
      obtain ⟨hkind, hchild⟩ := h
      obtain ⟨f', line', hparse⟩ := exists_parseBlock kind (startQuote kind f) line
      cases child with
      | null =>
          cases hnew : kind.newChild line' with
          | none => exact ⟨_, addLine_append hkind hparse hnew, .append hparse hnew, hkind, trivial⟩
          | some new =>
              obtain ⟨child, heq, hadds, hno⟩ :=
                exists_adds_new (fun htable => newChild_ne_table hparse (htable ▸ hnew)) line'
              refine ⟨withChild kind f' child, ?_, .new hparse hnew hadds, noTable_withChild hkind _ hno⟩
              rw [addLine_new hkind hparse hnew, heq]
              rfl
      | node kind' g child =>
          obtain ⟨child', heq, hadds, hno⟩ := ih hchild line' rfl
          refine ⟨withChild kind f' child', ?_, .child hparse hadds, noTable_withChild hkind _ hno⟩
          rw [addLine_child hkind hparse, heq]
          rfl

end BlockParser

end Maddy

end WebServer
