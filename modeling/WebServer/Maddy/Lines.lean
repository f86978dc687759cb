import WebServer.Maddy.Parser

/-!
# The lines that the block parsers look for

Which lines each kind of block starts with, and what the expressions that are anchored at the start of a line take
away.
-/

namespace WebServer

namespace Maddy

open Lib

variable {line rest w : Bytes} {r : Regex UInt8} {a b : Place UInt8} {d : UInt8}

/-! ### The lines of a text -/

theorem getlines_append (h : d ∉ line) (rest : Bytes) : getlines d (line ++ d :: rest) = line :: getlines d rest := by
  induction line with
  | nil => simp [getlines]
  | cons c line ih =>
      obtain ⟨hc, hline⟩ := not_or.mp (List.mem_cons.not.mp h)
      rw [List.cons_append, getlines, if_neg (Ne.symm hc), ih hline]

theorem getlines_withEnds {lines : List Bytes} (h : ∀ l ∈ lines, d ∉ l) (rest : Bytes) :
    getlines d (withEnds [d] lines ++ rest) = lines ++ getlines d rest := by
  induction lines with
  | nil => rfl
  | cons l lines ih =>
      obtain ⟨hl, hlines⟩ := List.forall_mem_cons.mp h
      simp only [withEnds_cons, List.append_assoc, List.cons_append, List.nil_append]
      rw [getlines_append hl, ih hlines]

theorem getlines_withEnds_self {lines : List Bytes} (h : ∀ l ∈ lines, d ∉ l) : getlines d (withEnds [d] lines) = lines := by
  have hends := getlines_withEnds h []
  rwa [List.append_nil, getlines, List.append_nil] at hends

/-- A text whose last line has an end is put together again from its lines. -/
theorem withEnds_getlines (d : UInt8) (text : Bytes) :
    withEnds [d] (getlines d (text ++ [d])) = text ++ [d] ∧ ∀ l ∈ getlines d (text ++ [d]), d ∉ l := by
  induction text with
  | nil => simp [getlines]
  | cons c text ih =>
      obtain ⟨htext, hlines⟩ := ih
      rw [List.cons_append, getlines]
      split_ifs with hc
      · subst hc
        simpa [htext] using hlines
      · cases hget : getlines d (text ++ [d]) with
        | nil => simp [hget] at htext
        | cons l ls =>
            rw [hget, withEnds_cons] at htext
            rw [hget] at hlines
            refine ⟨by simpa using htext, ?_⟩
            simpa [Ne.symm hc] using hlines

/-- The parts of a text have no other bytes than the text. -/
theorem mem_of_mem_getlines {c : UInt8} {l : Bytes} (hl : l ∈ getlines d line) (hc : c ∈ l) : c ∈ line := by
  induction line generalizing l with
  | nil => simp [getlines] at hl
  | cons e line ih =>
      rw [getlines] at hl
      split_ifs at hl with he
      · rcases List.mem_cons.mp hl with rfl | hmem
        · simp at hc
        · exact List.mem_cons_of_mem _ (ih hmem hc)
      · cases hget : getlines d line with
        | nil =>
            rw [hget] at hl
            obtain rfl := List.mem_singleton.mp hl
            exact List.mem_cons.mpr (.inl (List.mem_singleton.mp hc))
        | cons l' ls =>
            rw [hget] at hl ih
            rcases List.mem_cons.mp hl with rfl | hmem
            · rcases List.mem_cons.mp hc with rfl | hc
              · exact List.mem_cons_self
              · exact List.mem_cons_of_mem _ (ih List.mem_cons_self hc)
            · exact List.mem_cons_of_mem _ (ih (List.mem_cons_of_mem _ hmem) hc)

/-! ### Expressions at the start of a line -/

theorem matches_bol {gs : List (Nat × Bytes)} :
    Regex.Matches (.seq .bol r) ⟨true, line, gs⟩ b ↔ Regex.Matches r ⟨true, line, gs⟩ b := by
  simp [Regex.Matches]

/-- The only match at the start of a line is replaced. -/
theorem replaceFront_of_matches (hr : r.consumes = true) (replacement : Replacement)
    (h : Regex.Matches r ⟨true, line, []⟩ b) (huniq : ∀ b', Regex.Matches r ⟨true, line, []⟩ b' → b' = b) :
    replaceFront r hr replacement line = fill b.groups replacement ++ b.rest :=
  Pattern.replace_anchored_of_some rfl (Regex.first?_eq_some (matches_bol.mpr h) fun b' hb' => huniq b' (matches_bol.mp hb'))

theorem replaceFront_of_forall_not (hr : r.consumes = true) (replacement : Replacement)
    (h : ∀ b, ¬ Regex.Matches r ⟨true, line, []⟩ b) : replaceFront r hr replacement line = line :=
  Pattern.replace_anchored_of_none rfl (Regex.first?_eq_none.mpr fun b hb => h b (matches_bol.mp hb))

theorem replaceFront_word (hw : (Regex.word w).consumes = true) (replacement : Replacement) (rest : Bytes) :
    replaceFront (Regex.word w) hw replacement (w ++ rest) = fill [] replacement ++ rest := by
  refine replaceFront_of_matches (b := Place.after ⟨true, w ++ rest, []⟩ w rest) hw replacement
    (Regex.matches_word.mpr ⟨rest, rfl, rfl⟩) fun b' hb' => ?_
  obtain ⟨rest', hrest, rfl⟩ := Regex.matches_word.mp hb'
  rw [List.append_cancel_left hrest]

theorem replaceFront_word_of_not (hw : (Regex.word w).consumes = true) (replacement : Replacement)
    (h : ¬ w <+: line) : replaceFront (Regex.word w) hw replacement line = line := by
  refine replaceFront_of_forall_not hw replacement fun b hb => ?_
  obtain ⟨rest, hrest, -⟩ := Regex.matches_word.mp hb
  exact h ⟨rest, hrest.symm⟩

/-- A marker in a group is taken away. -/
theorem replaceFront_group (hw : (Regex.group 1 (Regex.word w)).consumes = true) (rest : Bytes) :
    replaceFront (.group 1 (Regex.word w)) hw [] (w ++ rest) = rest := by
  refine replaceFront_of_matches (b := ⟨_, rest, _⟩) hw [] ⟨_, Regex.matches_word.mpr ⟨rest, rfl, rfl⟩, rfl⟩
    fun b' hb' => ?_
  obtain ⟨m, hm, rfl⟩ := hb'
  obtain ⟨rest', hrest, rfl⟩ := Regex.matches_word.mp hm
  obtain rfl := List.append_cancel_left hrest
  rfl

theorem replaceFront_group_of_not (hw : (Regex.group 1 (Regex.word w)).consumes = true) (h : ¬ w <+: line) :
    replaceFront (.group 1 (Regex.word w)) hw [] line = line := by
  refine replaceFront_of_forall_not hw [] fun b hb => ?_
  obtain ⟨m, hm, -⟩ := hb
  obtain ⟨rest, hrest, -⟩ := Regex.matches_word.mp hm
  exact h ⟨rest, hrest.symm⟩

/-- What is replaced at the start of a line is a match. -/
theorem replaceFront_cases (hr : r.consumes = true) (replacement : Replacement) (line : Bytes) :
    replaceFront r hr replacement line = line ∨ ∃ b, Regex.Matches r ⟨true, line, []⟩ b ∧
      replaceFront r hr replacement line = fill b.groups replacement ++ b.rest := by
  cases hfirst : Regex.first? (.seq .bol r) ⟨true, line, []⟩ with
  | none => exact .inl (Pattern.replace_anchored_of_none rfl hfirst)
  | some b =>
      exact .inr ⟨b, matches_bol.mp (Regex.matches_of_first? hfirst), Pattern.replace_anchored_of_some rfl hfirst⟩

/-! ### Whole lines -/

theorem fullMatch_dots : Regex.fullMatch (.seq .bol (.seq r dots)) line = true ↔
    ∃ m, Regex.Matches r ⟨true, line, []⟩ m ∧ ∀ c ∈ m.rest, IsDot c := by
  simp only [Regex.fullMatch_iff, matches_bol]
  constructor
  · rintro ⟨b, ⟨m, hm, hdots⟩, hb⟩
    obtain ⟨w, rest, hw, hdot, rfl⟩ := matches_dots.mp hdots
    obtain rfl : rest = [] := hb
    rw [List.append_nil] at hw
    exact ⟨m, hm, hw ▸ hdot⟩
  · rintro ⟨m, hm, hdot⟩
    exact ⟨m.after m.rest [], ⟨m, hm, matches_dots.mpr ⟨m.rest, [], by simp, hdot, rfl⟩⟩, rfl⟩

theorem fullMatch_wordDots : Regex.fullMatch (.seq .bol (.seq (Regex.word w) dots)) line = true ↔
    ∃ t, line = w ++ t ∧ ∀ c ∈ t, IsDot c := by
  simp only [fullMatch_dots, Regex.matches_word]
  constructor
  · rintro ⟨_, ⟨t, hline, rfl⟩, ht⟩
    exact ⟨t, hline, ht⟩
  · rintro ⟨t, hline, ht⟩
    exact ⟨_, ⟨t, hline, rfl⟩, ht⟩

theorem fullMatch_eol : Regex.fullMatch (.seq .bol (.seq r .eol)) line = true ↔
    ∃ m, Regex.Matches r ⟨true, line, []⟩ m ∧ m.rest = [] := by
  simp only [Regex.fullMatch_iff, matches_bol]
  constructor
  · rintro ⟨b, ⟨m, hm, rfl, hrest⟩, -⟩
    exact ⟨b, hm, hrest⟩
  · rintro ⟨m, hm, hrest⟩
    exact ⟨m, ⟨m, hm, rfl, hrest⟩, hrest⟩

theorem CodeBlockParser.isStartingLine_iff : CodeBlockParser.isStartingLine line = true ↔ line = bytes "```" := by
  simp only [CodeBlockParser.isStartingLine, fullMatch_eol, Regex.matches_times_word]
  constructor
  · rintro ⟨_, ⟨rest, hline, rfl⟩, hrest⟩
    obtain rfl : rest = [] := hrest
    simpa [bytes] using hline
  · rintro rfl
    exact ⟨_, ⟨[], rfl, rfl⟩, rfl⟩

/-- The marks of a headline. -/
def hashes (n : Nat) : Bytes := List.replicate n (ch '#') ++ bytes " "

theorem HeadlineParser.isStartingLine_iff : HeadlineParser.isStartingLine line = true ↔
    ∃ n t, 1 ≤ n ∧ n ≤ 6 ∧ line = hashes n ++ t ∧ ∀ c ∈ t, IsDot c := by
  have hflat : ∀ n, (List.replicate n (bytes "#")).flatten = List.replicate n (ch '#') := by
    intro n
    simp [bytes]
  simp only [HeadlineParser.isStartingLine, Regex.fullMatch_iff, matches_bol]
  constructor
  · rintro ⟨b, ⟨m₁, hm₁, m₂, hm₂, m₃, hm₃, m₄, hm₄, rfl⟩, hb⟩
    obtain ⟨rest₁, hrest₁, rfl⟩ := Regex.matches_word.mp hm₁
    obtain ⟨k, hk, htimes⟩ := Regex.matches_upTo.mp hm₂
    obtain ⟨rest₂, hrest₂, rfl⟩ := Regex.matches_times_word.mp htimes
    obtain ⟨rest₃, hrest₃, rfl⟩ := Regex.matches_word.mp hm₃
    obtain ⟨t, rest₄, hrest₄, ht, rfl⟩ := matches_dots.mp hm₄
    obtain rfl : rest₄ = [] := hb
    simp only [Place.after_rest, hflat] at hrest₁ hrest₂ hrest₃ hrest₄
    refine ⟨k + 1, t, by omega, by omega, ?_, ht⟩
    rw [hrest₁, hrest₂, hrest₃, hrest₄, hashes, List.replicate_succ]
    simp [bytes]
  · rintro ⟨n, t, h1, h6, rfl, ht⟩
    obtain ⟨k, rfl⟩ : ∃ k, n = k + 1 := ⟨n - 1, by omega⟩
    have hline : hashes (k + 1) ++ t = bytes "#" ++ (List.replicate k (ch '#') ++ (bytes " " ++ t)) := by
      simp [hashes, List.replicate_succ, bytes]
    refine ⟨_, ⟨_, Regex.matches_word.mpr ⟨_, hline, rfl⟩, _, Regex.matches_upTo.mpr ⟨k, by omega,
      Regex.matches_times_word.mpr ⟨bytes " " ++ t, by rw [hflat]; rfl, rfl⟩⟩, _, Regex.matches_word.mpr ⟨t, rfl, rfl⟩,
      _, matches_dots.mpr ⟨t, [], by simp, ht, rfl⟩, rfl⟩, rfl⟩

theorem HorizontalLineParser.isStartingLine_iff :
    HorizontalLineParser.isStartingLine line = true ↔ line = bytes "---" := by
  simp only [HorizontalLineParser.isStartingLine, HorizontalLineParser.rule, Regex.fullMatch_iff, matches_bol]
  constructor
  · rintro ⟨b, ⟨m, hm, rfl, hrest⟩, -⟩
    obtain ⟨rest, hline, rfl⟩ := Regex.matches_word.mp hm
    obtain rfl : rest = [] := hrest
    simpa using hline
  · rintro rfl
    exact ⟨_, ⟨_, Regex.matches_word.mpr ⟨[], by simp, rfl⟩, rfl, rfl⟩, rfl⟩

theorem QuoteParser.isStartingLine_iff :
    QuoteParser.isStartingLine line = true ↔ ∃ t, line = ch '>' :: t ∧ ∀ c ∈ t, IsDot c := fullMatch_wordDots

theorem TableParser.isStartingLine_iff : TableParser.isStartingLine line = true ↔ line = bytes "|table>" := by
  rw [TableParser.isStartingLine, beq_iff_eq]

theorem OrderedListParser.isStartingLine_iff :
    OrderedListParser.isStartingLine line = true ↔ ∃ t, line = bytes "1. " ++ t ∧ ∀ c ∈ t, IsDot c := fullMatch_wordDots

theorem ParagraphParser.isStartingLine_iff : ParagraphParser.isStartingLine line = true ↔ line ≠ [] := by
  simp [ParagraphParser.isStartingLine]

theorem ChecklistParser.isStartingLine_iff : ChecklistParser.isStartingLine line = true ↔
    ∃ c t, (c = ch 'x' ∨ c = ch '|' ∨ c = sp) ∧ line = bytes "- [" ++ c :: (bytes "] " ++ t) ∧ ∀ c ∈ t, IsDot c := by
  simp only [ChecklistParser.isStartingLine, Regex.fullMatch_iff, matches_bol]
  constructor
  · rintro ⟨b, ⟨m₁, hm₁, m₂, hm₂, m₃, hm₃, hm₄⟩, hb⟩
    obtain ⟨rest₁, hrest₁, rfl⟩ := Regex.matches_word.mp hm₁
    obtain ⟨c, rest₂, hrest₂, hc, rfl⟩ := Regex.matches_one.mp hm₂
    obtain ⟨rest₃, hrest₃, rfl⟩ := Regex.matches_word.mp hm₃
    obtain ⟨t, rest₄, hrest₄, ht, rfl⟩ := matches_dots.mp hm₄
    obtain rfl : rest₄ = [] := hb
    simp only [Place.after_rest] at hrest₁ hrest₂ hrest₃ hrest₄
    refine ⟨c, t, by simpa [or_assoc] using hc, ?_, ht⟩
    rw [hrest₁, hrest₂, hrest₃, hrest₄, List.append_nil]
  · rintro ⟨c, t, hc, rfl, ht⟩
    exact ⟨_, ⟨_, Regex.matches_word.mpr ⟨_, rfl, rfl⟩, _, Regex.matches_one.mpr ⟨c, _, rfl, by simpa [or_assoc] using hc, rfl⟩,
      _, Regex.matches_word.mpr ⟨t, rfl, rfl⟩, matches_dots.mpr ⟨t, [], by simp, ht, rfl⟩⟩, rfl⟩

theorem OrderedListParser.isStartOfNewListItem_iff : OrderedListParser.isStartOfNewListItem line = true ↔
    ∃ m t, (m = bytes "1. " ∨ m = bytes "* ") ∧ line = m ++ t ∧ ∀ c ∈ t, IsDot c := by
  simp only [OrderedListParser.isStartOfNewListItem, fullMatch_dots]
  constructor
  · rintro ⟨m, hm | hm, hdots⟩
    · obtain ⟨t, hline, rfl⟩ := Regex.matches_word.mp hm
      exact ⟨_, t, .inl rfl, hline, hdots⟩
    · obtain ⟨t, hline, rfl⟩ := Regex.matches_word.mp hm
      exact ⟨_, t, .inr rfl, hline, hdots⟩
  · rintro ⟨m, t, rfl | rfl, hline, hdots⟩
    · exact ⟨_, .inl (Regex.matches_word.mpr ⟨t, hline, rfl⟩), hdots⟩
    · exact ⟨_, .inr (Regex.matches_word.mpr ⟨t, hline, rfl⟩), hdots⟩

theorem UnorderedListParser.isStartingLine_iff : UnorderedListParser.isStartingLine line = true ↔
    ∃ c t, isBullet c = true ∧ line = c :: (bytes " " ++ t) ∧ ∀ c ∈ t, IsDot c := by
  simp only [UnorderedListParser.isStartingLine, Regex.fullMatch_iff, matches_bol]
  constructor
  · rintro ⟨b, ⟨m₁, hm₁, m₂, hm₂, hm₃⟩, hb⟩
    obtain ⟨c, rest₁, hrest₁, hc, rfl⟩ := Regex.matches_one.mp hm₁
    obtain ⟨rest₂, hrest₂, rfl⟩ := Regex.matches_word.mp hm₂
    obtain ⟨t, rest₃, hrest₃, ht, rfl⟩ := matches_dots.mp hm₃
    obtain rfl : rest₃ = [] := hb
    simp only [Place.after_rest] at hrest₁ hrest₂ hrest₃
    exact ⟨c, t, hc, by rw [hrest₁, hrest₂, hrest₃, List.append_nil], ht⟩
  · rintro ⟨c, t, hc, rfl, ht⟩
    exact ⟨_, ⟨_, Regex.matches_one.mpr ⟨c, _, rfl, hc, rfl⟩, _, Regex.matches_word.mpr ⟨t, rfl, rfl⟩,
      matches_dots.mpr ⟨t, [], by simp, ht, rfl⟩⟩, rfl⟩

/-! ### Markers -/

/-- A line that starts with another byte stays as it is. -/
theorem replaceFront_of_head (hr : r.consumes = true) (replacement : Replacement)
    (h : ∀ c, line.head? = some c → r.starts c = false) : replaceFront r hr replacement line = line := by
  refine replaceFront_of_forall_not hr replacement fun b hb => ?_
  have hlt := hb.length_lt hr
  rcases hb.starts_or with hsame | ⟨c, rest, hrest, hc⟩
  · rw [hsame] at hlt
    omega
  · have := h c (by rw [show line = c :: rest from hrest]; rfl)
    simp [hc] at this

/-- The bytes that a marker of a list starts with. -/
def markerHeads : Bytes := bytes "-[1*+"

/-- A list starts with one of them. -/
theorem listStart_head (h : ChecklistParser.isStartingLine line = true ∨ OrderedListParser.isStartingLine line = true ∨
    UnorderedListParser.isStartingLine line = true) : ∃ c ∈ markerHeads, line.head? = some c := by
  rcases h with h | h | h
  · obtain ⟨c, t, -, rfl, -⟩ := ChecklistParser.isStartingLine_iff.mp h
    exact ⟨ch '-', by decide, rfl⟩
  · obtain ⟨t, rfl, -⟩ := OrderedListParser.isStartingLine_iff.mp h
    exact ⟨ch '1', by decide, rfl⟩
  · obtain ⟨c, t, hc, rfl, -⟩ := UnorderedListParser.isStartingLine_iff.mp h
    have hmem : c = ch '+' ∨ c = ch '*' ∨ c = ch '-' := by simpa [isBullet, or_assoc] using hc
    refine ⟨c, ?_, rfl⟩
    rcases hmem with rfl | rfl | rfl <;> decide

theorem strip_of_head (h : ∀ c, line.head? = some c → c ∉ markerHeads) :
    ChecklistParser.strip line = line ∧ OrderedListParser.strip line = line ∧ UnorderedListParser.strip line = line := by
  have hword : ∀ (w : Bytes) (c : UInt8), w.head? = some c → c ∈ markerHeads → ∀ d, line.head? = some d →
      (Regex.word w).starts d = false := by
    intro w c hw hc d hd
    cases w with
    | nil => simp at hw
    | cons e w =>
        obtain rfl : e = c := by simpa using hw
        rw [Regex.starts_word, decide_eq_false_iff_not]
        rintro rfl
        exact h d hd hc
  refine ⟨?_, ?_, ?_⟩
  · rw [ChecklistParser.strip, replaceFront_of_head (r := .group 1 (Regex.word (bytes "- "))) _ _
        (hword (bytes "- ") (ch '-') rfl (by decide)),
      replaceFront_of_head _ _ (hword (bytes "[ ]") (ch '[') rfl (by decide)),
      replaceFront_of_head _ _ (hword (bytes "[x]") (ch '[') rfl (by decide))]
  · rw [OrderedListParser.strip, replaceFront_of_head _ _ (hword (bytes "1. ") (ch '1') rfl (by decide)),
      replaceFront_of_head (r := .group 1 (Regex.word (bytes "* "))) _ _
        (hword (bytes "* ") (ch '*') rfl (by decide))]
  · refine replaceFront_of_head _ _ fun d hd => ?_
    have hd' : isBullet d = false := by
      have hne : d ≠ ch '-' ∧ d ≠ ch '[' ∧ d ≠ ch '1' ∧ d ≠ ch '*' ∧ d ≠ ch '+' := by
        simpa [markerHeads, bytes] using h d hd
      simp [isBullet, hne.1, hne.2.2.2.1, hne.2.2.2.2]
    simpa [UnorderedListParser.marker, Regex.starts, Regex.consumes] using hd'

end Maddy

end WebServer
