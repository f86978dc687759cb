import WebServer.Lib.BlockSearch

/-!
# Searching a tree in pre-order

The rows of a tree are the tokens of its statements in pre-order: a statement comes before its block, and before the
statements behind it. A place in them is a row and a position in it, and places are ordered as they are read. The word that
`wordBehind` finds in the text of a tree is the one behind the first place of the key that has one behind it
(`wordBehind_configLexemes`, `rowsBehind_eq_some`).
-/

namespace Lib

variable {α : Type}

mutual

/-- The tokens of a statement, and of those in its block. -/
def Statement.rows : Statement α → List (List α)
  | ⟨tokens, childBlock⟩ => tokens :: blockRows childBlock
termination_by structural s => s

def blockRows : Option (List (Statement α)) → List (List α)
  | none => []
  | some child => configRows child
termination_by structural childBlock => childBlock

/-- The tokens of the statements of a tree, in pre-order. -/
def configRows : List (Statement α) → List (List α)
  | [] => []
  | s :: rest => s.rows ++ configRows rest
termination_by structural config => config

end

theorem configRows_simple (tokens : List α) (rest : List (Statement α)) :
    configRows (⟨tokens, none⟩ :: rest) = tokens :: configRows rest := rfl

theorem configRows_block (tokens : List α) (child rest : List (Statement α)) :
    configRows (⟨tokens, some child⟩ :: rest) = tokens :: (configRows child ++ configRows rest) := rfl

/-- At a place in the rows stands the key, with the value behind it. -/
def Behind (rows : List (List α)) (key : α) (place : Nat × Nat) (value : α) : Prop :=
  ∃ row, rows[place.1]? = some row ∧ row[place.2]? = some key ∧ row[place.2 + 1]? = some value

/-- No other such place comes before. -/
def FirstBehind (rows : List (List α)) (key : α) (place : Nat × Nat) (value : α) : Prop :=
  Behind rows key place value ∧ ∀ other value', Behind rows key other value' → toLex place ≤ toLex other

theorem Behind.value_eq {rows : List (List α)} {key : α} {place : Nat × Nat} {value value' : α}
    (h : Behind rows key place value) (h' : Behind rows key place value') : value = value' := by
  obtain ⟨row, hrow, -, hvalue⟩ := h
  obtain ⟨row', hrow', -, hvalue'⟩ := h'
  obtain rfl : row = row' := Option.some.inj (hrow.symm.trans hrow')
  exact Option.some.inj (hvalue.symm.trans hvalue')

theorem FirstBehind.value_eq {rows : List (List α)} {key : α} {place place' : Nat × Nat} {value value' : α}
    (h : FirstBehind rows key place value) (h' : FirstBehind rows key place' value') : value = value' := by
  have hplace : toLex place = toLex place' := le_antisymm (h.2 place' value' h'.1) (h'.2 place value h.1)
  obtain rfl : place = place' := toLex.injective hplace
  exact h.1.value_eq h'.1

variable [DecidableEq α] {key value : α}

/-! ### One row -/

theorem wordBehind_some_words {prev : α} {row : List α} :
    wordBehind key (some prev) (row.map .word) = some value ↔
      ∃ j, (prev :: row)[j]? = some key ∧ (prev :: row)[j + 1]? = some value ∧ ∀ i < j, (prev :: row)[i]? ≠ some key := by
  induction row generalizing prev with
  | nil => simp [wordBehind]
  | cons token row ih =>
      rw [List.map_cons, wordBehind]
      by_cases hprev : prev = key
      · rw [if_pos (congrArg some hprev)]
        constructor
        · intro h
          exact ⟨0, congrArg some hprev, h, fun i hi => absurd hi (Nat.not_lt_zero i)⟩
        · rintro ⟨j, -, hvalue, hfirst⟩
          cases j with
          | zero => exact hvalue
          | succ j => exact absurd (congrArg some hprev) (hfirst 0 (Nat.succ_pos j))
      · rw [if_neg fun h => hprev (Option.some.inj h), ih]
        constructor
        · rintro ⟨j, hkey, hvalue, hfirst⟩
          refine ⟨j + 1, hkey, hvalue, fun i hi => ?_⟩
          cases i with
          | zero => exact fun h => hprev (Option.some.inj h)
          | succ i => exact hfirst i (by omega)
        · rintro ⟨j, hkey, hvalue, hfirst⟩
          cases j with
          | zero => exact absurd (Option.some.inj hkey) hprev
          | succ j => exact ⟨j, hkey, hvalue, fun i hi => hfirst (i + 1) (by omega)⟩

/-- In a row, the value is behind the first place of the key. -/
theorem wordBehind_words_eq_some {row : List α} :
    wordBehind key none (row.map .word) = some value ↔
      ∃ j, row[j]? = some key ∧ row[j + 1]? = some value ∧ ∀ i < j, row[i]? ≠ some key := by
  cases row with
  | nil => simp [wordBehind]
  | cons token row =>
      rw [← wordBehind_some_words, List.map_cons, wordBehind, if_neg (by simp)]

theorem wordBehind_words_eq_none {row : List α} :
    wordBehind key none (row.map .word) = none ↔ ∀ j, row[j]? = some key → row[j + 1]? = none := by
  constructor
  · intro hnone j hkey
    by_contra hnext
    -- the first place of the key has a value behind it, too
    have hex : ∃ i, row[i]? = some key := ⟨j, hkey⟩
    have hle : Nat.find hex ≤ j := Nat.find_min' hex hkey
    have hlength : j + 1 < row.length := by
      by_contra hlong
      exact hnext (List.getElem?_eq_none (by omega))
    have hfound := wordBehind_words_eq_some.mpr ⟨Nat.find hex, Nat.find_spec hex,
      List.getElem?_eq_getElem (by omega), fun i hi => Nat.find_min hex hi⟩
    rw [hnone] at hfound
    cases hfound
  · intro h
    cases hfound : wordBehind key none (row.map .word) with
    | none => rfl
    | some value =>
        obtain ⟨j, hkey, hvalue, -⟩ := wordBehind_words_eq_some.mp hfound
        rw [h j hkey] at hvalue
        cases hvalue

/-! ### The rows of a tree -/

/-- The value behind the key in the first row that has one. -/
def rowsBehind (key : α) (rows : List (List α)) : Option α :=
  rows.findSome? fun row => wordBehind key none (row.map .word)

theorem rowsBehind_eq_none {rows : List (List α)} :
    rowsBehind key rows = none ↔ ∀ place value, ¬ Behind rows key place value := by
  unfold rowsBehind
  rw [List.findSome?_eq_none_iff]
  constructor
  · rintro h ⟨i, j⟩ value ⟨row, hrow, hkey, hvalue⟩
    have hnone := wordBehind_words_eq_none.mp (h row (List.mem_of_getElem? hrow)) j hkey
    exact absurd (hvalue.symm.trans hnone) (by simp)
  · intro h row hmem
    obtain ⟨i, hrow⟩ := List.getElem?_of_mem hmem
    rw [wordBehind_words_eq_none]
    intro j hkey
    cases hvalue : row[j + 1]? with
    | none => rfl
    | some value => exact absurd ⟨row, hrow, hkey, hvalue⟩ (h (i, j) value)

theorem firstBehind_of_rowsBehind {rows : List (List α)} (h : rowsBehind key rows = some value) :
    ∃ place, FirstBehind rows key place value := by
  obtain ⟨before, row, after, rfl, hfound, hnone⟩ := List.findSome?_eq_some_iff.mp h
  obtain ⟨j, hkey, hvalue, hfirst⟩ := wordBehind_words_eq_some.mp hfound
  have hrow : (before ++ row :: after)[before.length]? = some row := by simp
  refine ⟨(before.length, j), ⟨row, hrow, hkey, hvalue⟩, ?_⟩
  rintro ⟨i', j'⟩ value' ⟨row', hrow', hkey', hvalue'⟩
  rw [Prod.Lex.toLex_le_toLex]
  dsimp only at hrow' hkey' hvalue' ⊢
  rcases Nat.lt_trichotomy i' before.length with hlt | rfl | hlt
  · -- in front of the row there is no such place
    have hmem : row' ∈ before := by
      rw [List.getElem?_append_left hlt] at hrow'
      exact List.mem_of_getElem? hrow'
    have hnext := wordBehind_words_eq_none.mp (hnone row' hmem) j' hkey'
    exact absurd (hvalue'.symm.trans hnext) (by simp)
  · obtain rfl : row = row' := Option.some.inj (hrow.symm.trans hrow')
    refine Or.inr ⟨rfl, Nat.le_of_not_lt fun hlt => hfirst j' hlt hkey'⟩
  · exact Or.inl hlt

theorem rowsBehind_eq_some {rows : List (List α)} :
    rowsBehind key rows = some value ↔ ∃ place, FirstBehind rows key place value := by
  refine ⟨firstBehind_of_rowsBehind, ?_⟩
  rintro ⟨place, hfirst⟩
  cases hfound : rowsBehind key rows with
  | none => exact absurd hfirst.1 (rowsBehind_eq_none.mp hfound place value)
  | some value' =>
      obtain ⟨place', hfirst'⟩ := firstBehind_of_rowsBehind hfound
      rw [hfirst.value_eq hfirst']

/-- A text is searched as the rows of its tree. -/
theorem wordBehind_configLexemes {config : List (Statement α)} (h : Proper config) :
    wordBehind key none (configLexemes config) = rowsBehind key (configRows config) := by
  have hstop : IsMark (.stop : Lexeme α) := by simp [IsMark]
  have hopening : IsMark (.opening : Lexeme α) := by simp [IsMark]
  have hclosing : IsMark (.closing : Lexeme α) := by simp [IsMark]
  unfold rowsBehind
  induction h with
  | nil => rfl
  | simple tokens rest _ _ ih =>
      rw [configLexemes_cons, lexemes_simple, List.append_assoc, List.singleton_append, wordBehind_append_mark hstop,
        configRows_simple, List.findSome?_cons, ih]
      cases wordBehind key none (tokens.map .word) <;> rfl
  | block tokens child rest _ _ _ ihchild ih =>
      rw [configLexemes_cons, lexemes_block, List.append_assoc, List.cons_append, List.append_assoc,
        List.singleton_append, wordBehind_append_mark hopening, wordBehind_append_mark hclosing, configRows_block,
        List.findSome?_cons, List.findSome?_append, ihchild, ih]
      cases wordBehind key none (tokens.map .word) <;> rfl

end Lib
