import WebServer.Lib.BlockSyntax

/-!
# Searching block-structured texts

What stands in a tree stands in its text: the tokens of every statement, at any depth (`Occurs.word_mem`), and the word
behind another, which is the same in a text with more marks at its end (`wordBehind_append_marks`). A text that does not
derive from the grammar is read up to a lexeme (`Builder.readable`), and what has been read is a text of the open blocks.
-/

namespace Lib

variable {α : Type}

/-! ### The statements of a tree -/

/-- A statement of a tree, at any depth. -/
inductive Occurs (s : Statement α) : List (Statement α) → Prop
  | here (config : List (Statement α)) : s ∈ config → Occurs s config
  | inside (config : List (Statement α)) (t : Statement α) (child : List (Statement α)) : t ∈ config →
    t.childBlock = some child → Occurs s child → Occurs s config

theorem lexemes_subset {s : Statement α} {config : List (Statement α)} (h : s ∈ config) :
    s.lexemes ⊆ configLexemes config := by
  induction config with
  | nil => cases h
  | cons t config ih =>
      rw [configLexemes_cons]
      rcases List.mem_cons.mp h with rfl | h
      · exact List.subset_append_left _ _
      · exact List.subset_append_of_subset_right _ (ih h)

theorem Proper.of_mem {s : Statement α} {config : List (Statement α)} (h : Proper config) (hs : s ∈ config) :
    s.tokens ≠ [] ∧ ∀ child, s.childBlock = some child → Proper child := by
  induction h with
  | nil => cases hs
  | simple tokens rest hne _ ih =>
      rcases List.mem_cons.mp hs with rfl | hs
      · exact ⟨hne, by simp⟩
      · exact ih hs
  | block tokens child rest hne hchild _ _ ih =>
      rcases List.mem_cons.mp hs with rfl | hs
      · exact ⟨hne, fun child' hchild' => Option.some.inj hchild' ▸ hchild⟩
      · exact ih hs

namespace Occurs

variable {s : Statement α} {config : List (Statement α)}

theorem tokens_ne_nil (hs : Occurs s config) (h : Proper config) : s.tokens ≠ [] := by
  induction hs with
  | here config hmem => exact (h.of_mem hmem).1
  | inside config t child hmem hchild _ ih => exact ih ((h.of_mem hmem).2 child hchild)

theorem word_mem (hs : Occurs s config) {a : α} (ha : a ∈ s.tokens) : .word a ∈ configLexemes config := by
  induction hs with
  | here config hmem =>
      refine lexemes_subset hmem ?_
      obtain ⟨tokens, childBlock⟩ := s
      rw [Statement.lexemes]
      exact List.mem_append_left _ (List.mem_map_of_mem ha)
  | inside config t child hmem hchild _ ih =>
      refine lexemes_subset hmem ?_
      obtain ⟨tokens, childBlock⟩ := t
      obtain rfl : childBlock = some child := hchild
      rw [lexemes_block]
      simp [ih]

end Occurs

/-! ### The word behind another -/

section wordBehind

variable [DecidableEq α]

/-- The word behind the first occurrence of a word that has one behind it; `prev` is the word in front of the text, if
one is. -/
def wordBehind (key : α) : Option α → List (Lexeme α) → Option α
  | _, [] => none
  | prev, .word a :: rest => if prev = some key then some a else wordBehind key (some a) rest
  | _, _ :: rest => wordBehind key none rest

/-- A stop, an opening or a closing. -/
def IsMark (m : Lexeme α) : Prop := ∀ a, m ≠ .word a

variable {key : α} {prev : Option α} {m : Lexeme α} {text : List (Lexeme α)}

theorem wordBehind_mark (hm : IsMark m) (rest : List (Lexeme α)) :
    wordBehind key prev (m :: rest) = wordBehind key none rest := by
  cases m with
  | word a => exact absurd rfl (hm a)
  | stop => rfl
  | opening => rfl
  | closing => rfl

/-- A mark keeps what is in front of it and what is behind it apart. -/
theorem wordBehind_append_mark (hm : IsMark m) (text rest : List (Lexeme α)) :
    wordBehind key prev (text ++ m :: rest) = (wordBehind key prev text).or (wordBehind key none rest) := by
  induction text generalizing prev with
  | nil => exact wordBehind_mark hm rest
  | cons t text ih =>
      rw [List.cons_append]
      cases t with
      | word a =>
          rw [wordBehind, wordBehind]
          by_cases hprev : prev = some key
          · rw [if_pos hprev, if_pos hprev, Option.some_or]
          · rw [if_neg hprev, if_neg hprev, ih]
      | stop => exact ih
      | opening => exact ih
      | closing => exact ih

theorem wordBehind_append_marks {marks : List (Lexeme α)} (hmarks : ∀ m ∈ marks, IsMark m) :
    wordBehind key prev (text ++ marks) = wordBehind key prev text := by
  have hnone : ∀ ms : List (Lexeme α), (∀ m ∈ ms, IsMark m) → wordBehind key none ms = none := by
    intro ms
    induction ms with
    | nil => exact fun _ => rfl
    | cons m ms ih =>
        intro h
        rw [wordBehind_mark (h m List.mem_cons_self)]
        exact ih fun m' hm' => h m' (List.mem_cons_of_mem m hm')
  cases marks with
  | nil => rw [List.append_nil]
  | cons m marks =>
      rw [wordBehind_append_mark (hmarks m List.mem_cons_self),
        hnone marks fun m' hm' => hmarks m' (List.mem_cons_of_mem m hm'), Option.or_none]

/-- What is found is a word of the text. -/
theorem mem_of_wordBehind {a : α} (h : wordBehind key prev text = some a) : .word a ∈ text := by
  induction text generalizing prev with
  | nil => cases h
  | cons t text ih =>
      cases t with
      | word b =>
          rw [wordBehind] at h
          split_ifs at h with hprev
          · obtain rfl := Option.some.inj h
            exact List.mem_cons_self
          · exact List.mem_cons_of_mem _ (ih h)
      | stop => exact List.mem_cons_of_mem _ (ih h)
      | opening => exact List.mem_cons_of_mem _ (ih h)
      | closing => exact List.mem_cons_of_mem _ (ih h)

end wordBehind

/-! ### Texts that are not read to their end -/

namespace Builder

/-- The lexemes that are read before one that the builder has no step for. -/
def readable : Builder α → List (Lexeme α) → List (Lexeme α)
  | _, [] => []
  | b, t :: rest =>
    match b.step t with
    | none => []
    | some b' => t :: readable b' rest

theorem readable_subset (b : Builder α) (text : List (Lexeme α)) : b.readable text ⊆ text := by
  induction text generalizing b with
  | nil => exact List.nil_subset _
  | cons t rest ih =>
      rw [readable]
      cases b.step t with
      | none => exact List.nil_subset _
      | some b' => exact List.cons_subset_cons t (ih b')

end Builder

end Lib
