import Mathlib

/-!
# Texts made of pieces

Where a text can be cut. If an occurrence of a word is somewhere in `c :: (xs ++ ys)`, but not at its front, and the
symbol that the word begins with is not in `xs`, then it is in `ys` (`split_block`). And a text that is made of pieces, each of
which can be told from what is put behind it, is made of them in one way (`flatMap_cancel`).
-/

namespace Lib

namespace Word

variable {α : Type} {c : α} {pat rest w xs ys s t : List α}

/-- A symbol that is not in a stretch is behind it. -/
theorem split_append (h : w ++ c :: rest = xs ++ ys) (hc : c ∉ xs) : ∃ w', w = xs ++ w' ∧ w' ++ c :: rest = ys := by
  rcases List.append_eq_append_iff.mp h with ⟨a, rfl, hrest⟩ | ⟨a, rfl, rfl⟩
  · rcases a with _ | ⟨d, a⟩
    · exact ⟨[], by simp, hrest⟩
    · obtain rfl : c = d := (List.cons.inj hrest).1
      exact absurd (by simp) hc
  · exact ⟨a, rfl, rfl⟩

/-- An occurrence that is not at the front of a block is behind it. -/
theorem split_block (h : w ++ c :: (pat ++ rest) = c :: (xs ++ ys)) (hc : c ∉ xs)
    (hpre : ¬ c :: pat <+: c :: (xs ++ ys)) : ∃ w', w = c :: (xs ++ w') ∧ w' ++ c :: (pat ++ rest) = ys := by
  rcases w with _ | ⟨d, w⟩
  · exact absurd ⟨rest, h⟩ hpre
  · obtain ⟨rfl, htail⟩ := List.cons.inj h
    obtain ⟨w', rfl, hw'⟩ := split_append htail hc
    exact ⟨w', rfl, hw'⟩

/-- A symbol that ends two stretches without it ends them at one place. -/
theorem append_cons_inj (h : xs ++ c :: s = ys ++ c :: t) (hx : c ∉ xs) (hy : c ∉ ys) : xs = ys ∧ s = t := by
  obtain ⟨w, rfl, hw⟩ := split_append h hy
  rcases w with _ | ⟨d, w⟩
  · exact ⟨List.append_nil _, (List.cons.inj hw).2⟩
  · obtain rfl : d = c := (List.cons.inj hw).1
    exact absurd (by simp) hx

/-- Pieces can be read back one by one, if the first one can. -/
theorem flatMap_cancel {ρ : Type} {f : ρ → List α} {P : ρ → Prop} (hne : ∀ r, f r ≠ [])
    (hcancel : ∀ r r' (l l' : List ρ), P r → P r' → f r ++ l.flatMap f = f r' ++ l'.flatMap f → r = r') {l l' : List ρ}
    (hl : ∀ r ∈ l, P r) (hl' : ∀ r ∈ l', P r) (h : l.flatMap f = l'.flatMap f) : l = l' := by
  induction l generalizing l' with
  | nil =>
      rcases l' with _ | ⟨r', l'⟩
      · rfl
      · exact absurd (List.append_eq_nil_iff.mp h.symm).1 (hne r')
  | cons r l ih =>
      rcases l' with _ | ⟨r', l'⟩
      · exact absurd (List.append_eq_nil_iff.mp h).1 (hne r)
      · rw [List.flatMap_cons, List.flatMap_cons] at h
        obtain rfl := hcancel r r' l l' (hl r (by simp)) (hl' r' (by simp)) h
        rw [ih (fun r hr => hl r (by simp [hr])) (fun r hr => hl' r (by simp [hr])) (List.append_cancel_left h)]

/-- The same text between those with a property and those without it stands at one place. -/
theorem append_append_inj {p : α → Prop} [DecidablePred p] {front back front' back' mid : List α}
    (hfront : ∀ a ∈ front, p a) (hback : ∀ a ∈ back, ¬ p a) (hfront' : ∀ a ∈ front', p a) (hback' : ∀ a ∈ back', ¬ p a)
    (h : front ++ (mid ++ back) = front' ++ (mid ++ back')) : front = front' ∧ back = back' := by
  have hall : ∀ {l : List α}, (∀ a ∈ l, p a) → l.countP p = l.length :=
    fun hl => List.countP_eq_length.mpr fun a ha => decide_eq_true (hl a ha)
  have hnone : ∀ {l : List α}, (∀ a ∈ l, ¬ p a) → l.countP p = 0 :=
    fun hl => List.countP_eq_zero.mpr fun a ha => by simpa using hl a ha
  have hcount := congrArg (List.countP p) h
  simp only [List.countP_append, hall hfront, hall hfront', hnone hback, hnone hback'] at hcount
  obtain ⟨rfl, hrest⟩ := List.append_inj h (by omega)
  exact ⟨rfl, List.append_cancel_left hrest⟩

end Word

end Lib
