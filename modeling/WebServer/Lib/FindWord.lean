import Mathlib

/-!
# The first occurrence of a word

`find? pat xs` is the offset of the first occurrence of the word `pat` in the list `xs`. Lists in which the first
symbol of the word does not occur can be passed over as a whole (`find?_append`).
-/

namespace Lib

namespace Word

variable {α : Type} [DecidableEq α]

/-- The offset of the first occurrence of a word. -/
def find? (pat : List α) : List α → Option Nat
  | [] => if pat = [] then some 0 else none
  | c :: rest => if pat <+: c :: rest then some 0 else (find? pat rest).map (· + 1)

variable {pat xs ys : List α} {c : α} {i : Nat}

theorem find?_of_isPrefix (h : pat <+: xs) : find? pat xs = some 0 := by
  cases xs with
  | nil => rw [find?, if_pos (List.prefix_nil.mp h)]
  | cons c rest => rw [find?, if_pos h]

theorem find?_cons (h : ¬ pat <+: c :: xs) : find? pat (c :: xs) = (find? pat xs).map (· + 1) := by
  rw [find?, if_neg h]

theorem find?_eq_none : find? pat xs = none ↔ ¬ pat <:+: xs := by
  induction xs with
  | nil => simp [find?]
  | cons c rest ih =>
      rw [find?, List.infix_cons_iff]
      split_ifs with hpre
      · simp [hpre]
      · simp [hpre, ih]

/-- What was found is an occurrence. -/
theorem find?_spec (h : find? pat xs = some i) : i + pat.length ≤ xs.length ∧ pat <+: xs.drop i := by
  induction xs generalizing i with
  | nil =>
      rw [find?] at h
      split_ifs at h with hpat
      obtain rfl := Option.some.inj h
      simp [hpat]
  | cons c rest ih =>
      by_cases hpre : pat <+: c :: rest
      · rw [find?_of_isPrefix hpre] at h
        obtain rfl := Option.some.inj h
        exact ⟨by simpa using hpre.length_le, hpre⟩
      · rw [find?_cons hpre] at h
        obtain ⟨k, hk, rfl⟩ := Option.map_eq_some_iff.mp h
        obtain ⟨hle, hocc⟩ := ih hk
        refine ⟨?_, by simpa using hocc⟩
        rw [List.length_cons]
        omega

/-- Nothing occurs across a stretch without the first symbol of the word. -/
theorem find?_append (pat ys : List α) (h : c ∉ xs) :
    find? (c :: pat) (xs ++ ys) = (find? (c :: pat) ys).map (· + xs.length) := by
  induction xs with
  | nil => simp
  | cons d rest ih =>
      have hd : c ≠ d := fun he => h (by simp [he])
      have hrest : c ∉ rest := fun hmem => h (by simp [hmem])
      have hpre : ¬ c :: pat <+: d :: (rest ++ ys) := fun hpre => hd (List.cons_prefix_cons.mp hpre).1
      rw [List.cons_append, find?_cons hpre, ih hrest, Option.map_map, List.length_cons]
      exact congrArg (Option.map · _) (funext fun n => by simp; omega)

end Word

end Lib
