import Mathlib

/-!
# Paths with dot segments

Lexical normalisation of relative paths: empty segments and single dots are dropped, and two dots remove the
name before them. A path in normal form (`DotPath`) goes some levels up and then down by some names. Texts
that are joined normalise to the join of what they normalise to (`normalize_append_sep`), and
`under_join_iff` says when what is joined to a path stays under it.
-/

namespace Lib

variable {N α : Type}

/-- What stands between two separators. -/
inductive Segment (N : Type)
  | here
  | up
  | name (n : N)
  deriving DecidableEq, Repr

/-- So many levels up, and from there down by the names. -/
structure DotPath (N : Type) where
  ups : Nat
  names : List N
  deriving DecidableEq, Repr

namespace DotPath

def here : DotPath N := ⟨0, []⟩

/-- One more segment: two dots remove the last name, or go up another level. -/
def step (p : DotPath N) : Segment N → DotPath N
  | .here => p
  | .up => if p.names = [] then ⟨p.ups + 1, []⟩ else ⟨p.ups, p.names.dropLast⟩
  | .name n => ⟨p.ups, p.names ++ [n]⟩

def resolve (segments : List (Segment N)) : DotPath N := segments.foldl step here

/-- A path and then another: the levels of the second remove names of the first while it has any. -/
def join (p q : DotPath N) : DotPath N :=
  if q.ups ≤ p.names.length then ⟨p.ups, p.names.take (p.names.length - q.ups) ++ q.names⟩
  else ⟨p.ups + (q.ups - p.names.length), q.names⟩

theorem join_of_le {p : DotPath N} {ups : Nat} (h : ups ≤ p.names.length) (names : List N) :
    p.join ⟨ups, names⟩ = ⟨p.ups, p.names.take (p.names.length - ups) ++ names⟩ := if_pos h

theorem join_of_lt {p : DotPath N} {ups : Nat} (h : p.names.length < ups) (names : List N) :
    p.join ⟨ups, names⟩ = ⟨p.ups + (ups - p.names.length), names⟩ := if_neg (Nat.not_le_of_lt h)

@[simp] theorem join_here (p : DotPath N) : p.join here = p := by simp [join, here]

theorem step_up_of_ne_nil {p : DotPath N} (h : p.names ≠ []) : p.step .up = ⟨p.ups, p.names.dropLast⟩ :=
  if_neg h

/-- A level up behind levels up. -/
theorem step_up_join_ups (p : DotPath N) (ups : Nat) : (p.join ⟨ups, []⟩).step .up = p.join ⟨ups + 1, []⟩ := by
  rcases Nat.lt_trichotomy ups p.names.length with hlt | rfl | hgt
  · have hne : p.names.take (p.names.length - ups) ≠ [] := by
      intro hnil
      have hlen := congrArg List.length hnil
      rw [List.length_take, List.length_nil] at hlen
      omega
    rw [join_of_le hlt.le, join_of_le (Nat.succ_le_of_lt hlt), List.append_nil, List.append_nil,
      step_up_of_ne_nil hne, List.dropLast_eq_take, List.length_take, List.take_take]
    congr 2
    omega
  · simp [join, step]
  · rw [join_of_lt hgt, join_of_lt (Nat.lt_succ_of_lt hgt), step, if_pos rfl, Nat.add_assoc,
      ← Nat.sub_add_comm hgt.le]

theorem step_join (p q : DotPath N) (s : Segment N) : (p.join q).step s = p.join (q.step s) := by
  obtain ⟨ups, names⟩ := q
  cases s with
  | here => rfl
  | name n =>
      rcases Nat.lt_or_ge p.names.length ups with hlt | hle
      · rw [join_of_lt hlt]
        exact (join_of_lt hlt _).symm
      · rw [join_of_le hle, step, List.append_assoc]
        exact (join_of_le hle _).symm
  | up =>
      by_cases hnil : names = []
      · subst hnil
        exact step_up_join_ups p ups
      have hup : (⟨ups, names⟩ : DotPath N).step .up = ⟨ups, names.dropLast⟩ := step_up_of_ne_nil hnil
      rcases Nat.lt_or_ge p.names.length ups with hlt | hle
      · rw [hup, join_of_lt hlt, join_of_lt hlt]
        exact step_up_of_ne_nil hnil
      · have hne : p.names.take (p.names.length - ups) ++ names ≠ [] := by simp [hnil]
        rw [hup, join_of_le hle, join_of_le hle, step_up_of_ne_nil hne, List.dropLast_append_of_ne_nil hnil]

theorem foldl_step (p : DotPath N) (segments : List (Segment N)) :
    segments.foldl step p = p.join (resolve segments) := by
  rw [resolve]
  conv_lhs => rw [← join_here p]
  generalize (here : DotPath N) = q
  induction segments generalizing q with
  | nil => rfl
  | cons s segments ih => rw [List.foldl_cons, step_join, ih, List.foldl_cons]

theorem resolve_append (xs ys : List (Segment N)) : resolve (xs ++ ys) = (resolve xs).join (resolve ys) := by
  rw [resolve, List.foldl_append, foldl_step]
  rfl

/-! ### Staying under a path -/

/-- The path is the base or lies below it. -/
def Under (base path : DotPath N) : Prop := path.ups = base.ups ∧ base.names <+: path.names

instance [DecidableEq N] (base path : DotPath N) : Decidable (Under base path) :=
  inferInstanceAs (Decidable (_ ∧ _))

theorem prefix_take_append_iff (xs ys : List N) (n : Nat) : xs <+: xs.take n ++ ys ↔ xs.drop n <+: ys := by
  conv_lhs => enter [1]; rw [← List.take_append_drop n xs]
  exact List.prefix_append_right_inj _

/-- What is joined to a base stays under it if and only if it goes up by names of the base only, and comes
down by the same names. -/
theorem under_join_iff (base q : DotPath N) :
    Under base (base.join q) ↔
      q.ups ≤ base.names.length ∧ base.names.drop (base.names.length - q.ups) <+: q.names := by
  obtain ⟨ups, names⟩ := q
  rcases Nat.lt_or_ge base.names.length ups with hlt | hle
  · rw [join_of_lt hlt, Under]
    constructor
    · intro h
      have hups : base.ups + (ups - base.names.length) = base.ups := h.1
      omega
    · intro h
      exact absurd h.1 (Nat.not_le_of_lt hlt)
  · rw [join_of_le hle, Under, prefix_take_append_iff]
    exact and_congr_left' (by simp [hle])

/-! ### Texts -/

variable [DecidableEq α]

/-- The segment that a text between two separators is. -/
def segment (dot : α) (text : List α) : Segment (List α) :=
  if text = [] ∨ text = [dot] then .here else if text = [dot, dot] then .up else .name text

/-- The normal form of a relative path. -/
def normalize (sep dot : α) (text : List α) : DotPath (List α) :=
  resolve ((text.splitOn sep).map (segment dot))

theorem normalize_append_sep (sep dot : α) (xs ys : List α) :
    normalize sep dot (xs ++ sep :: ys) = (normalize sep dot xs).join (normalize sep dot ys) := by
  rw [normalize, List.splitOn_append_cons_self, List.map_append, resolve_append]
  rfl

theorem normalize_nil (sep dot : α) : normalize sep dot [] = here := by
  simp [normalize, resolve, segment, step]

/-- A separator at the end adds nothing. -/
theorem normalize_concat_sep (sep dot : α) (xs : List α) :
    normalize sep dot (xs ++ [sep]) = normalize sep dot xs := by
  rw [normalize_append_sep, normalize_nil, join_here]

end DotPath

end Lib
