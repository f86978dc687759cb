import Mathlib

/-!
# The longest key that is a prefix

`IsLongestPrefix` is longest-prefix routing: the key of a set that matches most of a list. There is at most
one (`IsLongestPrefix.unique`), and one among the keys of finitely many entries as soon as any of them is a
prefix (`longestMatch_eq_none`). A loop that keeps the longest match it has seen finds it
(`foldl_keepLonger`).
-/

namespace Lib

variable {α V : Type}

/-- A longest key of a set that is a prefix of a list. The empty key, a prefix of every list, does not
count. -/
def IsLongestPrefix (keys : Set (List α)) (xs key : List α) : Prop :=
  MaximalFor (fun k => k ∈ keys ∧ k ≠ [] ∧ k <+: xs) List.length key

namespace IsLongestPrefix

variable {keys : Set (List α)} {xs key key' : List α}

theorem mem (h : IsLongestPrefix keys xs key) : key ∈ keys := h.prop.1

theorem ne_nil (h : IsLongestPrefix keys xs key) : key ≠ [] := h.prop.2.1

theorem isPrefix (h : IsLongestPrefix keys xs key) : key <+: xs := h.prop.2.2

theorem length_le (h : IsLongestPrefix keys xs key) {k : List α} (hk : k ∈ keys) (hne : k ≠ [])
    (hpre : k <+: xs) : k.length ≤ key.length := by
  rcases Nat.le_total key.length k.length with hle | hle
  · exact h.le_of_le ⟨hk, hne, hpre⟩ hle
  · exact hle

theorem unique (h : IsLongestPrefix keys xs key) (h' : IsLongestPrefix keys xs key') : key = key' := by
  have hle : key.length ≤ key'.length := h'.length_le h.mem h.ne_nil h.isPrefix
  have hge : key'.length ≤ key.length := h.length_le h'.mem h'.ne_nil h'.isPrefix
  exact (List.prefix_of_prefix_length_le h.isPrefix h'.isPrefix hle).eq_of_length (Nat.le_antisymm hle hge)

end IsLongestPrefix

/-! ### The longest match among entries -/

section entries
variable [DecidableEq α]

/-- The key of an entry is a prefix of a list, and not empty. -/
def keyMatches (xs : List α) (e : List α × V) : Bool := decide (e.1 ≠ [] ∧ e.1 <+: xs)

/-- The first of the entries with the longest key that is a prefix. -/
def longestMatch (entries : List (List α × V)) (xs : List α) : Option (List α × V) :=
  (entries.filter (keyMatches xs)).argmax fun e => e.1.length

/-- Keep the longer of the match so far and an entry. -/
def keepLonger (xs : List α) (best : Option (List α × V)) (e : List α × V) : Option (List α × V) :=
  if keyMatches xs e = true ∧ ∀ b ∈ best, b.1.length < e.1.length then some e else best

variable {entries : List (List α × V)} {xs : List α}

theorem keyMatches_iff {e : List α × V} : keyMatches xs e = true ↔ e.1 ≠ [] ∧ e.1 <+: xs :=
  decide_eq_true_iff

theorem longestMatch_eq_none :
    longestMatch entries xs = none ↔ ∀ e ∈ entries, e.1 ≠ [] → ¬ e.1 <+: xs := by
  rw [longestMatch, List.argmax_eq_none, List.filter_eq_nil_iff]
  simp only [keyMatches_iff, not_and]

theorem longestMatch_mem {e : List α × V} (h : longestMatch entries xs = some e) : e ∈ entries :=
  List.mem_of_mem_filter (List.argmax_mem h)

theorem longestMatch_isLongestPrefix {e : List α × V} (h : longestMatch entries xs = some e) :
    IsLongestPrefix {k | k ∈ entries.map Prod.fst} xs e.1 := by
  obtain ⟨hmem, hmatch⟩ := List.mem_filter.mp (List.argmax_mem h)
  obtain ⟨hne, hpre⟩ := keyMatches_iff.mp hmatch
  refine ⟨⟨List.mem_map_of_mem hmem, hne, hpre⟩, fun k ⟨hk, hkne, hkpre⟩ _ => ?_⟩
  obtain ⟨e', he', rfl⟩ := List.mem_map.mp hk
  have hfilter : e' ∈ entries.filter (keyMatches xs) :=
    List.mem_filter.mpr ⟨he', keyMatches_iff.mpr ⟨hkne, hkpre⟩⟩
  have hle := List.le_of_mem_argmax hfilter (Option.mem_def.mpr h)
  exact hle

/-- The running maximum is the maximum. -/
theorem foldl_keepLonger (entries : List (List α × V)) (xs : List α) :
    entries.foldl (keepLonger xs) none = longestMatch entries xs := by
  induction entries using List.reverseRecOn with
  | nil => rfl
  | append_singleton entries e ih =>
      rw [List.foldl_append, ih, List.foldl_cons, List.foldl_nil, longestMatch, longestMatch,
        List.filter_append, keepLonger]
      by_cases hmatch : keyMatches xs e = true
      · have hfilter : [e].filter (keyMatches xs) = [e] := by simp [hmatch]
        rw [hfilter, List.argmax_concat]
        rcases List.argmax (fun e : List α × V => e.1.length) (entries.filter (keyMatches xs)) with _ | b
        · simp [hmatch]
        · simp [hmatch]
      · have hfilter : [e].filter (keyMatches xs) = [] := by simp [hmatch]
        rw [hfilter, List.append_nil, if_neg fun h => hmatch h.1]

end entries

end Lib
