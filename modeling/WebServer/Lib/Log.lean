import WebServer.Lib.OrdMap

/-!
# Logs by key

A log of pairs of a key and a value, and a map that keeps a list of values for every key. If the map has, for
every key, the values that were logged under it, then its pairs are those of the log in another order
(`OrdMap.pairs_perm`).
-/

namespace Lib

variable {K V : Type}

namespace OrdMap

/-- The pairs of a list of entries. -/
def entryPairs (entries : List (K × List V)) : List (K × V) := entries.flatMap fun e => e.2.map fun v => (e.1, v)

theorem entryPairs_cons (e : K × List V) (rest : List (K × List V)) :
    entryPairs (e :: rest) = (e.2.map fun v => (e.1, v)) ++ entryPairs rest := rfl

theorem exists_entry_of_mem_entryPairs {entries : List (K × List V)} {r : K × V} (hr : r ∈ entryPairs entries) :
    ∃ e ∈ entries, e.1 = r.1 := by
  obtain ⟨e, he, hv⟩ := List.mem_flatMap.mp hr
  obtain ⟨_, -, rfl⟩ := List.mem_map.mp hv
  exact ⟨e, he, rfl⟩

end OrdMap

variable [DecidableEq K]

/-- The values that were logged under a key, in their order. -/
def logged (k : K) (log : List (K × V)) : List V := (log.filter fun r => decide (r.1 = k)).map Prod.snd

@[simp] theorem logged_append (k : K) (log log' : List (K × V)) :
    logged k (log ++ log') = logged k log ++ logged k log' := by
  simp [logged]

@[simp] theorem logged_singleton (k : K) (r : K × V) : logged k [r] = if r.1 = k then [r.2] else [] := by
  unfold logged
  split_ifs with hr <;> simp [hr]

theorem count_logged [DecidableEq V] (k : K) (v : V) (log : List (K × V)) :
    (logged k log).count v = log.count (k, v) := by
  induction log with
  | nil => rfl
  | cons r log ih =>
      have hcons : logged k (r :: log) = logged k [r] ++ logged k log := logged_append k [r] log
      rw [hcons, List.count_append, ih, List.count_cons, logged_singleton, Nat.add_comm]
      by_cases hk : r.1 = k
      · simp [hk, List.count_singleton, Prod.ext_iff]
      · simp [hk, Prod.ext_iff]

theorem count_map_pair [DecidableEq V] (k k' : K) (v : V) (vs : List V) :
    (vs.map fun v' => (k', v')).count (k, v) = if k' = k then vs.count v else 0 := by
  split_ifs with hk
  · rw [hk]
    exact List.count_map_of_injective vs (Prod.mk k) (Prod.mk_right_injective k) v
  · rw [List.count_eq_zero]
    intro hmem
    obtain ⟨v', -, hpair⟩ := List.mem_map.mp hmem
    exact hk (Prod.mk.inj hpair).1

namespace OrdMap

variable [LT K]

/-- The pairs of a key and one of its values. -/
def pairs (m : OrdMap K (List V)) : List (K × V) := entryPairs m.entries

theorem findEntry_eq_none_of_lt [Std.Irrefl (α := K) (· < ·)] {W : Type} {k : K} {entries : List (K × W)}
    (h : ∀ e ∈ entries, k < e.1) : findEntry k entries = none := by
  cases hfind : findEntry k entries with
  | none => rfl
  | some v => exact absurd (h _ (findEntry_mem hfind)) (Std.Irrefl.irrefl k)

section push

variable [DecidableLT K] [Std.Irrefl (α := K) (· < ·)] [Trans (α := K) (β := K) (γ := K) (· < ·) (· < ·) (· < ·)]

theorem exists_entryPairs_push (k : K) (v : V) {entries : List (K × List V)}
    (hsorted : entries.Pairwise fun a b => a.1 < b.1) :
    ∃ front back, entryPairs entries = front ++ back ∧
      entryPairs (insertEntry k ((findEntry k entries).getD [] ++ [v]) entries) = front ++ (k, v) :: back ∧
      (∀ r ∈ front, ¬ k < r.1) ∧ ∀ r ∈ back, k < r.1 := by
  induction entries with
  | nil => exact ⟨[], [], rfl, rfl, by simp, by simp⟩
  | cons e rest ih =>
      obtain ⟨hhead, htail⟩ := List.pairwise_cons.mp hsorted
      have hown : ∀ r ∈ e.2.map fun v => (e.1, v), r.1 = e.1 := by
        intro r hr
        obtain ⟨_, -, rfl⟩ := List.mem_map.mp hr
        rfl
      by_cases hlt : k < e.1
      · -- the key is smaller than all of them
        have hall : ∀ e' ∈ e :: rest, k < e'.1 := by
          intro e' he'
          rcases List.mem_cons.mp he' with rfl | he'
          · exact hlt
          · exact Trans.trans hlt (hhead e' he')
        refine ⟨[], entryPairs (e :: rest), rfl, ?_, by simp, fun r hr => ?_⟩
        · rw [findEntry_eq_none_of_lt hall, insertEntry, if_pos hlt]
          rfl
        · obtain ⟨e', he', hkey⟩ := exists_entry_of_mem_entryPairs hr
          exact hkey ▸ hall e' he'
      · by_cases hkey : k = e.1
        · subst hkey
          refine ⟨e.2.map fun v => (e.1, v), entryPairs rest, entryPairs_cons e rest, ?_, fun r hr => ?_, fun r hr => ?_⟩
          · rw [findEntry, if_pos rfl, insertEntry, if_neg hlt, if_pos rfl, entryPairs_cons]
            simp
          · rw [hown r hr]
            exact Std.Irrefl.irrefl e.1
          · obtain ⟨e', he', hkey⟩ := exists_entry_of_mem_entryPairs hr
            exact hkey ▸ hhead e' he'
        · obtain ⟨front, back, hpairs, hinsert, hfront, hback⟩ := ih htail
          refine ⟨(e.2.map fun v => (e.1, v)) ++ front, back, ?_, ?_, fun r hr => ?_, hback⟩
          · rw [entryPairs_cons, hpairs, List.append_assoc]
          · rw [findEntry, if_neg (Ne.symm hkey), insertEntry, if_neg hlt, if_neg hkey, entryPairs_cons, hinsert,
              List.append_assoc]
          · rcases List.mem_append.mp hr with hr | hr
            · rwa [hown r hr]
            · exact hfront r hr

/-- A value that is put behind those of its key goes between the pairs of the keys up to it and those of the others. -/
theorem exists_pairs_push [Std.Trichotomous (α := K) (· < ·)] (m : OrdMap K (List V)) (k : K) (v : V) :
    ∃ front back, m.pairs = front ++ back ∧
      (m.insert k ((m.find? k).getD [] ++ [v])).pairs = front ++ (k, v) :: back ∧
      (∀ r ∈ front, ¬ k < r.1) ∧ ∀ r ∈ back, k < r.1 :=
  exists_entryPairs_push k v m.sorted

end push

variable [DecidableEq V]

/-- A pair is there as often as its value is under its key. -/
theorem count_pairs [Std.Irrefl (α := K) (· < ·)] (m : OrdMap K (List V)) (k : K) (v : V) :
    m.pairs.count (k, v) = ((m.find? k).getD []).count v := by
  obtain ⟨entries, hsorted⟩ := m
  show (entryPairs entries).count (k, v) = ((findEntry k entries).getD []).count v
  induction entries with
  | nil => rfl
  | cons e rest ih =>
      obtain ⟨hhead, htail⟩ := List.pairwise_cons.mp hsorted
      rw [entryPairs_cons, List.count_append, count_map_pair, ih htail, findEntry]
      split_ifs with hk
      · -- the key is not in the rest, which goes on behind it
        have hnone : findEntry k rest = none := findEntry_eq_none_of_lt (hk ▸ hhead)
        simp [hnone]
      · exact Nat.zero_add _

/-- **The pairs are the log**, if every key has the values that were logged under it. -/
theorem pairs_perm [Std.Irrefl (α := K) (· < ·)] {m : OrdMap K (List V)} {log : List (K × V)}
    (h : ∀ k, (m.find? k).getD [] = logged k log) : m.pairs.Perm log := by
  refine List.perm_iff_count.mpr fun r => ?_
  obtain ⟨k, v⟩ := r
  rw [count_pairs, h, count_logged]

end OrdMap

end Lib
