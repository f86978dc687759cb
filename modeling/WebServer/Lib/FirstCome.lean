import WebServer.Lib.OrdMap

/-!
# First come, first served

Items come one after the other to a table. An item whose name is taken is passed over; any other is admitted, and takes
its key. Which items are admitted is a matter of names and keys alone (`admitted`). What a table holds in the end is the
last entry under each key (`find?_table`), and there is one for every entry that went in if and only if no key was taken
twice (`size_table_iff`).
-/

namespace Lib

/-! ### Admission -/

section admission

variable {ι κ : Type} [DecidableEq κ]

/-- The items that are admitted, with the keys that are taken before. -/
def admitted (name key : ι → κ) : List κ → List ι → List ι
  | _, [] => []
  | taken, i :: rest =>
    if name i ∈ taken then admitted name key taken rest
    else i :: admitted name key (key i :: taken) rest

variable {name key : ι → κ} {taken : List κ} {items : List ι} {i : ι}

theorem admitted_cons_of_mem (h : name i ∈ taken) :
    admitted name key taken (i :: items) = admitted name key taken items := if_pos h

theorem admitted_cons_of_notMem (h : name i ∉ taken) :
    admitted name key taken (i :: items) = i :: admitted name key (key i :: taken) items := if_neg h

theorem mem_of_mem_admitted (h : i ∈ admitted name key taken items) : i ∈ items := by
  induction items generalizing taken with
  | nil => exact h
  | cons j items ih =>
      by_cases hj : name j ∈ taken
      · rw [admitted_cons_of_mem hj] at h
        exact List.mem_cons_of_mem j (ih h)
      · rw [admitted_cons_of_notMem hj] at h
        rcases List.mem_cons.mp h with rfl | h
        · exact List.mem_cons_self
        · exact List.mem_cons_of_mem j (ih h)

theorem admitted_append (xs ys : List ι) :
    admitted name key taken (xs ++ ys) =
      admitted name key taken xs ++
        admitted name key (((admitted name key taken xs).map key).reverse ++ taken) ys := by
  induction xs generalizing taken with
  | nil => rfl
  | cons i xs ih =>
      rw [List.cons_append]
      by_cases hi : name i ∈ taken
      · rw [admitted_cons_of_mem hi, admitted_cons_of_mem hi, ih]
      · rw [admitted_cons_of_notMem hi, admitted_cons_of_notMem hi, ih]
        simp

/-- The last item is passed over if its name is a key of those before it. -/
theorem admitted_concat_of_mem (h : name i ∈ (admitted name key [] items).map key) :
    admitted name key [] (items ++ [i]) = admitted name key [] items := by
  have hmem : name i ∈ ((admitted name key [] items).map key).reverse ++ [] := by simpa using h
  rw [admitted_append, admitted_cons_of_mem hmem]
  exact List.append_nil _

theorem admitted_concat_of_notMem (h : name i ∉ (admitted name key [] items).map key) :
    admitted name key [] (items ++ [i]) = admitted name key [] items ++ [i] := by
  have hnotMem : name i ∉ ((admitted name key [] items).map key).reverse ++ [] := by simpa using h
  rw [admitted_append, admitted_cons_of_notMem hnotMem]
  rfl

/-- Items that take their names are the first of their names. -/
theorem find?_admitted {k : κ} (h : ∀ i ∈ admitted name key taken items, key i = name i) (hk : k ∉ taken) :
    (admitted name key taken items).find? (fun i => decide (name i = k)) =
      items.find? fun i => decide (name i = k) := by
  induction items generalizing taken with
  | nil => rfl
  | cons j items ih =>
      by_cases hj : name j ∈ taken
      · have hne : name j ≠ k := fun heq => hk (heq ▸ hj)
        rw [admitted_cons_of_mem hj] at h ⊢
        rw [ih h hk, List.find?_cons_of_neg (by simpa using hne)]
      · rw [admitted_cons_of_notMem hj] at h ⊢
        by_cases hname : name j = k
        · rw [List.find?_cons_of_pos (by simpa using hname), List.find?_cons_of_pos (by simpa using hname)]
        · rw [List.find?_cons_of_neg (by simpa using hname), List.find?_cons_of_neg (by simpa using hname)]
          refine ih (fun i hi => h i (List.mem_cons_of_mem j hi)) ?_
          rw [h j List.mem_cons_self, List.mem_cons]
          rintro (heq | hmem)
          · exact hname heq.symm
          · exact hk hmem

/-- Nobody is admitted under a name that is taken. -/
theorem name_notMem_of_mem_admitted (h : i ∈ admitted name key taken items) : name i ∉ taken := by
  induction items generalizing taken with
  | nil => cases h
  | cons j items ih =>
      by_cases hj : name j ∈ taken
      · rw [admitted_cons_of_mem hj] at h
        exact ih h
      · rw [admitted_cons_of_notMem hj] at h
        rcases List.mem_cons.mp h with rfl | h
        · exact hj
        · exact fun hmem => ih h (List.mem_cons_of_mem _ hmem)

/-- Items that take their names take each of them once. -/
theorem nodup_keys_of_forall_eq (h : ∀ i ∈ admitted name key taken items, key i = name i) :
    ((admitted name key taken items).map key).Nodup := by
  induction items generalizing taken with
  | nil => exact List.nodup_nil
  | cons j items ih =>
      by_cases hj : name j ∈ taken
      · rw [admitted_cons_of_mem hj] at h ⊢
        exact ih h
      · rw [admitted_cons_of_notMem hj] at h ⊢
        rw [List.map_cons, List.nodup_cons]
        refine ⟨?_, ih fun i hi => h i (List.mem_cons_of_mem j hi)⟩
        intro hmem
        obtain ⟨i, hi, hkey⟩ := List.mem_map.mp hmem
        have hname := name_notMem_of_mem_admitted hi
        rw [← h i (List.mem_cons_of_mem j hi), hkey] at hname
        exact hname List.mem_cons_self

end admission

/-! ### The table -/

section keys

variable {K V : Type} [LT K] [Std.Irrefl (α := K) (· < ·)]

theorem OrdMap.nodup_keys (m : OrdMap K V) : m.keys.Nodup := by
  unfold OrdMap.keys List.Nodup
  rw [List.pairwise_map]
  refine m.sorted.imp fun {a b} hlt heq => ?_
  rw [heq] at hlt
  exact Std.Irrefl.irrefl b.1 hlt

/-- The keys are in order, so that they are a matter of membership. -/
theorem OrdMap.keys_ext [Trans (α := K) (β := K) (γ := K) (· < ·) (· < ·) (· < ·)] {W : Type} {m : OrdMap K V}
    {m' : OrdMap K W} (h : ∀ k, k ∈ m.keys ↔ k ∈ m'.keys) : m.keys = m'.keys := by
  have hantisymm : Std.Antisymm fun a b : K => a < b :=
    ⟨fun a b hab hba => absurd (Trans.trans hab hba) (Std.Irrefl.irrefl a)⟩
  exact List.Pairwise.eq_of_mem_iff (List.pairwise_map.mpr m.sorted) (List.pairwise_map.mpr m'.sorted) h

theorem OrdMap.mem_keys [DecidableEq K] {m : OrdMap K V} {k : K} : k ∈ m.keys ↔ m.find? k ≠ none := by
  rw [Ne, OrdMap.find?_eq_none]
  simp [OrdMap.keys]

end keys

section table

variable {K V : Type} [DecidableEq K] [LT K] [DecidableLT K]
  [Trans (α := K) (β := K) (γ := K) (· < ·) (· < ·) (· < ·)] [Std.Trichotomous (α := K) (· < ·)]

/-- The entries inserted one after the other. -/
def table (entries : List (K × V)) : OrdMap K V := entries.foldl (fun m e => m.insert e.1 e.2) OrdMap.empty

variable {entries : List (K × V)} {k : K} {v : V}

theorem table_concat (entries : List (K × V)) (e : K × V) : table (entries ++ [e]) = (table entries).insert e.1 e.2 := by
  unfold table
  rw [List.foldl_append]
  rfl

/-- The last entry under a key is found. -/
theorem find?_table (entries : List (K × V)) (k : K) :
    (table entries).find? k = (entries.reverse.find? fun e => decide (e.1 = k)).map Prod.snd := by
  induction entries using List.reverseRecOn with
  | nil => rfl
  | append_singleton entries e ih =>
      rw [table_concat, OrdMap.find?_insert, ih, List.reverse_append, List.reverse_singleton, List.singleton_append]
      by_cases he : e.1 = k
      · rw [if_pos he, List.find?_cons_of_pos (by simpa using he), Option.map_some]
      · rw [if_neg he, List.find?_cons_of_neg (by simpa using he)]

theorem mem_of_find?_table (h : (table entries).find? k = some v) : (k, v) ∈ entries := by
  rw [find?_table, Option.map_eq_some_iff] at h
  obtain ⟨e, hfind, rfl⟩ := h
  have hkey : e.1 = k := by simpa using List.find?_some hfind
  have hmem : e ∈ entries := List.mem_reverse.mp (List.mem_of_find?_eq_some hfind)
  rwa [← hkey]

theorem find?_table_ne_none : (table entries).find? k ≠ none ↔ k ∈ entries.map Prod.fst := by
  rw [find?_table, Ne, Option.map_eq_none_iff, List.find?_eq_none]
  simp

theorem find?_table_of_nodup (hnodup : (entries.map Prod.fst).Nodup) (h : (k, v) ∈ entries) :
    (table entries).find? k = some v := by
  have hkey : k ∈ entries.map Prod.fst := List.mem_map_of_mem h
  obtain ⟨v', hv'⟩ := Option.ne_none_iff_exists'.mp (find?_table_ne_none.mpr hkey)
  have hsame : (k, v') = (k, v) := List.inj_on_of_nodup_map hnodup (mem_of_find?_table hv') h rfl
  rw [hv', (Prod.mk.inj hsame).2]

variable [Std.Irrefl (α := K) (· < ·)]

theorem mem_keys_table : k ∈ (table entries).keys ↔ k ∈ entries.map Prod.fst := by
  rw [OrdMap.mem_keys, find?_table_ne_none]

/-- No entry has replaced another if and only if there are as many as went in. -/
theorem size_table_iff (entries : List (K × V)) :
    (table entries).size = entries.length ↔ (entries.map Prod.fst).Nodup := by
  have hsize : (table entries).size = (entries.map Prod.fst).dedup.length := by
    have hperm : (table entries).keys.Perm (entries.map Prod.fst).dedup := by
      rw [List.perm_ext_iff_of_nodup (table entries).nodup_keys (List.nodup_dedup _)]
      intro k
      rw [mem_keys_table, List.mem_dedup]
    rw [← hperm.length_eq]
    exact (List.length_map Prod.fst).symm
  rw [hsize, ← List.length_map (f := Prod.fst)]
  constructor
  · intro h
    rw [← (List.dedup_sublist (entries.map Prod.fst)).eq_of_length h]
    exact List.nodup_dedup _
  · intro h
    rw [h.dedup]

end table

end Lib
