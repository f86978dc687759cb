import Mathlib

/-!
# Ordered finite maps

A finite map kept as the list of its entries in strictly increasing key order: lookup, insertion that
replaces the value of an existing key, and iteration in key order. The order of the keys is a field of
the structure, so a map with a repeated key or with its entries out of order cannot be built.
-/

namespace Lib

variable {K V : Type}

/-- Entries in strictly increasing key order. -/
structure OrdMap (K V : Type) [LT K] where
  entries : List (K × V)
  sorted : entries.Pairwise fun a b => a.1 < b.1
  deriving DecidableEq

namespace OrdMap

section entries
variable [DecidableEq K]

/-- The value under a key in a list of entries. -/
def findEntry (k : K) : List (K × V) → Option V
  | [] => none
  | e :: rest => if e.1 = k then some e.2 else findEntry k rest

theorem findEntry_mem {k : K} {v : V} {l : List (K × V)} (h : findEntry k l = some v) : (k, v) ∈ l := by
  induction l with
  | nil => simp [findEntry] at h
  | cons e rest ih =>
      by_cases he : e.1 = k
      · simp only [findEntry, if_pos he, Option.some.injEq] at h
        simp [← he, ← h]
      · simp only [findEntry, if_neg he] at h
        exact List.mem_cons_of_mem _ (ih h)

end entries

variable [LT K]

/-- The map without entries. -/
def empty : OrdMap K V := ⟨[], List.Pairwise.nil⟩

def isEmpty (m : OrdMap K V) : Bool := m.entries.isEmpty

def keys (m : OrdMap K V) : List K := m.entries.map Prod.fst

def size (m : OrdMap K V) : Nat := m.entries.length

theorem ext_entries {m m' : OrdMap K V} (h : m.entries = m'.entries) : m = m' := by
  cases m
  cases m'
  rwa [OrdMap.mk.injEq]

section lookup
variable [DecidableEq K]

def find? (m : OrdMap K V) (k : K) : Option V := findEntry k m.entries

theorem mem_of_find? {m : OrdMap K V} {k : K} {v : V} (h : m.find? k = some v) : (k, v) ∈ m.entries :=
  findEntry_mem h

@[simp] theorem find?_empty (k : K) : (empty : OrdMap K V).find? k = none := rfl

end lookup

section order
variable [DecidableEq K] [Std.Irrefl (α := K) (· < ·)]

/-- The keys of a map are distinct, so an entry of the list is what lookup finds. -/
theorem findEntry_of_mem {k : K} {v : V} {l : List (K × V)} (hsorted : l.Pairwise fun a b => a.1 < b.1)
    (hmem : (k, v) ∈ l) : findEntry k l = some v := by
  induction l with
  | nil => simp at hmem
  | cons e rest ih =>
      obtain ⟨hhead, htail⟩ := List.pairwise_cons.mp hsorted
      rcases List.mem_cons.mp hmem with he | hrest
      · simp [findEntry, ← he]
      · have hne : e.1 ≠ k := by
          intro he
          have hlt := hhead (k, v) hrest
          rw [he] at hlt
          exact Std.Irrefl.irrefl k hlt
        rw [findEntry, if_neg hne]
        exact ih htail hrest

theorem find?_iff_mem {m : OrdMap K V} {k : K} {v : V} : m.find? k = some v ↔ (k, v) ∈ m.entries :=
  ⟨mem_of_find?, findEntry_of_mem m.sorted⟩

/-- An entry is there once. -/
theorem count_entries [DecidableEq V] [BEq (K × V)] [LawfulBEq (K × V)] (m : OrdMap K V) (e : K × V) :
    m.entries.count e = if m.find? e.1 = some e.2 then 1 else 0 := by
  have hnodup : m.entries.Nodup := m.sorted.imp fun hlt he => by
    rw [he] at hlt
    exact Std.Irrefl.irrefl _ hlt
  split_ifs with h
  · exact List.count_eq_one_of_mem hnodup (find?_iff_mem.mp h)
  · exact List.count_eq_zero.mpr fun hmem => h (find?_iff_mem.mpr hmem)

theorem find?_eq_none {m : OrdMap K V} {k : K} : m.find? k = none ↔ ∀ e ∈ m.entries, e.1 ≠ k := by
  rw [Option.eq_none_iff_forall_not_mem]
  constructor
  · rintro h ⟨k', v⟩ he rfl
    exact h v (find?_iff_mem.mpr he)
  · intro h v hv
    exact h (k, v) (find?_iff_mem.mp hv) rfl

/-- The entries whose keys pass a test. -/
def filter (m : OrdMap K V) (p : K → Bool) : OrdMap K V :=
  ⟨m.entries.filter fun e => p e.1, m.sorted.filter _⟩

theorem find?_filter (m : OrdMap K V) (p : K → Bool) (k : K) :
    (m.filter p).find? k = if p k then m.find? k else none := by
  split_ifs with hk
  · refine Option.ext fun v => ?_
    rw [find?_iff_mem, find?_iff_mem]
    simp [filter, hk]
  · rw [find?_eq_none]
    rintro e he rfl
    exact hk (by simpa using (List.mem_filter.mp he).2)

end order

section ext
variable [DecidableEq K] [Std.Irrefl (α := K) (· < ·)]
  [Trans (α := K) (β := K) (γ := K) (· < ·) (· < ·) (· < ·)]

/-- A map is what lookup finds in it. -/
theorem ext_find? {m m' : OrdMap K V} (h : ∀ k, m.find? k = m'.find? k) :
    m = m' := by
  have hmem : ∀ e : K × V, e ∈ m.entries ↔ e ∈ m'.entries := by
    rintro ⟨k, v⟩
    rw [← find?_iff_mem, ← find?_iff_mem, h]
  have hirrefl : Std.Irrefl fun a b : K × V => a.1 < b.1 := ⟨fun e => Std.Irrefl.irrefl e.1⟩
  have hantisymm : Std.Antisymm fun a b : K × V => a.1 < b.1 :=
    ⟨fun a b hab hba => absurd (Trans.trans hab hba) (Std.Irrefl.irrefl a.1)⟩
  exact ext_entries (List.Pairwise.eq_of_mem_iff m.sorted m'.sorted hmem)

end ext

section insertion
variable [DecidableEq K] [DecidableLT K]

/-- Insertion before the first larger key, replacing the value of an equal key. -/
def insertEntry (k : K) (v : V) : List (K × V) → List (K × V)
  | [] => [(k, v)]
  | e :: rest =>
    if k < e.1 then (k, v) :: e :: rest
    else if k = e.1 then (k, v) :: rest
    else e :: insertEntry k v rest

theorem mem_insertEntry {k : K} {v : V} {l : List (K × V)} {e : K × V} (h : e ∈ insertEntry k v l) :
    e = (k, v) ∨ e ∈ l := by
  induction l with
  | nil => simpa [insertEntry] using h
  | cons a rest ih =>
      rw [insertEntry] at h
      split_ifs at h with hlt heq
      · simpa using h
      · rcases List.mem_cons.mp h with h | h
        · exact Or.inl h
        · exact Or.inr (List.mem_cons_of_mem _ h)
      · rcases List.mem_cons.mp h with h | h
        · exact Or.inr (by simp [h])
        · rcases ih h with h | h
          · exact Or.inl h
          · exact Or.inr (List.mem_cons_of_mem _ h)

theorem insertEntry_ne_nil (k : K) (v : V) (l : List (K × V)) : insertEntry k v l ≠ [] := by
  cases l with
  | nil => simp [insertEntry]
  | cons e rest =>
      rw [insertEntry]
      split_ifs <;> simp

theorem findEntry_insertEntry_self (k : K) (v : V) (l : List (K × V)) :
    findEntry k (insertEntry k v l) = some v := by
  induction l with
  | nil => simp [insertEntry, findEntry]
  | cons e rest ih =>
      rw [insertEntry]
      split_ifs with hlt heq
      · simp [findEntry]
      · simp [findEntry]
      · rw [findEntry, if_neg (fun h => heq h.symm)]
        exact ih

theorem findEntry_insertEntry_ne {k k' : K} (v : V) (l : List (K × V)) (hne : k ≠ k') :
    findEntry k' (insertEntry k v l) = findEntry k' l := by
  induction l with
  | nil => simp [insertEntry, findEntry, hne]
  | cons e rest ih =>
      rw [insertEntry]
      split_ifs with hlt heq
      · rw [findEntry, if_neg hne]
      · rw [findEntry, if_neg hne, findEntry, if_neg (fun h => hne (heq.trans h))]
      · simp only [findEntry, ih]

/-- A key that is larger than all others goes to the end. -/
theorem insertEntry_of_lt [Std.Irrefl (α := K) (· < ·)]
    [Trans (α := K) (β := K) (γ := K) (· < ·) (· < ·) (· < ·)] {k : K} {v : V} {l : List (K × V)}
    (h : ∀ e ∈ l, e.1 < k) : insertEntry k v l = l ++ [(k, v)] := by
  induction l with
  | nil => rfl
  | cons e rest ih =>
      have he := h e (by simp)
      have hlt : ¬ k < e.1 := fun hlt => Std.Irrefl.irrefl k (Trans.trans hlt he)
      have hne : k ≠ e.1 := fun heq => Std.Irrefl.irrefl k (by rwa [← heq] at he)
      rw [insertEntry, if_neg hlt, if_neg hne, ih fun e' he' => h e' (by simp [he'])]
      rfl

variable [Trans (α := K) (β := K) (γ := K) (· < ·) (· < ·) (· < ·)] [Std.Trichotomous (α := K) (· < ·)]

theorem sorted_insertEntry (k : K) (v : V) {l : List (K × V)} (h : l.Pairwise fun a b => a.1 < b.1) :
    (insertEntry k v l).Pairwise fun a b => a.1 < b.1 := by
  induction l with
  | nil => simp [insertEntry]
  | cons e rest ih =>
      obtain ⟨hhead, htail⟩ := List.pairwise_cons.mp h
      rw [insertEntry]
      split_ifs with hlt heq
      · refine List.pairwise_cons.mpr ⟨fun a ha => ?_, h⟩
        rcases List.mem_cons.mp ha with rfl | ha
        · exact hlt
        · exact Trans.trans hlt (hhead a ha)
      · refine List.pairwise_cons.mpr ⟨fun a ha => ?_, htail⟩
        rw [heq]
        exact hhead a ha
      · have hgt : e.1 < k := by
          by_contra hnot
          exact heq (Std.Trichotomous.trichotomous k e.1 hlt hnot)
        refine List.pairwise_cons.mpr ⟨fun a ha => ?_, ih htail⟩
        rcases mem_insertEntry ha with rfl | ha
        · exact hgt
        · exact hhead a ha

/-- The map with `v` under `k`. -/
def insert (m : OrdMap K V) (k : K) (v : V) : OrdMap K V :=
  ⟨insertEntry k v m.entries, sorted_insertEntry k v m.sorted⟩

@[simp] theorem find?_insert_self (m : OrdMap K V) (k : K) (v : V) : (m.insert k v).find? k = some v :=
  findEntry_insertEntry_self k v m.entries

theorem find?_insert_ne (m : OrdMap K V) {k k' : K} (v : V) (hne : k ≠ k') :
    (m.insert k v).find? k' = m.find? k' :=
  findEntry_insertEntry_ne v m.entries hne

theorem find?_insert (m : OrdMap K V) (k k' : K) (v : V) :
    (m.insert k v).find? k' = if k = k' then some v else m.find? k' := by
  split_ifs with h
  · rw [← h, find?_insert_self]
  · exact find?_insert_ne m v h

@[simp] theorem isEmpty_insert (m : OrdMap K V) (k : K) (v : V) : (m.insert k v).isEmpty = false := by
  simpa [isEmpty, insert] using insertEntry_ne_nil k v m.entries

/-- A map is what its entries make of the empty map, one after the other. -/
theorem foldl_insert_entries [Std.Irrefl (α := K) (· < ·)] (m : OrdMap K V) :
    m.entries.foldl (fun acc e => acc.insert e.1 e.2) empty = m := by
  have hfold : ∀ (l : List (K × V)) (acc : OrdMap K V), (acc.entries ++ l).Pairwise (fun a b => a.1 < b.1) →
      (l.foldl (fun acc e => acc.insert e.1 e.2) acc).entries = acc.entries ++ l := by
    intro l
    induction l with
    | nil => simp
    | cons e rest ih =>
        intro acc hsorted
        have hinsert : (acc.insert e.1 e.2).entries = acc.entries ++ [e] :=
          insertEntry_of_lt fun e' he' => (List.pairwise_append.mp hsorted).2.2 e' he' e (by simp)
        rw [List.foldl_cons, ih _ (by rwa [hinsert, List.append_assoc, List.singleton_append]), hinsert]
        simp
  exact ext_entries (hfold m.entries empty (by simpa [empty] using m.sorted))

theorem mem_entries_insert {m : OrdMap K V} {k : K} {v : V} {e : K × V} (h : e ∈ (m.insert k v).entries) :
    e = (k, v) ∨ e ∈ m.entries :=
  mem_insertEntry h

/-- What is stored of a list of entries was one of them. -/
theorem mem_of_mem_foldl_insert {l : List (K × V)} {e : K × V}
    (he : e ∈ (l.foldl (fun acc e => acc.insert e.1 e.2) (empty : OrdMap K V)).entries) : e ∈ l := by
  induction l using List.reverseRecOn with
  | nil => exact he
  | append_singleton l last ih =>
      rw [List.foldl_append, List.foldl_cons, List.foldl_nil] at he
      rcases mem_entries_insert he with rfl | he
      · simp
      · exact List.mem_append_left _ (ih he)

/-- A key that is there is stored with one of its values. -/
theorem exists_find?_foldl_insert {l : List (K × V)} {k : K} (m : OrdMap K V) (hk : ∃ v, (k, v) ∈ l) :
    ∃ v, (k, v) ∈ l ∧ (l.foldl (fun acc e => acc.insert e.1 e.2) m).find? k = some v := by
  induction l using List.reverseRecOn with
  | nil => simp at hk
  | append_singleton l last ih =>
      rw [List.foldl_append, List.foldl_cons, List.foldl_nil]
      by_cases hlast : last.1 = k
      · refine ⟨last.2, by simp [← hlast], ?_⟩
        rw [hlast, find?_insert_self]
      · have hbefore : ∃ v, (k, v) ∈ l := by
          obtain ⟨v, hv⟩ := hk
          rcases List.mem_append.mp hv with hv | hv
          · exact ⟨v, hv⟩
          · rw [← List.mem_singleton.mp hv] at hlast
            exact absurd rfl hlast
        obtain ⟨v, hv, hfind⟩ := ih hbefore
        exact ⟨v, by simp [hv], by rw [find?_insert_ne _ _ hlast, hfind]⟩

end insertion

end OrdMap

end Lib
