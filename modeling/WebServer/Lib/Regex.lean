import Mathlib.Data.List.Forall2
import Mathlib.Logic.Relation

/-!
# Regular expressions

Regular expressions with capture groups, look-ahead and anchors, as a backtracking matcher runs them. `runs`
lists the ends of the matches that start at a place of a text in the order in which the matcher finds them: the
first choice of an alternative before the second, more rounds of a repetition before fewer. `Matches` says which
ends there are, without the order, and `mem_runs` that the two agree; so an expression with one match at a place
is known there from `Matches` alone (`first?_eq_some`).

`Pattern` is an expression whose matches are never empty, and `replace` puts a format in for its matches, found
one after the other from left to right. A letter that no match starts with is passed over (`replace_append`).
-/

namespace Lib

/-- A place in a text: whether the text starts here, the text from here on, and what the groups have captured. -/
structure Place (α : Type) where
  atStart : Bool
  rest : List α
  groups : List (Nat × List α)

namespace Place

variable {α : Type}

/-- The place behind a word, with nothing captured. -/
def after (a : Place α) (w rest : List α) : Place α := ⟨a.atStart && w.isEmpty, rest, a.groups⟩

@[simp] theorem after_rest (a : Place α) (w rest : List α) : (a.after w rest).rest = rest := rfl

@[simp] theorem after_groups (a : Place α) (w rest : List α) : (a.after w rest).groups = a.groups := rfl

theorem after_nil (a : Place α) : a.after [] a.rest = a := by simp [after]

theorem after_after (a : Place α) (w w' rest rest' : List α) :
    (a.after w rest).after w' rest' = a.after (w ++ w') rest' := by
  cases w <;> simp [after]

end Place

/-- Regular expressions over the letters `α`. -/
inductive Regex (α : Type)
  | empty
  | one (p : α → Bool)
  | seq (r s : Regex α)
  | alt (r s : Regex α)
  | star (r : Regex α)
  | group (i : Nat) (r : Regex α)
  | notAhead (r : Regex α)
  | bol
  | eol

namespace Regex

variable {α : Type}

/-- The rounds of a repetition: one more round if it reads something, and none. -/
def rounds (f : Place α → List (Place α)) : Nat → Place α → List (Place α)
  | 0, a => [a]
  | n + 1, a => ((f a).filter fun b => decide (b.rest.length < a.rest.length)).flatMap (rounds f n) ++ [a]

/-- What was read between two places. -/
def between (a b : Place α) : List α := a.rest.take (a.rest.length - b.rest.length)

/-- The ends of the matches that start at a place, in the order of the matcher. -/
def runs : Regex α → Place α → List (Place α)
  | .empty, a => [a]
  | .one p, a =>
    match a.rest with
    | [] => []
    | c :: rest => if p c then [⟨false, rest, a.groups⟩] else []
  | .seq r s, a => (runs r a).flatMap (runs s)
  | .alt r s, a => runs r a ++ runs s a
  | .star r, a => rounds (runs r) a.rest.length a
  | .group i r, a => (runs r a).map fun b => ⟨b.atStart, b.rest, (i, between a b) :: b.groups⟩
  | .notAhead r, a => if (runs r a).isEmpty then [a] else []
  | .bol, a => if a.atStart then [a] else []
  | .eol, a => if a.rest.isEmpty then [a] else []

/-- The end of the match that the matcher finds first. -/
def first? (r : Regex α) (a : Place α) : Option (Place α) := (runs r a).head?

/-- Whether a whole text is a match. -/
def fullMatch (r : Regex α) (text : List α) : Bool := (runs r ⟨true, text, []⟩).any fun b => b.rest.isEmpty

/-! ### The expressions of the notation -/

/-- A word. -/
def word [DecidableEq α] : List α → Regex α
  | [] => .empty
  | c :: rest => .seq (.one fun d => decide (d = c)) (word rest)

/-- `r{n}`. -/
def times (r : Regex α) : Nat → Regex α
  | 0 => .empty
  | n + 1 => .seq r (times r n)

/-- `r{0,n}`. -/
def upTo (r : Regex α) : Nat → Regex α
  | 0 => .empty
  | n + 1 => .alt (.seq r (upTo r n)) .empty

/-! ### Matches without their order -/

/-- The ends of the matches that start at a place. -/
def Matches : Regex α → Place α → Place α → Prop
  | .empty, a, b => b = a
  | .one p, a, b => ∃ c, p c = true ∧ a.rest = c :: b.rest ∧ b.groups = a.groups ∧ b.atStart = false
  | .seq r s, a, b => ∃ m, Matches r a m ∧ Matches s m b
  | .alt r s, a, b => Matches r a b ∨ Matches s a b
  | .star r, a, b => Relation.ReflTransGen (fun m n => Matches r m n ∧ n.rest.length < m.rest.length) a b
  | .group i r, a, b => ∃ m, Matches r a m ∧ b = ⟨m.atStart, m.rest, (i, between a m) :: m.groups⟩
  | .notAhead r, a, b => b = a ∧ ∀ m, ¬ Matches r a m
  | .bol, a, b => b = a ∧ a.atStart = true
  | .eol, a, b => b = a ∧ a.rest = []

theorem mem_rounds {f : Place α → List (Place α)} {n : Nat} {a b : Place α} (hn : a.rest.length ≤ n) :
    b ∈ rounds f n a ↔ Relation.ReflTransGen (fun x y => y ∈ f x ∧ y.rest.length < x.rest.length) a b := by
  induction n generalizing a with
  | zero =>
      rw [rounds, List.mem_singleton, Relation.ReflTransGen.cases_head_iff]
      constructor
      · intro h
        exact .inl h.symm
      · rintro (h | ⟨m, ⟨-, hlt⟩, -⟩)
        · exact h.symm
        · omega
  | succ n ih =>
      rw [rounds, List.mem_append, List.mem_singleton, List.mem_flatMap, Relation.ReflTransGen.cases_head_iff, or_comm]
      refine or_congr eq_comm (exists_congr fun m => ?_)
      rw [List.mem_filter, decide_eq_true_iff]
      refine and_congr_right fun hm => ih ?_
      omega

/-- The matcher finds the matches, and nothing else. -/
theorem mem_runs {r : Regex α} {a b : Place α} : b ∈ runs r a ↔ Matches r a b := by
  induction r generalizing a b with
  | empty => rw [runs, Matches, List.mem_singleton]
  | one p =>
      obtain ⟨s, rest, gs⟩ := a
      obtain ⟨s', rest', gs'⟩ := b
      cases rest with
      | nil => simp [runs, Matches]
      | cons c rest =>
          by_cases hc : p c = true
          · simp only [runs, Matches, if_pos hc, List.mem_singleton, Place.mk.injEq, List.cons.injEq]
            constructor
            · rintro ⟨rfl, rfl, rfl⟩
              exact ⟨c, hc, ⟨rfl, rfl⟩, rfl, rfl⟩
            · rintro ⟨d, -, ⟨-, rfl⟩, rfl, rfl⟩
              exact ⟨rfl, rfl, rfl⟩
          · simp only [runs, Matches, if_neg hc, List.not_mem_nil, List.cons.injEq, false_iff]
            rintro ⟨d, hd, ⟨rfl, -⟩, -⟩
            exact hc hd
  | seq r s ihr ihs =>
      rw [runs, Matches, List.mem_flatMap]
      exact exists_congr fun m => and_congr ihr ihs
  | alt r s ihr ihs => rw [runs, Matches, List.mem_append, ihr, ihs]
  | star r ih =>
      rw [runs, Matches, mem_rounds (Nat.le_refl _)]
      have hstep : (fun m n : Place α => n ∈ runs r m ∧ n.rest.length < m.rest.length) =
          fun m n => Matches r m n ∧ n.rest.length < m.rest.length := by
        funext m n
        rw [ih]
      rw [hstep]
  | group i r ih =>
      rw [runs, Matches, List.mem_map]
      exact exists_congr fun m => and_congr ih eq_comm
  | notAhead r ih =>
      rw [runs, Matches]
      have hempty : (runs r a).isEmpty = true ↔ ∀ m, ¬ Matches r a m := by
        rw [List.isEmpty_iff, List.eq_nil_iff_forall_not_mem]
        exact forall_congr' fun m => not_congr ih
      split_ifs with h
      · simp [hempty.mp h]
      · simp [hempty.not.mp h]
  | bol =>
      rw [runs, Matches]
      split_ifs with h <;> simp [h]
  | eol =>
      rw [runs, Matches]
      split_ifs with h <;> simp_all

/-! ### The first match -/

variable {r s : Regex α} {a b : Place α}

theorem first?_eq_none : first? r a = none ↔ ∀ b, ¬ Matches r a b := by
  rw [first?, List.head?_eq_none_iff, List.eq_nil_iff_forall_not_mem]
  exact forall_congr' fun b => not_congr mem_runs

theorem matches_of_first? (h : first? r a = some b) : Matches r a b := mem_runs.mp (List.mem_of_head? h)

/-- The only match at a place is the one that is found. -/
theorem first?_eq_some (h : Matches r a b) (huniq : ∀ b', Matches r a b' → b' = b) : first? r a = some b := by
  cases hfirst : first? r a with
  | none => exact absurd h (first?_eq_none.mp hfirst b)
  | some b' => rw [huniq b' (matches_of_first? hfirst)]

theorem first?_seq {m : Place α} (hr : first? r a = some m) (hs : first? s m = some b) :
    first? (.seq r s) a = some b := by
  rw [first?, List.head?_eq_some_iff] at hr hs
  obtain ⟨ms, hms⟩ := hr
  obtain ⟨bs, hbs⟩ := hs
  rw [first?, runs, hms, List.flatMap_cons, hbs]
  rfl

theorem first?_group {i : Nat} (hr : first? r a = some b) :
    first? (.group i r) a = some ⟨b.atStart, b.rest, (i, between a b) :: b.groups⟩ := by
  rw [first?] at hr ⊢
  rw [runs, List.head?_map, hr]
  rfl

theorem fullMatch_iff {text : List α} : fullMatch r text = true ↔ ∃ b, Matches r ⟨true, text, []⟩ b ∧ b.rest = [] := by
  simp [fullMatch, mem_runs, List.isEmpty_iff]

/-! ### What a match reads -/

/-- No match is empty. -/
def consumes : Regex α → Bool
  | .empty => false
  | .one _ => true
  | .seq r s => consumes r || consumes s
  | .alt r s => consumes r && consumes s
  | .star _ => false
  | .group _ r => consumes r
  | .notAhead _ => false
  | .bol => false
  | .eol => false

theorem consumes_word [DecidableEq α] {w : List α} (hw : w ≠ []) : consumes (word w) = true := by
  obtain ⟨c, rest, rfl⟩ := List.exists_cons_of_ne_nil hw
  rfl

/-- The letters that a match may start with. -/
def starts : Regex α → α → Bool
  | .empty, _ => false
  | .one p, c => p c
  | .seq r s, c => starts r c || (!consumes r && starts s c)
  | .alt r s, c => starts r c || starts s c
  | .star r, c => starts r c
  | .group _ r, c => starts r c
  | .notAhead _, _ => false
  | .bol, _ => false
  | .eol, _ => false

theorem starts_word [DecidableEq α] (c d : α) (w : List α) : starts (word (c :: w)) d = decide (d = c) := by
  simp [word, starts, consumes]

/-- What is left behind a match is a part of the text at its back. -/
theorem Matches.suffix (h : Matches r a b) : b.rest <:+ a.rest := by
  induction r generalizing a b with
  | empty => exact h ▸ List.suffix_refl _
  | one p =>
      obtain ⟨c, -, hrest, -⟩ := h
      exact hrest ▸ List.suffix_cons c _
  | seq r s ihr ihs =>
      obtain ⟨m, hr, hs⟩ := h
      exact (ihs hs).trans (ihr hr)
  | alt r s ihr ihs => exact h.elim ihr ihs
  | star r ih =>
      refine Relation.ReflTransGen.head_induction_on h (List.suffix_refl _) ?_
      intro m n hstep _ hn
      exact hn.trans (ih hstep.1)
  | group i r ih =>
      obtain ⟨m, hm, rfl⟩ := h
      exact ih (b := m) hm
  | notAhead r => exact h.1 ▸ List.suffix_refl _
  | bol => exact h.1 ▸ List.suffix_refl _
  | eol => exact h.1 ▸ List.suffix_refl _

theorem Matches.length_lt (h : Matches r a b) (hr : consumes r = true) : b.rest.length < a.rest.length := by
  induction r generalizing a b with
  | one p =>
      obtain ⟨c, -, hrest, -⟩ := h
      simp [hrest]
  | seq r s ihr ihs =>
      obtain ⟨m, hm, hb⟩ := h
      have hle := hm.suffix.length_le
      have hle' := hb.suffix.length_le
      rw [consumes, Bool.or_eq_true] at hr
      rcases hr with hr | hs
      · have := ihr hm hr
        omega
      · have := ihs hb hs
        omega
  | alt r s ihr ihs =>
      rw [consumes, Bool.and_eq_true] at hr
      exact h.elim (fun h => ihr h hr.1) fun h => ihs h hr.2
  | group i r ih =>
      obtain ⟨m, hm, rfl⟩ := h
      exact ih (b := m) hm hr
  | empty => simp [consumes] at hr
  | star r => simp [consumes] at hr
  | notAhead r => simp [consumes] at hr
  | bol => simp [consumes] at hr
  | eol => simp [consumes] at hr

/-- A match is empty, or it starts with one of the letters. -/
theorem Matches.starts_or (h : Matches r a b) :
    b.rest = a.rest ∨ ∃ c rest, a.rest = c :: rest ∧ starts r c = true := by
  induction r generalizing a b with
  | empty => exact .inl (h ▸ rfl)
  | one p =>
      obtain ⟨c, hc, hrest, -⟩ := h
      exact .inr ⟨c, b.rest, hrest, hc⟩
  | seq r s ihr ihs =>
      obtain ⟨m, hm, hb⟩ := h
      rcases ihr hm with hsame | ⟨c, rest, hrest, hc⟩
      · have hr : consumes r = false := by
          rw [← Bool.not_eq_true]
          intro hr
          have := hm.length_lt hr
          rw [hsame] at this
          omega
        rcases ihs hb with hsame' | ⟨c, rest, hrest, hc⟩
        · exact .inl (hsame'.trans hsame)
        · exact .inr ⟨c, rest, hsame ▸ hrest, by simp [starts, hr, hc]⟩
      · exact .inr ⟨c, rest, hrest, by simp [starts, hc]⟩
  | alt r s ihr ihs =>
      rcases h with h | h
      · exact (ihr h).imp_right fun ⟨c, rest, hrest, hc⟩ => ⟨c, rest, hrest, by simp [starts, hc]⟩
      · exact (ihs h).imp_right fun ⟨c, rest, hrest, hc⟩ => ⟨c, rest, hrest, by simp [starts, hc]⟩
  | star r ih =>
      rcases Relation.ReflTransGen.cases_head h with heq | ⟨m, hstep, -⟩
      · exact .inl (heq ▸ rfl)
      · refine .inr ((ih hstep.1).resolve_left fun hsame => ?_)
        have := hstep.2
        rw [hsame] at this
        omega
  | group i r ih =>
      obtain ⟨m, hm, rfl⟩ := h
      exact ih (b := m) hm
  | notAhead r => exact .inl (h.1 ▸ rfl)
  | bol => exact .inl (h.1 ▸ rfl)
  | eol => exact .inl (h.1 ▸ rfl)

theorem first?_eq_none_of_starts {c : α} {rest : List α} (hr : consumes r = true) (hc : starts r c = false)
    (hrest : a.rest = c :: rest) : first? r a = none := by
  refine first?_eq_none.mpr fun b h => ?_
  have hlt := h.length_lt hr
  rcases h.starts_or with hsame | ⟨d, rest', hrest', hd⟩
  · rw [hsame] at hlt
    omega
  · obtain ⟨rfl, -⟩ := List.cons.inj (hrest.symm.trans hrest')
    simp [hc] at hd

/-! ### Expressions without an anchor at the start -/

/-- Whether the start of the text matters. -/
def bolFree : Regex α → Bool
  | .empty => true
  | .one _ => true
  | .seq r s => bolFree r && bolFree s
  | .alt r s => bolFree r && bolFree s
  | .star r => bolFree r
  | .group _ r => bolFree r
  | .notAhead r => bolFree r
  | .bol => false
  | .eol => true

/-- Two places that differ at most in whether the text starts there. -/
def Alike (a a' : Place α) : Prop := a.rest = a'.rest ∧ a.groups = a'.groups

theorem rounds_alike {f : Place α → List (Place α)}
    (hf : ∀ a a' : Place α, Alike a a' → List.Forall₂ Alike (f a) (f a')) (n : Nat) {a a' : Place α} (h : Alike a a') :
    List.Forall₂ Alike (rounds f n a) (rounds f n a') := by
  induction n generalizing a a' with
  | zero => exact .cons h .nil
  | succ n ih =>
      refine List.rel_append (List.rel_flatMap (List.rel_filter ?_ (hf a a' h)) fun m m' hm => ih hm) (.cons h .nil)
      intro m m' hm
      simp only [hm.1, h.1]

theorem runs_alike (hr : bolFree r = true) {a a' : Place α} (h : Alike a a') :
    List.Forall₂ Alike (runs r a) (runs r a') := by
  induction r generalizing a a' with
  | empty => exact .cons h .nil
  | one p =>
      obtain ⟨s, rest, gs⟩ := a
      obtain ⟨s', rest', gs'⟩ := a'
      obtain ⟨rfl, rfl⟩ : rest = rest' ∧ gs = gs' := h
      cases rest with
      | nil => exact .nil
      | cons c rest =>
          by_cases hc : p c = true
          · simp only [runs, if_pos hc]
            exact .cons ⟨rfl, rfl⟩ .nil
          · simp only [runs, if_neg hc]
            exact .nil
  | seq r s ihr ihs =>
      rw [bolFree, Bool.and_eq_true] at hr
      exact List.rel_flatMap (ihr hr.1 h) fun m m' hm => ihs hr.2 hm
  | alt r s ihr ihs =>
      rw [bolFree, Bool.and_eq_true] at hr
      exact List.rel_append (ihr hr.1 h) (ihs hr.2 h)
  | star r ih =>
      rw [runs, runs, h.1]
      exact rounds_alike (fun m m' hm => ih hr hm) _ h
  | group i r ih =>
      refine List.rel_map (R := Alike) ?_ (ih hr h)
      intro m m' hm
      refine ⟨hm.1, ?_⟩
      simp only [between, hm.1, hm.2, h.1]
  | notAhead r ih =>
      have hempty : (runs r a).isEmpty = (runs r a').isEmpty := by
        rw [Bool.eq_iff_iff, List.isEmpty_iff_length_eq_zero, List.isEmpty_iff_length_eq_zero, (ih hr h).length_eq]
      rw [runs, runs, hempty]
      split_ifs
      · exact .cons h .nil
      · exact .nil
  | bol => simp [bolFree] at hr
  | eol =>
      rw [runs, runs, h.1]
      split_ifs
      · exact .cons h .nil
      · exact .nil

theorem first?_alike (hr : bolFree r = true) {a a' : Place α} (h : Alike a a') :
    Option.Rel Alike (first? r a) (first? r a') := by
  have halike := runs_alike hr h
  rw [first?, first?]
  cases hruns : runs r a with
  | nil =>
      rw [hruns, List.forall₂_nil_left_iff] at halike
      rw [halike]
      exact .none
  | cons b bs =>
      rw [hruns, List.forall₂_cons_left_iff] at halike
      obtain ⟨b', bs', hb, -, hruns'⟩ := halike
      rw [hruns']
      exact .some hb

/-! ### The matches of some expressions -/

theorem between_after {w rest : List α} (h : a.rest = w ++ rest) : between a (a.after w rest) = w := by
  simp [between, h]

theorem matches_one {p : α → Bool} :
    Matches (.one p) a b ↔ ∃ c rest, a.rest = c :: rest ∧ p c = true ∧ b = a.after [c] rest := by
  obtain ⟨s, rest, gs⟩ := b
  simp only [Matches, Place.after, List.isEmpty_cons, Bool.and_false, Place.mk.injEq]
  constructor
  · rintro ⟨c, hc, hrest, hgs, hs⟩
    exact ⟨c, rest, hrest, hc, hs, rfl, hgs⟩
  · rintro ⟨c, rest', hrest, hc, hs, rfl, hgs⟩
    exact ⟨c, hc, hrest, hgs, hs⟩

theorem matches_word [DecidableEq α] {w : List α} :
    Matches (word w) a b ↔ ∃ rest, a.rest = w ++ rest ∧ b = a.after w rest := by
  induction w generalizing a with
  | nil =>
      rw [word, Matches]
      constructor
      · rintro rfl
        exact ⟨b.rest, rfl, b.after_nil.symm⟩
      · rintro ⟨rest, hrest, rfl⟩
        rw [List.nil_append] at hrest
        rw [← hrest, a.after_nil]
  | cons c w ih =>
      rw [word, Matches]
      constructor
      · rintro ⟨m, hone, hword⟩
        obtain ⟨d, rest, hrest, hd, rfl⟩ := matches_one.mp hone
        obtain ⟨rest', hrest', rfl⟩ := ih.mp hword
        obtain rfl := of_decide_eq_true hd
        rw [Place.after_rest] at hrest'
        exact ⟨rest', by rw [hrest, hrest', List.cons_append], Place.after_after ..⟩
      · rintro ⟨rest, hrest, rfl⟩
        refine ⟨a.after [c] (w ++ rest), matches_one.mpr ⟨c, _, hrest, decide_eq_true rfl, rfl⟩, ih.mpr ⟨rest, rfl, ?_⟩⟩
        rw [Place.after_after, List.singleton_append]

/-- A word so many times. -/
theorem matches_times_word [DecidableEq α] {w : List α} {n : Nat} : Matches (times (word w) n) a b ↔
    ∃ rest, a.rest = (List.replicate n w).flatten ++ rest ∧ b = a.after (List.replicate n w).flatten rest := by
  induction n generalizing a with
  | zero => exact matches_word (w := [])
  | succ n ih =>
      rw [times, Matches, List.replicate_succ, List.flatten_cons]
      constructor
      · rintro ⟨m, hword, htimes⟩
        obtain ⟨rest, hrest, rfl⟩ := matches_word.mp hword
        obtain ⟨rest', hrest', rfl⟩ := ih.mp htimes
        rw [Place.after_rest] at hrest'
        exact ⟨rest', by rw [hrest, hrest', List.append_assoc], Place.after_after ..⟩
      · rintro ⟨rest, hrest, rfl⟩
        refine ⟨a.after w ((List.replicate n w).flatten ++ rest), matches_word.mpr ⟨_, ?_, rfl⟩, ih.mpr ⟨rest, rfl, ?_⟩⟩
        · rw [hrest, List.append_assoc]
        · rw [Place.after_after]

theorem matches_upTo [DecidableEq α] {n : Nat} : Matches (upTo r n) a b ↔ ∃ k ≤ n, Matches (times r k) a b := by
  induction n generalizing a with
  | zero =>
      constructor
      · intro h
        exact ⟨0, by omega, h⟩
      · rintro ⟨k, hk, h⟩
        obtain rfl : k = 0 := by omega
        exact h
  | succ n ih =>
      constructor
      · rintro (⟨m, hm, hrest⟩ | h)
        · obtain ⟨k, hk, htimes⟩ := ih.mp hrest
          exact ⟨k + 1, by omega, m, hm, htimes⟩
        · exact ⟨0, by omega, h⟩
      · rintro ⟨k, hk, h⟩
        cases k with
        | zero => exact .inr h
        | succ k =>
            obtain ⟨m, hm, htimes⟩ := h
            exact .inl ⟨m, hm, ih.mpr ⟨k, by omega, htimes⟩⟩

theorem matches_star_one {p : α → Bool} : Matches (.star (.one p)) a b ↔
    ∃ w rest, a.rest = w ++ rest ∧ (∀ c ∈ w, p c = true) ∧ b = a.after w rest := by
  rw [Matches]
  constructor
  · intro h
    induction h using Relation.ReflTransGen.head_induction_on with
    | refl => exact ⟨[], b.rest, rfl, by simp, b.after_nil.symm⟩
    | head hstep _ ih =>
        obtain ⟨c, rest, hrest, hc, rfl⟩ := matches_one.mp hstep.1
        obtain ⟨w, rest', hrest', hw, rfl⟩ := ih
        rw [Place.after_rest] at hrest'
        exact ⟨c :: w, rest', by rw [hrest, hrest', List.cons_append], List.forall_mem_cons.mpr ⟨hc, hw⟩,
          Place.after_after ..⟩
  · rintro ⟨w, rest, hrest, hw, rfl⟩
    induction w generalizing a with
    | nil =>
        rw [List.nil_append] at hrest
        rw [← hrest, a.after_nil]
    | cons c w ih =>
        obtain ⟨hc, hw⟩ := List.forall_mem_cons.mp hw
        refine .head ⟨matches_one.mpr ⟨c, w ++ rest, hrest, hc, rfl⟩, ?_⟩ ?_
        · simp [hrest]
        · have htail := ih (a := a.after [c] (w ++ rest)) rfl hw
          rwa [Place.after_after] at htail

theorem first?_word [DecidableEq α] {w rest : List α} (h : a.rest = w ++ rest) :
    first? (word w) a = some (a.after w rest) := by
  refine first?_eq_some (matches_word.mpr ⟨rest, h, rfl⟩) fun b' hb' => ?_
  obtain ⟨rest', hrest', rfl⟩ := matches_word.mp hb'
  rw [List.append_cancel_left (h.symm.trans hrest')]

/-- A repetition of letters is as long as it can be. -/
theorem first?_star_one {p : α → Bool} :
    first? (.star (.one p)) a = some (a.after (a.rest.takeWhile p) (a.rest.dropWhile p)) := by
  have hrounds : ∀ n (a : Place α), a.rest.length ≤ n →
      (rounds (runs (.one p)) n a).head? = some (a.after (a.rest.takeWhile p) (a.rest.dropWhile p)) := by
    intro n
    induction n with
    | zero =>
        intro a ha
        have hnil : a.rest = [] := List.length_eq_zero_iff.mp (by omega)
        have hafter := a.after_nil
        rw [hnil] at hafter
        rw [rounds, hnil]
        simp [hafter]
    | succ n ih =>
        intro a ha
        obtain ⟨s, rest, gs⟩ := a
        cases rest with
        | nil => simp [rounds, runs, Place.after]
        | cons c rest =>
            by_cases hc : p c = true
            · have hround := ih ⟨false, rest, gs⟩ (by simpa using ha)
              obtain ⟨bs, hbs⟩ := List.head?_eq_some_iff.mp hround
              have hone : runs (.one p) ⟨s, c :: rest, gs⟩ = [⟨false, rest, gs⟩] := if_pos hc
              rw [rounds, hone]
              simp [hc, hbs, Place.after]
            · have hone : runs (.one p) ⟨s, c :: rest, gs⟩ = [] := if_neg hc
              rw [rounds, hone]
              simp [hc, Place.after]
  exact hrounds _ a (Nat.le_refl _)

end Regex

/-! ### Replacing -/

/-- A piece of a format: letters, or what a group has captured. -/
inductive Piece (α : Type)
  | text (w : List α)
  | captured (i : Nat)

/-- A format with the groups filled in. -/
def fill {α : Type} (groups : List (Nat × List α)) (format : List (Piece α)) : List α :=
  format.flatMap fun
    | .text w => w
    | .captured i => (groups.lookup i).getD []

/-- An expression whose matches are not empty. -/
structure Pattern (α : Type) where
  regex : Regex α
  consumes : regex.consumes = true

namespace Pattern

variable {α : Type}

/-- The text from a place on, with a format put in for the matches. The number counts the letters of the last match
that are still to be passed over. -/
def replaceFrom (p : Pattern α) (format : List (Piece α)) : Nat → Bool → List α → List α
  | _, _, [] => []
  | skip + 1, _, _ :: rest => replaceFrom p format skip false rest
  | 0, atStart, c :: rest =>
    match p.regex.first? ⟨atStart, c :: rest, []⟩ with
    | some b => fill b.groups format ++ replaceFrom p format (rest.length - b.rest.length) false rest
    | none => c :: replaceFrom p format 0 false rest

/-- `regex_replace`. -/
def replace (p : Pattern α) (format : List (Piece α)) (text : List α) : List α := replaceFrom p format 0 true text

variable {p : Pattern α} {r : Regex α} {format : List (Piece α)} {s : Bool} {pre post text : List α} {c : α}
  {b : Place α}

@[simp] theorem replaceFrom_nil (skip : Nat) (s : Bool) : replaceFrom p format skip s [] = [] := by
  cases skip <;> rfl

theorem replaceFrom_skip (pre post : List α) :
    replaceFrom p format pre.length false (pre ++ post) = replaceFrom p format 0 false post := by
  induction pre with
  | nil => rfl
  | cons c rest ih => exact ih

/-- A match is replaced. -/
theorem replaceFrom_of_some (h : p.regex.first? ⟨s, text, []⟩ = some b) :
    replaceFrom p format 0 s text = fill b.groups format ++ replaceFrom p format 0 false b.rest := by
  have hmatch := Regex.matches_of_first? h
  have hlt := hmatch.length_lt p.consumes
  obtain ⟨pre, hpre⟩ := hmatch.suffix
  cases text with
  | nil => simp at hlt
  | cons c rest =>
      obtain ⟨d, pre', rfl⟩ : ∃ d pre', pre = d :: pre' := by
        cases pre with
        | nil =>
            rw [List.nil_append] at hpre
            rw [hpre] at hlt
            omega
        | cons d pre' => exact ⟨d, pre', rfl⟩
      obtain ⟨rfl, hrest⟩ : d = c ∧ pre' ++ b.rest = rest := List.cons.inj hpre
      have hlen : rest.length - b.rest.length = pre'.length := by simp [← hrest]
      rw [replaceFrom, h]
      simp only [hlen]
      rw [← hrest, replaceFrom_skip]

/-- A letter where no match starts stays. -/
theorem replaceFrom_of_none (h : p.regex.first? ⟨s, c :: text, []⟩ = none) :
    replaceFrom p format 0 s (c :: text) = c :: replaceFrom p format 0 false text := by
  rw [replaceFrom, h]

/-- Letters that no match starts with are passed over. -/
theorem replaceFrom_append (hpre : ∀ c ∈ pre, p.regex.starts c = false) (post : List α) :
    replaceFrom p format 0 s (pre ++ post) = pre ++ replaceFrom p format 0 (s && pre.isEmpty) post := by
  induction pre generalizing s with
  | nil => simp
  | cons c rest ih =>
      obtain ⟨hc, hrest⟩ := List.forall_mem_cons.mp hpre
      rw [List.cons_append, replaceFrom_of_none (Regex.first?_eq_none_of_starts p.consumes hc rfl), ih hrest]
      simp

/-- Without an anchor it does not matter whether the text starts here. -/
theorem replaceFrom_atStart (hp : p.regex.bolFree = true) (s : Bool) (text : List α) :
    replaceFrom p format 0 s text = replaceFrom p format 0 true text := by
  cases text with
  | nil => simp
  | cons c rest =>
      have hsame : Regex.Alike (⟨s, c :: rest, []⟩ : Place α) ⟨true, c :: rest, []⟩ := ⟨rfl, rfl⟩
      have halike := Regex.first?_alike hp hsame
      rw [replaceFrom, replaceFrom]
      generalize p.regex.first? ⟨s, c :: rest, []⟩ = found at halike ⊢
      generalize p.regex.first? ⟨true, c :: rest, []⟩ = found' at halike ⊢
      cases halike with
      | none => rfl
      | some h =>
          obtain ⟨hrest, hgroups⟩ := h
          simp only [hrest, hgroups]

/-- Replacing goes on behind letters that no match starts with. -/
theorem replace_append (hp : p.regex.bolFree = true) (hpre : ∀ c ∈ pre, p.regex.starts c = false) (post : List α) :
    replace p format (pre ++ post) = pre ++ replace p format post := by
  rw [replace, replaceFrom_append hpre, replaceFrom_atStart hp, replace]

/-- An expression that is anchored at the start of the text matches nowhere else. -/
theorem replaceFrom_anchored (hp : p.regex = .seq .bol r) (text : List α) :
    replaceFrom p format 0 false text = text := by
  induction text with
  | nil => rfl
  | cons c rest ih =>
      have hnone : p.regex.first? ⟨false, c :: rest, []⟩ = none := by
        refine Regex.first?_eq_none.mpr fun b hb => ?_
        rw [hp] at hb
        obtain ⟨m, ⟨-, hstart⟩, -⟩ := hb
        simp at hstart
      rw [replaceFrom_of_none hnone, ih]

theorem replace_anchored_of_some (hp : p.regex = .seq .bol r)
    (h : p.regex.first? ⟨true, text, []⟩ = some b) : replace p format text = fill b.groups format ++ b.rest := by
  rw [replace, replaceFrom_of_some h, replaceFrom_anchored hp]

theorem replace_anchored_of_none (hp : p.regex = .seq .bol r) (h : p.regex.first? ⟨true, text, []⟩ = none) :
    replace p format text = text := by
  cases text with
  | nil => rfl
  | cons c rest => rw [replace, replaceFrom_of_none h, replaceFrom_anchored hp]
end Pattern

end Lib
