import Mathlib

/-!
# Recognisers that stop by themselves

A recogniser reads one symbol at a time; after each it has accepted, rejected, or wants more. `run` feeds
it a word and reports the verdict, the number of symbols read and the final state.

The language a recogniser accepts from a state is described by a residual (`Residual`): a set of words for
every state such that reading a symbol takes the derivative of the set. From these local conditions,
`Residual.accept_iff`, `Residual.more_iff` and `Residual.read_eq` say what `run` answers on every word: it
accepts exactly the words with a prefix in the residual, having read just that prefix, and wants more
exactly on the proper prefixes of words of the residual.

The second half has the sets these residuals are made of: a fixed symbol, or a run of symbols of a class,
in front of a set of continuations, each with its derivative.
-/

namespace Lib

/-- What a recogniser says after a symbol. -/
inductive Verdict
  | accept | reject | more
  deriving DecidableEq, Repr

/-- A recogniser: a verdict and a next state for every state and symbol. -/
structure Recognizer (σ α : Type) where
  step : σ → α → Verdict × σ

namespace Recognizer

variable {σ α : Type} (R : Recognizer σ α)

/-- The verdict of a run, the number of symbols it read, and its last state. -/
structure Outcome (σ : Type) where
  verdict : Verdict
  read : Nat
  final : σ

/-- Read symbols until the recogniser stops or the word ends. -/
def run (s : σ) : List α → Outcome σ
  | [] => ⟨.more, 0, s⟩
  | c :: rest =>
    match R.step s c with
    | (.more, s') => let o := run s' rest; ⟨o.verdict, o.read + 1, o.final⟩
    | (v, s') => ⟨v, 1, s'⟩

/-- The state after a word on every symbol of which the recogniser wants more. -/
def advance (s : σ) : List α → Option σ
  | [] => some s
  | c :: rest =>
    match R.step s c with
    | (.more, s') => advance s' rest
    | _ => none

variable {R}

@[simp] theorem run_nil (s : σ) : R.run s [] = ⟨.more, 0, s⟩ := rfl

theorem run_cons_more {s s' : σ} {c : α} (h : R.step s c = (.more, s')) (rest : List α) :
    R.run s (c :: rest) =
      ⟨(R.run s' rest).verdict, (R.run s' rest).read + 1, (R.run s' rest).final⟩ := by
  simp [run, h]

theorem run_cons_stop {s s' : σ} {c : α} {v : Verdict} (h : R.step s c = (v, s')) (hv : v ≠ .more)
    (rest : List α) : R.run s (c :: rest) = ⟨v, 1, s'⟩ := by
  cases v <;> simp_all [run]

@[simp] theorem advance_nil (s : σ) : R.advance s [] = some s := rfl

theorem advance_cons_eq {s s' : σ} {c : α} (h : R.step s c = (.more, s')) (rest : List α) :
    R.advance s (c :: rest) = R.advance s' rest := by
  simp [advance, h]

theorem advance_cons {s t : σ} {c : α} {rest : List α} :
    R.advance s (c :: rest) = some t ↔ ∃ s', R.step s c = (.more, s') ∧ R.advance s' rest = some t := by
  rw [advance]
  rcases hstep : R.step s c with ⟨v, s'⟩
  cases v <;> simp

theorem advance_append {s t : σ} {xs ys : List α} :
    R.advance s (xs ++ ys) = some t ↔ ∃ s', R.advance s xs = some s' ∧ R.advance s' ys = some t := by
  induction xs generalizing s with
  | nil => simp
  | cons c rest ih =>
      simp only [List.cons_append, advance_cons, ih]
      constructor
      · rintro ⟨s₁, hstep, s₂, hrest, hys⟩
        exact ⟨s₂, ⟨s₁, hstep, hrest⟩, hys⟩
      · rintro ⟨s₂, ⟨s₁, hstep, hrest⟩, hys⟩
        exact ⟨s₁, hstep, s₂, hrest, hys⟩

theorem advance_append_eq {s s' : σ} {xs : List α} (h : R.advance s xs = some s') (ys : List α) :
    R.advance s (xs ++ ys) = R.advance s' ys := by
  induction xs generalizing s with
  | nil => simp_all
  | cons c rest ih =>
      obtain ⟨s₁, hstep, hrest⟩ := advance_cons.mp h
      rw [List.cons_append, advance_cons_eq hstep]
      exact ih hrest

/-- A word the recogniser reads wanting more can be read first. -/
theorem run_append {s s' : σ} {xs : List α} (h : R.advance s xs = some s') (ys : List α) :
    R.run s (xs ++ ys) =
      ⟨(R.run s' ys).verdict, (R.run s' ys).read + xs.length, (R.run s' ys).final⟩ := by
  induction xs generalizing s with
  | nil => simp_all
  | cons c rest ih =>
      obtain ⟨s₁, hstep, hrest⟩ := advance_cons.mp h
      rw [List.cons_append, run_cons_more hstep, ih hrest]
      simp [Nat.add_assoc]

/-- A word on which the recogniser only collects: `collect` is the state after each part of the word. -/
theorem advance_collect (collect : List α → σ) (xs : List α)
    (h : ∀ read c, (∃ rest, xs = read ++ c :: rest) →
      R.step (collect read) c = (.more, collect (read ++ [c]))) :
    R.advance (collect []) xs = some (collect xs) := by
  induction xs generalizing collect with
  | nil => rfl
  | cons c rest ih =>
      rw [advance_cons_eq (h [] c ⟨rest, rfl⟩)]
      refine ih (fun read => collect (c :: read)) fun read d hread => ?_
      obtain ⟨rest', rfl⟩ := hread
      exact h (c :: read) d ⟨rest', rfl⟩

/-- A run that ends wanting more has read its word to the end. -/
theorem run_more_iff_advance {s : σ} {xs : List α} :
    (R.run s xs).verdict = .more ↔ R.advance s xs = some (R.run s xs).final := by
  induction xs generalizing s with
  | nil => simp
  | cons c rest ih =>
      rcases hstep : R.step s c with ⟨v, s'⟩
      cases v with
      | more =>
          rw [run_cons_more hstep, advance_cons_eq hstep]
          exact ih
      | accept => simp [run_cons_stop hstep (by simp), advance, hstep]
      | reject => simp [run_cons_stop hstep (by simp), advance, hstep]

theorem run_of_advance {s s' : σ} {xs : List α} (h : R.advance s xs = some s') :
    R.run s xs = ⟨.more, xs.length, s'⟩ := by
  have happ := run_append h []
  simpa using happ

/-- A run that stops does not look at what follows. -/
theorem run_append_of_stop {s : σ} {xs : List α} (h : (R.run s xs).verdict ≠ .more) (ys : List α) :
    R.run s (xs ++ ys) = R.run s xs := by
  induction xs generalizing s with
  | nil => simp at h
  | cons c rest ih =>
      rcases hstep : R.step s c with ⟨v, s'⟩
      cases v with
      | more =>
          rw [run_cons_more hstep] at h
          rw [List.cons_append, run_cons_more hstep, run_cons_more hstep, ih h]
      | accept => rw [List.cons_append, run_cons_stop hstep (by simp), run_cons_stop hstep (by simp)]
      | reject => rw [List.cons_append, run_cons_stop hstep (by simp), run_cons_stop hstep (by simp)]

/-- What every step keeps, a run keeps. -/
theorem run_invariant {P : σ → Prop} (hstep : ∀ s c, P s → P (R.step s c).2) {s : σ} (h : P s)
    (xs : List α) : P (R.run s xs).final := by
  induction xs generalizing s with
  | nil => exact h
  | cons c rest ih =>
      rcases hc : R.step s c with ⟨v, s'⟩
      have hs' : P s' := by
        have := hstep s c h
        rwa [hc] at this
      cases v with
      | more => rw [run_cons_more hc]; exact ih hs'
      | accept => rw [run_cons_stop hc (by simp)]; exact hs'
      | reject => rw [run_cons_stop hc (by simp)]; exact hs'

/-- A change of the state that the steps do not look at can be made after a run. -/
theorem run_map {f : σ → σ} (hf : ∀ s c, R.step (f s) c = ((R.step s c).1, f (R.step s c).2)) (s : σ)
    (xs : List α) : R.run (f s) xs = ⟨(R.run s xs).verdict, (R.run s xs).read, f (R.run s xs).final⟩ := by
  induction xs generalizing s with
  | nil => rfl
  | cons c rest ih =>
      have hfc := hf s c
      rcases hstep : R.step s c with ⟨v, s'⟩
      rw [hstep] at hfc
      cases v with
      | more => rw [run_cons_more hfc, run_cons_more hstep, ih]
      | accept => rw [run_cons_stop hfc (by simp), run_cons_stop hstep (by simp)]
      | reject => rw [run_cons_stop hfc (by simp), run_cons_stop hstep (by simp)]

/-- The local conditions on the words `L s` a recogniser accepts from the state `s`: reading a symbol takes
their derivative, and from every state something is still to be accepted. -/
structure Residual (R : Recognizer σ α) (L : σ → Set (List α)) : Prop where
  nonempty : ∀ s, (L s).Nonempty
  nil_notMem : ∀ s, [] ∉ L s
  accept : ∀ s c s' w, R.step s c = (.accept, s') → (c :: w ∈ L s ↔ w = [])
  reject : ∀ s c s' w, R.step s c = (.reject, s') → c :: w ∉ L s
  more : ∀ s c s' w, R.step s c = (.more, s') → (c :: w ∈ L s ↔ w ∈ L s')

namespace Residual

variable {L : σ → Set (List α)} (hL : Residual R L)
include hL

theorem accept_iff (s : σ) (xs : List α) :
    (R.run s xs).verdict = .accept ↔ ∃ w, w <+: xs ∧ w ∈ L s := by
  induction xs generalizing s with
  | nil =>
      have := hL.nil_notMem s
      simpa using this
  | cons c rest ih =>
      rcases hstep : R.step s c with ⟨v, s'⟩
      cases v with
      | accept =>
          rw [run_cons_stop hstep (by simp)]
          simp only [true_iff]
          exact ⟨[c], by simp, (hL.accept s c s' [] hstep).mpr rfl⟩
      | reject =>
          rw [run_cons_stop hstep (by simp)]
          simp only [reduceCtorEq, false_iff]
          rintro ⟨w, hpre, hw⟩
          rcases w with _ | ⟨d, w⟩
          · exact hL.nil_notMem s hw
          · obtain ⟨rfl, -⟩ := List.cons_prefix_cons.mp hpre
            exact hL.reject s d s' w hstep hw
      | more =>
          rw [run_cons_more hstep, ih]
          constructor
          · rintro ⟨w, hpre, hw⟩
            exact ⟨c :: w, by simpa using hpre, (hL.more s c s' w hstep).mpr hw⟩
          · rintro ⟨w, hpre, hw⟩
            rcases w with _ | ⟨d, w⟩
            · exact absurd hw (hL.nil_notMem s)
            · obtain ⟨rfl, htail⟩ := List.cons_prefix_cons.mp hpre
              exact ⟨w, htail, (hL.more s d s' w hstep).mp hw⟩

/-- Whatever prefix of the word is in the residual, it is what the run read. -/
theorem read_eq (s : σ) {w xs : List α} (hpre : w <+: xs) (hw : w ∈ L s) :
    (R.run s xs).read = w.length := by
  induction xs generalizing s w with
  | nil =>
      rw [List.prefix_nil.mp hpre] at hw
      exact absurd hw (hL.nil_notMem s)
  | cons c rest ih =>
      rcases w with _ | ⟨d, w⟩
      · exact absurd hw (hL.nil_notMem s)
      obtain ⟨rfl, htail⟩ := List.cons_prefix_cons.mp hpre
      rcases hstep : R.step s d with ⟨v, s'⟩
      cases v with
      | accept =>
          rw [run_cons_stop hstep (by simp), (hL.accept s d s' w hstep).mp hw]
          rfl
      | reject => exact absurd hw (hL.reject s d s' w hstep)
      | more =>
          rw [run_cons_more hstep, ih s' htail ((hL.more s d s' w hstep).mp hw)]
          rfl

theorem more_iff (s : σ) (xs : List α) :
    (R.run s xs).verdict = .more ↔ ∃ w ∈ L s, xs <+: w ∧ xs ≠ w := by
  induction xs generalizing s with
  | nil =>
      obtain ⟨w, hw⟩ := hL.nonempty s
      simp only [run_nil, true_iff]
      exact ⟨w, hw, List.nil_prefix, fun h => hL.nil_notMem s (h ▸ hw)⟩
  | cons c rest ih =>
      rcases hstep : R.step s c with ⟨v, s'⟩
      cases v with
      | accept =>
          rw [run_cons_stop hstep (by simp)]
          simp only [reduceCtorEq, false_iff]
          rintro ⟨w, hw, hpre, hne⟩
          obtain ⟨t, rfl⟩ := hpre
          have ht := (hL.accept s c s' (rest ++ t) hstep).mp (by simpa using hw)
          obtain ⟨rfl, rfl⟩ := List.append_eq_nil_iff.mp ht
          simp at hne
      | reject =>
          rw [run_cons_stop hstep (by simp)]
          simp only [reduceCtorEq, false_iff]
          rintro ⟨w, hw, hpre, -⟩
          obtain ⟨t, rfl⟩ := hpre
          exact hL.reject s c s' (rest ++ t) hstep (by simpa using hw)
      | more =>
          rw [run_cons_more hstep, ih]
          constructor
          · rintro ⟨w, hw, hpre, hne⟩
            exact ⟨c :: w, (hL.more s c s' w hstep).mpr hw, by simpa using hpre, by simpa using hne⟩
          · rintro ⟨w, hw, hpre, hne⟩
            obtain ⟨t, rfl⟩ := hpre
            refine ⟨rest ++ t, (hL.more s c s' _ hstep).mp (by simpa using hw), by simp, ?_⟩
            simpa using hne

end Residual

end Recognizer

/-! ### Sets of words and their derivatives -/

namespace Lang

variable {α : Type}

/-- The symbol `c`, then a word of `K`. -/
def lit (c : α) (K : Set (List α)) : Set (List α) := {w | ∃ v ∈ K, w = c :: v}

/-- Symbols of the class `p`, any number of them, then a word of `K`. -/
def many (p : α → Prop) (K : Set (List α)) : Set (List α) :=
  {w | ∃ u v, (∀ c ∈ u, p c) ∧ v ∈ K ∧ w = u ++ v}

/-- One or more symbols of the class `p`, then a word of `K`. -/
def many1 (p : α → Prop) (K : Set (List α)) : Set (List α) :=
  {w | ∃ c v, p c ∧ v ∈ many p K ∧ w = c :: v}

variable {p : α → Prop} {K : Set (List α)} {c d : α} {w : List α}

@[simp] theorem nil_mem_lit : [] ∉ lit c K := by simp [lit]

@[simp] theorem cons_mem_lit : d :: w ∈ lit c K ↔ d = c ∧ w ∈ K := by
  constructor
  · rintro ⟨v, hv, h⟩
    obtain ⟨rfl, rfl⟩ := List.cons_eq_cons.mp h
    exact ⟨rfl, hv⟩
  · rintro ⟨rfl, hw⟩
    exact ⟨w, hw, rfl⟩

@[simp] theorem nil_mem_many : [] ∈ many p K ↔ [] ∈ K := by
  constructor
  · rintro ⟨u, v, -, hv, h⟩
    obtain ⟨rfl, rfl⟩ := List.append_eq_nil_iff.mp h.symm
    exact hv
  · exact fun h => ⟨[], [], by simp, h, rfl⟩

@[simp] theorem cons_mem_many : d :: w ∈ many p K ↔ (p d ∧ w ∈ many p K) ∨ d :: w ∈ K := by
  constructor
  · rintro ⟨u, v, hu, hv, h⟩
    rcases u with _ | ⟨e, u⟩
    · exact Or.inr (by simpa [h] using hv)
    · obtain ⟨rfl, rfl⟩ := List.cons_eq_cons.mp h
      exact Or.inl ⟨hu d (by simp), u, v, fun c hc => hu c (by simp [hc]), hv, rfl⟩
  · rintro (⟨hd, u, v, hu, hv, rfl⟩ | h)
    · exact ⟨d :: u, v, by simpa using ⟨hd, hu⟩, hv, rfl⟩
    · exact ⟨[], d :: w, by simp, h, rfl⟩

@[simp] theorem nil_mem_many1 : [] ∉ many1 p K := by simp [many1]

@[simp] theorem cons_mem_many1 : d :: w ∈ many1 p K ↔ p d ∧ w ∈ many p K := by
  constructor
  · rintro ⟨c, v, hc, hv, h⟩
    obtain ⟨rfl, rfl⟩ := List.cons_eq_cons.mp h
    exact ⟨hc, hv⟩
  · rintro ⟨hd, hw⟩
    exact ⟨d, w, hd, hw, rfl⟩

theorem mem_many1_iff :
    w ∈ many1 p K ↔ ∃ u v, u ≠ [] ∧ (∀ c ∈ u, p c) ∧ v ∈ K ∧ w = u ++ v := by
  constructor
  · rintro ⟨c, _, hc, ⟨u, v, hu, hv, rfl⟩, rfl⟩
    exact ⟨c :: u, v, by simp, by simpa using ⟨hc, hu⟩, hv, rfl⟩
  · rintro ⟨u, v, hne, hu, hv, rfl⟩
    obtain ⟨c, u, rfl⟩ := List.exists_cons_of_ne_nil hne
    exact ⟨c, u ++ v, hu c (by simp), ⟨u, v, fun d hd => hu d (by simp [hd]), hv, rfl⟩, rfl⟩

theorem lit_nonempty (h : K.Nonempty) : (lit c K).Nonempty := by
  obtain ⟨w, hw⟩ := h
  exact ⟨c :: w, w, hw, rfl⟩

theorem many_nonempty (h : K.Nonempty) : (many p K).Nonempty := by
  obtain ⟨w, hw⟩ := h
  exact ⟨w, [], w, by simp, hw, rfl⟩

theorem many1_nonempty (h : K.Nonempty) (hp : p c) : (many1 p K).Nonempty := by
  obtain ⟨w, hw⟩ := many_nonempty (p := p) h
  exact ⟨c :: w, c, w, hp, hw, rfl⟩

end Lang

end Lib
