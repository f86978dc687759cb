import Mathlib

/-!
# Steps and runs

When a chain of fallible steps succeeds, each of its steps has (`bind_eq_ok`), and what every step of a run keeps holds of
the whole run (`foldlM_invariant`, `Run.invariant`). A partial function on states, applied again and again, comes to an
end if and only if it reaches finitely many states and none of them twice (`exists_endsWithin_iff`). The number of
applications is counted as the depth of a recursion is, so `EndsWithin` is what a bound on the depth of nested calls asks
for.
-/

namespace Lib

/-! ### Computations that may fail -/

section

variable {ε α β : Type}

theorem bind_eq_ok {x : Except ε α} {f : α → Except ε β} {b : β} :
    x >>= f = .ok b ↔ ∃ a, x = .ok a ∧ f a = .ok b := by
  cases x with
  | error e => simp [bind, Except.bind]
  | ok a => simp [bind, Except.bind]

theorem bind_eq_of_ok {x : Except ε α} {a : α} (h : x = .ok a) (f : α → Except ε β) : x >>= f = f a := by
  rw [h]
  rfl

theorem toOption_bind_eq_some {x : Except ε α} {f : α → Option β} {b : β} :
    x.toOption.bind f = some b ↔ ∃ a, x = .ok a ∧ f a = some b := by
  cases x with
  | error e => simp [Except.toOption]
  | ok a => simp [Except.toOption]

theorem map_eq_ok {x : Except ε α} {f : α → β} {b : β} : x.map f = .ok b ↔ ∃ a, x = .ok a ∧ f a = b := by
  cases x with
  | error e => simp [Except.map]
  | ok a => simp [Except.map]

theorem pure_eq_ok {a b : α} : (pure a : Except ε α) = .ok b ↔ a = b := by
  simp [pure, Except.pure]

/-- What every step of a loop keeps holds when the loop succeeds. -/
theorem foldlM_invariant {σ : Type} {f : σ → α → Except ε σ} {l : List α} (P : σ → Prop)
    (hstep : ∀ a ∈ l, ∀ s s', P s → f s a = .ok s' → P s') {s s' : σ} (hs : P s) (h : l.foldlM f s = .ok s') :
    P s' := by
  induction l generalizing s with
  | nil =>
      rw [List.foldlM_nil, pure_eq_ok] at h
      exact h ▸ hs
  | cons a rest ih =>
      rw [List.foldlM_cons, bind_eq_ok] at h
      obtain ⟨mid, hfirst, hrest⟩ := h
      exact ih (fun b hb => hstep b (by simp [hb])) (hstep a (by simp) s mid hs hfirst) hrest

end

/-! ### Runs of events -/

section

variable {σ ε : Type} {step : σ → ε → σ → Prop} {init : σ}

/-- The runs from a state: their events, and the state that they lead to. -/
inductive Run (step : σ → ε → σ → Prop) (init : σ) : List ε → σ → Prop
  | nil : Run step init [] init
  | snoc {events : List ε} {s s' : σ} {e : ε} (hrun : Run step init events s) (hstep : step s e s') :
      Run step init (events ++ [e]) s'

namespace Run

/-- An invariant of the events and the state. -/
theorem invariant {I : List ε → σ → Prop} (h0 : I [] init)
    (hstep : ∀ events s e s', I events s → step s e s' → I (events ++ [e]) s') {events : List ε} {s : σ}
    (h : Run step init events s) : I events s := by
  induction h with
  | nil => exact h0
  | snoc _ hstep' ih => exact hstep _ _ _ _ ih hstep'

theorem single {s : σ} {e : ε} (h : step init e s) : Run step init [e] s := .snoc .nil h

end Run

end

/-! ### Transition functions that come to an end -/

section

open StateTransition

variable {σ : Type} {f : σ → Option σ} {a b : σ}

/-- Fewer than `n` transitions lead from `a` to a state without one. -/
def EndsWithin (f : σ → Option σ) : Nat → σ → Prop
  | 0, _ => False
  | n + 1, a => ∀ b ∈ f a, EndsWithin f n b

theorem reaches_cases (h : Reaches f a b) : b = a ∨ ∃ c ∈ f a, Reaches f c b := by
  rcases Relation.ReflTransGen.cases_head h with rfl | ⟨c, hc, hrest⟩
  · exact Or.inl rfl
  · exact Or.inr ⟨c, hc, hrest⟩

theorem reaches_of_mem (h : b ∈ f a) : Reaches f a b := Relation.ReflTransGen.single h

theorem finite_of_endsWithin {n : Nat} (h : EndsWithin f n a) :
    {b | Reaches f a b}.Finite ∧ ∀ b, Reaches f a b → ¬ Reaches₁ f b b := by
  induction n generalizing a with
  | zero => exact h.elim
  | succ n ih =>
      constructor
      · rcases hfa : f a with _ | c
        · refine (Set.finite_singleton a).subset fun b hb => ?_
          rcases reaches_cases hb with rfl | ⟨c, hc, -⟩
          · rfl
          · exact absurd (Option.mem_def.mp hc) (by simp [hfa])
        · refine ((ih (h c hfa)).1.insert a).subset fun b hb => ?_
          rcases reaches_cases hb with rfl | ⟨d, hd, hrest⟩
          · exact Set.mem_insert _ _
          · obtain rfl := Option.mem_unique hfa hd
            exact Set.mem_insert_of_mem _ hrest
      · intro b hb hcycle
        rcases reaches_cases hb with rfl | ⟨c, hc, hrest⟩
        · -- a cycle through the first state is one through the second
          obtain ⟨c, hc, -⟩ := Relation.TransGen.head'_iff.mp hcycle
          exact (ih (h c hc)).2 b (reaches₁_fwd hcycle hc) hcycle
        · exact (ih (h c hc)).2 b hrest hcycle

theorem endsWithin_of_finite (hfinite : {b | Reaches f a b}.Finite)
    (hacyclic : ∀ b, Reaches f a b → ¬ Reaches₁ f b b) : ∃ n, EndsWithin f n a := by
  -- each transition leaves a state behind for good
  induction hn : {b | Reaches f a b}.ncard using Nat.strong_induction_on generalizing a with
  | _ n ih =>
      rcases hfa : f a with _ | c
      · exact ⟨1, fun b hb => absurd (Option.mem_def.mp hb) (by simp [hfa])⟩
      have hstep : Reaches f a c := reaches_of_mem hfa
      have hsub : {b | Reaches f c b} ⊂ {b | Reaches f a b} := by
        refine ⟨fun b hb => hstep.trans hb, fun hsup => ?_⟩
        have hback : Reaches f c a := hsup Relation.ReflTransGen.refl
        exact hacyclic a Relation.ReflTransGen.refl (Relation.TransGen.head'_iff.mpr ⟨c, hfa, hback⟩)
      have hless := Set.ncard_lt_ncard hsub hfinite
      obtain ⟨m, hm⟩ := ih _ (hn ▸ hless) (hfinite.subset hsub.subset) (fun b hb => hacyclic b (hstep.trans hb)) rfl
      refine ⟨m + 1, fun b hb => ?_⟩
      obtain rfl := Option.mem_unique hfa hb
      exact hm

/-- A transition function comes to an end if and only if it reaches finitely many states and no state again. -/
theorem exists_endsWithin_iff :
    (∃ n, EndsWithin f n a) ↔ {b | Reaches f a b}.Finite ∧ ∀ b, Reaches f a b → ¬ Reaches₁ f b b :=
  ⟨fun ⟨_, h⟩ => finite_of_endsWithin h, fun h => endsWithin_of_finite h.1 h.2⟩

/-! A view of the states that keeps every transition, but perhaps for one that is the last. -/

variable {τ : Type} {g : τ → Option τ} {view : σ → τ}

theorem endsWithin_view (hsome : ∀ a t, g (view a) = some t → ∃ b, f a = some b ∧ view b = t) {n : Nat}
    (h : EndsWithin f n a) : EndsWithin g n (view a) := by
  induction n generalizing a with
  | zero => exact h
  | succ n ih =>
      intro t ht
      obtain ⟨b, hb, rfl⟩ := hsome a t ht
      exact ih (h b hb)

theorem endsWithin_of_view (hsome : ∀ a t, g (view a) = some t → ∃ b, f a = some b ∧ view b = t)
    (hnone : ∀ a b, g (view a) = none → f a = some b → f b = none) {n : Nat} (h : EndsWithin g n (view a)) :
    EndsWithin f (n + 1) a := by
  induction n generalizing a with
  | zero => exact h.elim
  | succ n ih =>
      intro b hb
      cases hview : g (view a) with
      | none =>
          -- the transition that is lost
          intro c hc
          rw [hnone a b hview hb] at hc
          cases hc
      | some t =>
          obtain ⟨b', hb', rfl⟩ := hsome a t hview
          obtain rfl := Option.mem_unique hb hb'
          exact ih (h _ hview)

/-- The states come to an end if and only if their views do. -/
theorem exists_endsWithin_view (hsome : ∀ a t, g (view a) = some t → ∃ b, f a = some b ∧ view b = t)
    (hnone : ∀ a b, g (view a) = none → f a = some b → f b = none) :
    (∃ n, EndsWithin f n a) ↔ ∃ n, EndsWithin g n (view a) :=
  ⟨fun ⟨n, h⟩ => ⟨n, endsWithin_view hsome h⟩, fun ⟨n, h⟩ => ⟨n + 1, endsWithin_of_view hsome hnone h⟩⟩

end

end Lib
