import Mathlib

/-!
# Insertions in front of a mark

`insertAt mark sel p before text` is the text with the word `p` put in front of those of its marks that are selected; a
mark is selected by what is before it, from `before` on, and by what is behind it. Where two passes select by
the word in front of the mark, they come to one pass that selects by either word (`insertAt_insertAt`). The text grows by
the word for each mark that is selected (`length_insertAt`).
-/

namespace Lib

namespace Word

variable {α : Type} [DecidableEq α]

def insertAt (mark : α) (sel : List α → List α → Bool) (p before : List α) : List α → List α
  | [] => []
  | c :: rest =>
    if c = mark ∧ sel before rest then p ++ c :: insertAt mark sel p (before ++ [c]) rest
    else c :: insertAt mark sel p (before ++ [c]) rest

/-- How many marks are selected. -/
def countMarks (mark : α) (sel : List α → List α → Bool) (before : List α) : List α → Nat
  | [] => 0
  | c :: rest => (if c = mark ∧ sel before rest then 1 else 0) + countMarks mark sel (before ++ [c]) rest

variable {mark c q : α} {sel sel' : List α → List α → Bool} {p before before' u o₁ o₂ : List α}

theorem insertAt_selected (rest : List α) (h : sel before rest = true) :
    insertAt mark sel p before (mark :: rest) = p ++ mark :: insertAt mark sel p (before ++ [mark]) rest := by
  rw [insertAt, if_pos ⟨rfl, h⟩]

theorem insertAt_other (rest : List α) (h : c = mark → sel before rest = false) :
    insertAt mark sel p before (c :: rest) = c :: insertAt mark sel p (before ++ [c]) rest := by
  have hno : ¬ (c = mark ∧ sel before rest = true) := by
    rintro ⟨hc, hsel⟩
    rw [h hc] at hsel
    cases hsel
  rw [insertAt, if_neg hno]

/-- Where no mark is selected nothing is put in. -/
theorem insertAt_append (rest : List α)
    (h : ∀ a b, u = a ++ mark :: b → sel (before ++ a) (b ++ rest) = false) :
    insertAt mark sel p before (u ++ rest) = u ++ insertAt mark sel p (before ++ u) rest := by
  induction u generalizing before with
  | nil => rw [List.nil_append, List.nil_append, List.append_nil]
  | cons c u ih =>
      have hfirst : c = mark → sel before (u ++ rest) = false := by
        rintro rfl
        simpa using h [] u rfl
      have hrest : ∀ a b, u = a ++ mark :: b → sel (before ++ [c] ++ a) (b ++ rest) = false := by
        rintro a b rfl
        simpa using h (c :: a) b rfl
      rw [List.cons_append, insertAt_other _ hfirst, ih hrest, List.append_assoc, List.singleton_append,
        List.cons_append]

/-- A selection that does not look at what is behind the mark is made part by part. -/
theorem insertAt_append_of_before (hsel : ∀ a b b', sel a b = sel a b') (rest : List α) :
    insertAt mark sel p before (u ++ rest) = insertAt mark sel p before u ++ insertAt mark sel p (before ++ u) rest := by
  induction u generalizing before with
  | nil => rw [List.nil_append, List.append_nil, insertAt, List.nil_append]
  | cons c u ih =>
      rw [List.cons_append, insertAt, insertAt, hsel before (u ++ rest) u, ih, List.append_assoc, List.singleton_append]
      split_ifs
      · rw [List.append_assoc, List.cons_append]
      · rw [List.cons_append]

/-- The word is put in once for each mark. -/
theorem length_insertAt (text : List α) :
    (insertAt mark sel p before text).length = text.length + countMarks mark sel before text * p.length := by
  induction text generalizing before with
  | nil => simp [insertAt, countMarks]
  | cons c rest ih =>
      rw [insertAt, countMarks]
      split_ifs with hmark
      · simp only [List.length_append, List.length_cons, ih]
        ring
      · simp only [List.length_cons, ih]
        ring

theorem length_insertAt_le (hsel : ∀ a b, sel' a b = true → sel a b = true) (text : List α) :
    (insertAt mark sel' p before text).length ≤ (insertAt mark sel p before text).length := by
  induction text generalizing before with
  | nil => exact Nat.le_refl _
  | cons c rest ih =>
      have hle : (insertAt mark sel' p (before ++ [c]) rest).length ≤ (insertAt mark sel p (before ++ [c]) rest).length := ih
      by_cases hsmall : c = mark ∧ sel' before rest = true
      · rw [insertAt, if_pos hsmall, insertAt, if_pos ⟨hsmall.1, hsel _ _ hsmall.2⟩]
        simp only [List.length_append, List.length_cons]
        omega
      · rw [insertAt, if_neg hsmall, insertAt]
        split_ifs with hlarge
        · simp only [List.length_append, List.length_cons]
          omega
        · simp only [List.length_cons]
          omega

/-- Nothing is put in that is not there: a narrower selection gives the same text only if the marks that it leaves out
are not there, or the word is empty. -/
theorem insertAt_eq_iff (hsel : ∀ a b, sel' a b = true → sel a b = true) (text : List α) :
    insertAt mark sel p before text = insertAt mark sel' p before text ↔
      p = [] ∨ ∀ a b, text = a ++ mark :: b → sel (before ++ a) b = true → sel' (before ++ a) b = true := by
  induction text generalizing before with
  | nil => simp [insertAt]
  | cons c rest ih =>
      have hcons : (∀ a b, c :: rest = a ++ mark :: b → sel (before ++ a) b = true → sel' (before ++ a) b = true) ↔
          (c = mark → sel before rest = true → sel' before rest = true) ∧
            ∀ a b, rest = a ++ mark :: b → sel (before ++ [c] ++ a) b = true → sel' (before ++ [c] ++ a) b = true := by
        constructor
        · intro hall
          refine ⟨?_, ?_⟩
          · rintro rfl hlarge
            simpa using hall [] rest rfl (by simpa using hlarge)
          · rintro a b rfl hlarge
            simpa using hall (c :: a) b rfl (by simpa using hlarge)
        · rintro ⟨hfirst, hrest⟩ a b heq hlarge
          rcases a with _ | ⟨d, a⟩
          · obtain ⟨rfl, rfl⟩ := List.cons.inj heq
            rw [List.append_nil] at hlarge ⊢
            exact hfirst rfl hlarge
          · obtain ⟨rfl, rfl⟩ := List.cons.inj heq
            simpa using hrest a b rfl (by simpa using hlarge)
      rw [hcons]
      by_cases hsmall : c = mark ∧ sel' before rest = true
      · have hlarge := hsel _ _ hsmall.2
        rw [insertAt, if_pos ⟨hsmall.1, hlarge⟩, insertAt, if_pos hsmall, List.append_cancel_left_eq,
          List.cons_inj_right, ih]
        simp [hsmall.2]
      · by_cases hlarge : c = mark ∧ sel before rest = true
        · rw [insertAt, if_pos hlarge, insertAt, if_neg hsmall]
          constructor
          · intro heq
            have hlength := congrArg List.length heq
            have hle : (insertAt mark sel' p (before ++ [c]) rest).length ≤
                (insertAt mark sel p (before ++ [c]) rest).length := length_insertAt_le hsel rest
            simp only [List.length_append, List.length_cons] at hlength
            exact .inl (List.eq_nil_of_length_eq_zero (by omega))
          · rintro (rfl | ⟨hfirst, -⟩)
            · exact congrArg (c :: ·) (ih.mpr (.inl rfl))
            · exact absurd ⟨hlarge.1, hfirst hlarge.1 hlarge.2⟩ hsmall
        · rw [insertAt, if_neg hlarge, insertAt, if_neg hsmall, List.cons_inj_right, ih]
          have hfirst : c = mark → sel before rest = true → sel' before rest = true :=
            fun hc hsome => absurd ⟨hc, hsome⟩ hlarge
          exact ⟨Or.imp_right fun hrest => ⟨hfirst, hrest⟩, Or.imp_right And.right⟩

/-- What is in front ends in the word. -/
def endsIn (o : List α) (before _ : List α) : Bool := decide (o <:+ before)

omit [DecidableEq α] in
theorem suffix_concat_mark {o : List α} (hmark : mark ∉ o) : o <:+ before ++ [mark] ↔ o = [] := by
  rw [List.suffix_concat_iff]
  constructor
  · rintro (hnil | ⟨t, rfl, -⟩)
    · exact hnil
    · exact absurd (by simp) hmark
  · exact fun hnil => .inl hnil

omit [DecidableEq α] in
/-- Within what a first pass has put in, the second has nothing to select. -/
theorem not_suffix_within {a b : List α} (hq : q ∉ p) (hne₁ : ¬ o₁ <:+ o₂ ++ [q]) (hne₂ : ¬ o₂ ++ [q] <:+ o₁)
    (hfirst : o₁ <:+ before) (hsplit : p ++ [mark] = a ++ mark :: b) : ¬ o₂ ++ [q] <:+ before ++ a := by
  intro hsecond
  rcases List.eq_nil_or_concat a with rfl | ⟨a, d, rfl⟩
  · rw [List.append_nil] at hsecond
    rcases List.suffix_or_suffix_of_suffix hfirst hsecond with hsuffix | hsuffix
    · exact hne₁ hsuffix
    · exact hne₂ hsuffix
  · rw [List.concat_eq_append] at hsplit hsecond
    have hlength := congrArg List.length hsplit
    have hpre : a ++ [d] <+: p := by
      refine List.prefix_of_prefix_length_le ⟨mark :: b, hsplit.symm⟩ (List.prefix_append p [mark]) ?_
      simp only [List.length_append, List.length_cons, List.length_nil] at hlength ⊢
      omega
    rw [← List.append_assoc] at hsecond
    obtain ⟨t, ht⟩ := hsecond
    rw [← List.append_assoc] at ht
    obtain rfl : q = d := List.singleton_inj.mp (List.append_inj' ht rfl).2
    exact hq (hpre.subset (by simp))

/-- Two passes come to one: the second does not see what the first has put in. -/
theorem insertAt_insertAt (h₁ : mark ∉ o₁) (h₂ : mark ∉ o₂ ++ [q]) (hq : q ∉ p) (hne₁ : ¬ o₁ <:+ o₂ ++ [q])
    (hne₂ : ¬ o₂ ++ [q] <:+ o₁) (hagree : ∀ o, mark ∉ o → (o <:+ before' ↔ o <:+ before)) (text : List α) :
    insertAt mark (endsIn (o₂ ++ [q])) p before' (insertAt mark (endsIn o₁) p before text) =
      insertAt mark (fun a b => endsIn o₁ a b || endsIn (o₂ ++ [q]) a b) p before text := by
  induction text generalizing before before' with
  | nil => rfl
  | cons c rest ih =>
      by_cases hc : c = mark
      · subst hc
        -- behind a mark both passes see the same
        have hbehind : ∀ a, ∀ o, c ∉ o → (o <:+ a ++ [c] ↔ o <:+ before ++ [c]) := by
          intro a o ho
          rw [suffix_concat_mark ho, suffix_concat_mark ho]
        by_cases hfirst : o₁ <:+ before
        · have hfirst' : o₁ <:+ before' := (hagree o₁ h₁).mpr hfirst
          have hwithin : ∀ a b, p ++ [c] = a ++ c :: b →
              endsIn (o₂ ++ [q]) (before' ++ a) (b ++ insertAt c (endsIn o₁) p (before ++ [c]) rest) = false :=
            fun a b hsplit => decide_eq_false (not_suffix_within hq hne₁ hne₂ hfirst' hsplit)
          rw [insertAt_selected rest (decide_eq_true hfirst), insertAt_selected rest (by simp [endsIn, hfirst]),
            List.append_cons p c, insertAt_append _ hwithin, ← List.append_assoc before', ih (hbehind _),
            List.append_assoc, List.singleton_append]
        · rw [insertAt_other rest fun _ => decide_eq_false hfirst]
          by_cases hsecond : o₂ ++ [q] <:+ before
          · have hsecond' : o₂ ++ [q] <:+ before' := (hagree _ h₂).mpr hsecond
            rw [insertAt_selected _ (decide_eq_true hsecond'), insertAt_selected rest (by simp [endsIn, hsecond]),
              ih (hbehind before')]
          · have hsecond' : ¬ o₂ ++ [q] <:+ before' := fun hsuffix => hsecond ((hagree _ h₂).mp hsuffix)
            rw [insertAt_other _ fun _ => decide_eq_false hsecond',
              insertAt_other rest fun _ => by simp [endsIn, hfirst, hsecond], ih (hbehind before')]
      · have hstep : ∀ o, mark ∉ o → (o <:+ before' ++ [c] ↔ o <:+ before ++ [c]) := by
          intro o ho
          rw [List.suffix_concat_iff, List.suffix_concat_iff]
          refine or_congr Iff.rfl (exists_congr fun t => and_congr_right fun ht => hagree t fun hmem => ho ?_)
          rw [ht]
          exact List.mem_append_left _ hmem
        rw [insertAt_other _ fun he => absurd he hc, insertAt_other _ fun he => absurd he hc,
          insertAt_other _ fun he => absurd he hc, ih hstep]

end Word

end Lib
