import WebServer.Lib.Regex

/-!
# Tags in a text

A text with tags: behind a mark stands a word that opens or closes an element, or something else. A scan of the text
keeps the names of the open elements on a stack, and stops where an element is closed that is not the innermost one.

What a part of a text does to the stack is said for whatever follows it (`Takes`), so that parts can be put together.
-/

namespace Lib

namespace Markup

variable {α ν : Type} {mark c : α} {words : List (List α)} {text v w : List α}

/-! ### Texts without tags -/

/-- Behind each mark stands one of the words. -/
def FollowedBy (mark : α) (words : List (List α)) (text : List α) : Prop :=
  ∀ pre post, text = pre ++ mark :: post → ∃ w ∈ words, w <+: post

theorem followedBy_cons :
    FollowedBy mark words (c :: text) ↔ (c = mark → ∃ w ∈ words, w <+: text) ∧ FollowedBy mark words text := by
  constructor
  · intro h
    refine ⟨?_, fun pre post hpost => h (c :: pre) post (by rw [hpost]; rfl)⟩
    rintro rfl
    exact h [] text rfl
  · rintro ⟨hfirst, htext⟩ pre post hpost
    cases pre with
    | nil =>
        obtain ⟨rfl, rfl⟩ := List.cons.inj hpost
        exact hfirst rfl
    | cons d pre =>
        obtain ⟨rfl, hrest⟩ := List.cons.inj hpost
        exact htext pre post hrest

theorem followedBy_nil : FollowedBy mark words [] := fun pre post h => by simp at h

theorem followedBy_of_notMem (h : mark ∉ text) : FollowedBy mark words text := by
  rintro pre post rfl
  simp at h

theorem followedBy_append (hv : FollowedBy mark words v) (hw : FollowedBy mark words w) : FollowedBy mark words (v ++ w) := by
  induction v with
  | nil => exact hw
  | cons c v ih =>
      obtain ⟨hfirst, hv⟩ := followedBy_cons.mp hv
      refine followedBy_cons.mpr ⟨fun hc => ?_, ih hv⟩
      obtain ⟨u, hu, hpre⟩ := hfirst hc
      exact ⟨u, hu, hpre.trans (List.prefix_append v w)⟩

theorem FollowedBy.suffix (h : FollowedBy mark words (v ++ w)) : FollowedBy mark words w :=
  fun pre post hpost => h (v ++ pre) post (by rw [hpost, List.append_assoc])

theorem prefix_of_notMem {u : List α} (hc : c ∉ u) (h : u <+: v ++ c :: w) : u <+: v := by
  rcases List.prefix_or_prefix_of_prefix h (List.prefix_append v (c :: w)) with huv | ⟨x, rfl⟩
  · exact huv
  · cases x with
    | nil => exact ⟨[], by simp⟩
    | cons d x =>
        rw [List.prefix_append_right_inj, List.cons_prefix_cons] at h
        simp [h.1] at hc

/-- A text can be cut in front of a letter that is in none of the words. -/
theorem FollowedBy.cut (h : FollowedBy mark words (v ++ c :: w)) (hc : ∀ u ∈ words, c ∉ u) : FollowedBy mark words v := by
  rintro pre post rfl
  obtain ⟨u, hu, hpre⟩ := h pre (post ++ c :: w) (by simp)
  exact ⟨u, hu, prefix_of_notMem (hc u hu) hpre⟩

theorem followedBy_word (hw : w ∈ words) (hmark : mark ∉ w) : FollowedBy mark words (mark :: w) :=
  followedBy_cons.mpr ⟨fun _ => ⟨w, hw, List.prefix_rfl⟩, followedBy_of_notMem hmark⟩

/-- Matches are replaced so that behind each mark there is still one of the words: no match starts in a word, and what
is put in for a match has words behind its marks. -/
theorem followedBy_replace {p : Pattern α} {format : List (Piece α)}
    (hwords : ∀ w ∈ words, ∀ c ∈ w, p.regex.starts c = false)
    (hfill : ∀ s text b, Regex.Matches p.regex ⟨s, text, []⟩ b → FollowedBy mark words text →
      FollowedBy mark words (fill b.groups format)) (h : FollowedBy mark words text) :
    FollowedBy mark words (p.replace format text) := by
  have hrun : ∀ (n : Nat) (s : Bool) (text : List α), text.length ≤ n → FollowedBy mark words text →
      FollowedBy mark words (p.replaceFrom format 0 s text) := by
    intro n
    induction n with
    | zero =>
        intro s text hlen _
        rw [List.length_eq_zero_iff.mp (Nat.le_zero.mp hlen), Pattern.replaceFrom_nil]
        exact followedBy_nil
    | succ n ih =>
        intro s text hlen htext
        cases text with
        | nil => exact followedBy_nil
        | cons c rest =>
            cases hfirst : p.regex.first? ⟨s, c :: rest, []⟩ with
            | some b =>
                have hmatch := Regex.matches_of_first? hfirst
                have hlt := hmatch.length_lt p.consumes
                obtain ⟨read, hread⟩ := hmatch.suffix
                rw [Pattern.replaceFrom_of_some hfirst]
                refine followedBy_append (hfill s _ b hmatch htext) (ih false b.rest ?_ ?_)
                · simp only [List.length_cons] at hlt hlen
                  omega
                · have hsuffix : FollowedBy mark words (read ++ b.rest) := by
                    rw [hread]
                    exact htext
                  exact hsuffix.suffix
            | none =>
                obtain ⟨hc, hrest⟩ := followedBy_cons.mp htext
                simp only [List.length_cons] at hlen
                rw [Pattern.replaceFrom_of_none hfirst]
                refine followedBy_cons.mpr ⟨fun hcm => ?_, ih false rest (by omega) hrest⟩
                obtain ⟨w, hw, rest', rfl⟩ := hc hcm
                refine ⟨w, hw, ?_⟩
                rw [Pattern.replaceFrom_append (hwords w hw)]
                exact List.prefix_append _ _
  exact hrun _ true text (Nat.le_refl _) h

/-! ### What a text does to the stack -/

/-- What a tag does. -/
inductive Action (ν : Type)
  | opens (name : ν)
  | closes (name : ν)
  deriving DecidableEq

/-- The open elements behind a tag, the innermost one first. -/
def Action.act [DecidableEq ν] : Action ν → List ν → Option (List ν)
  | .opens n, stack => some (n :: stack)
  | .closes _, [] => none
  | .closes n, m :: stack => if m = n then some stack else none

/-- The open elements behind a text. A tag is the mark and one of the words. -/
def scan [DecidableEq α] [DecidableEq ν] (mark : α) (tags : List (List α × Action ν)) : List ν → List α → Option (List ν)
  | stack, [] => some stack
  | stack, c :: rest =>
    if c = mark then
      match tags.find? fun t => t.1.isPrefixOf rest with
      | some t => (t.2.act stack).bind fun stack => scan mark tags stack rest
      | none => scan mark tags stack rest
    else scan mark tags stack rest

/-- None of two words is the start of the other. -/
def Apart (v w : List α) : Prop := ¬ v <+: w ∧ ¬ w <+: v

variable [DecidableEq α] [DecidableEq ν] {tags : List (List α × Action ν)} {stack stack' stack'' : List ν} {a : Action ν}

/-- A text takes one stack to another, whatever follows it. -/
def Takes (mark : α) (tags : List (List α × Action ν)) (stack : List ν) (text : List α) (stack' : List ν) : Prop :=
  ∀ post, scan mark tags stack (text ++ post) = scan mark tags stack' post

theorem takes_nil : Takes mark tags stack [] stack := fun _ => rfl

theorem Takes.append (hv : Takes mark tags stack v stack') (hw : Takes mark tags stack' w stack'') :
    Takes mark tags stack (v ++ w) stack'' := by
  intro post
  rw [List.append_assoc, hv, hw]

theorem Takes.scan_eq (h : Takes mark tags stack text stack') : scan mark tags stack text = some stack' := by
  have hscan := h []
  rwa [List.append_nil] at hscan

/-- Words with none of the tags behind their marks leave the stack as it is. -/
theorem takes_of_followedBy (h : FollowedBy mark words text) (hwords : ∀ w ∈ words, ∀ t ∈ tags, Apart w t.1) :
    Takes mark tags stack text stack := by
  intro post
  induction text with
  | nil => rfl
  | cons c text ih =>
      obtain ⟨hfirst, htext⟩ := followedBy_cons.mp h
      rw [List.cons_append, scan]
      split_ifs with hc
      · obtain ⟨w, hw, hpre⟩ := hfirst hc
        have hnone : tags.find? (fun t => t.1.isPrefixOf (text ++ post)) = none := by
          rw [List.find?_eq_none]
          intro t ht hprefix
          obtain ⟨hwt, htw⟩ := hwords w hw t ht
          rw [List.isPrefixOf_iff_prefix] at hprefix
          exact (List.prefix_or_prefix_of_prefix hprefix (hpre.trans (List.prefix_append text post))).elim htw hwt
        rw [hnone]
        exact ih htext
      · exact ih htext

theorem takes_of_notMem (h : mark ∉ text) : Takes mark tags stack text stack :=
  takes_of_followedBy (followedBy_of_notMem h : FollowedBy mark [] text) (by simp)

/-- A tag. -/
theorem takes_tag (htags : tags.Pairwise fun t u => Apart t.1 u.1) (ht : (w, a) ∈ tags) (hw : mark ∉ w)
    (hact : a.act stack = some stack') : Takes mark tags stack (mark :: w) stack' := by
  intro post
  have hfind : tags.find? (fun t => t.1.isPrefixOf (w ++ post)) = some (w, a) := by
    have hself : w.isPrefixOf (w ++ post) = true := List.isPrefixOf_iff_prefix.mpr (List.prefix_append w post)
    induction tags with
    | nil => simp at ht
    | cons t tags ih =>
        obtain ⟨hfirst, htags⟩ := List.pairwise_cons.mp htags
        rcases List.mem_cons.mp ht with rfl | ht
        · rw [List.find?_cons_of_pos]
          exact hself
        · obtain ⟨htw, hwt⟩ := hfirst _ ht
          rw [List.find?_cons_of_neg, ih htags ht]
          rw [List.isPrefixOf_iff_prefix]
          intro hprefix
          exact (List.prefix_or_prefix_of_prefix hprefix (List.prefix_append w post)).elim htw hwt
  rw [List.cons_append, scan, if_pos rfl, hfind]
  simp only [hact, Option.bind_some]
  exact takes_of_notMem hw post

/-! ### Balanced texts -/

/-- A text leaves every stack as it is. -/
def Balanced (mark : α) (tags : List (List α × Action ν)) (text : List α) : Prop :=
  ∀ stack, Takes mark tags stack text stack

theorem balanced_nil : Balanced mark tags [] := fun _ => takes_nil

theorem Balanced.append (hv : Balanced mark tags v) (hw : Balanced mark tags w) : Balanced mark tags (v ++ w) :=
  fun stack => (hv stack).append (hw stack)

theorem balanced_flatMap {β : Type} {l : List β} {f : β → List α} (h : ∀ x ∈ l, Balanced mark tags (f x)) :
    Balanced mark tags (l.flatMap f) := by
  induction l with
  | nil => exact balanced_nil
  | cons x l ih =>
      obtain ⟨hx, hl⟩ := List.forall_mem_cons.mp h
      rw [List.flatMap_cons]
      exact hx.append (ih hl)

end Markup

end Lib
