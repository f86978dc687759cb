import WebServer.Config.NginxConfigParser
import WebServer.Handler.ReverseProxyHandler
import WebServer.Lib.Insertion
import WebServer.Lib.Pieces

/-!
# The links of a proxied page

`append_relative_URI` puts the location path, without the slash at its end, in front of the links that start with a
slash: two global replacements, one after the other, put it in front of every slash behind `href="` or `src="`, and nowhere
else (`appendRelativeURI_eq_insertAt`). So the link is just that between its quotes, and what is in front of it is
rewritten as if it stood there alone (`appendRelativeURI_link`). A client that follows the link has the path erased
again (`leadsBack_iff_target`).
-/

namespace WebServer

open Lib NginxConfigParser

/-! ### A replacement as an insertion -/

theorem replaceAll_self {pat : Bytes} (hne : pat ≠ []) (rep text : Bytes) :
    replaceAll (pat ++ text) pat rep = rep ++ replaceAll text pat rep := by
  obtain ⟨c, pat, rfl⟩ := List.exists_cons_of_ne_nil hne
  exact replaceAll_occurrence c pat rep text

section

variable {mark : UInt8} {o before text : Bytes}

/-- No occurrence of `o ++ [mark]` begins before a text and ends in it. -/
def Clear (mark : UInt8) (o before text : Bytes) : Prop :=
  ∀ s, s ≠ [] → s <:+ before → s.length < (o ++ [mark]).length → ¬ o ++ [mark] <+: s ++ text

/-- An occurrence does not begin within another one, for the mark is only at its end. -/
theorem clear_of_occurrence (hmark : mark ∉ o) (before text : Bytes) : Clear mark o (before ++ o ++ [mark]) text := by
  rintro s hs hsuffix hlength hocc
  rcases List.suffix_concat_iff.mp hsuffix with rfl | ⟨t, rfl, -⟩
  · exact hs rfl
  have hinside : t ++ [mark] <+: o ++ [mark] :=
    List.prefix_of_prefix_length_le (List.prefix_append _ _) hocc hlength.le
  have hin : t ++ [mark] <+: o := by
    refine List.prefix_of_prefix_length_le hinside (List.prefix_append o [mark]) ?_
    simp only [List.length_append, List.length_cons, List.length_nil] at hlength ⊢
    omega
  exact hmark (hin.subset (by simp))

/-- Nor does one begin at a byte where there is none. -/
theorem Clear.concat {c : UInt8} (hclear : Clear mark o before (c :: text)) (hpre : ¬ o ++ [mark] <+: c :: text) :
    Clear mark o (before ++ [c]) text := by
  intro s hs hsuffix hlength hocc
  rcases List.suffix_concat_iff.mp hsuffix with rfl | ⟨t, rfl, hbefore⟩
  · exact hs rfl
  rw [List.append_assoc, List.singleton_append] at hocc
  by_cases ht : t = []
  · rw [ht] at hocc
    exact hpre hocc
  · refine hclear t ht hbefore ?_ hocc
    rw [List.length_append] at hlength
    omega

/-- A replacement that repeats its pattern puts a word in front of the last byte of each occurrence. -/
theorem replaceAll_eq_insertAt {p : Bytes} (hmark : mark ∉ o) (hclear : Clear mark o before text) :
    replaceAll text (o ++ [mark]) (o ++ p ++ [mark]) = Word.insertAt mark (Word.endsIn o) p before text := by
  induction hn : text.length using Nat.strong_induction_on generalizing before text with
  | _ n ih =>
      rcases text with _ | ⟨c, rest⟩
      · rfl
      by_cases hpre : o ++ [mark] <+: c :: rest
      · obtain ⟨text', htext⟩ := hpre
        have hnone : ∀ a b, o = a ++ mark :: b → Word.endsIn o (before ++ a) (b ++ mark :: text') = false := by
          rintro a b rfl
          exact absurd (by simp) hmark
        have hshort : text'.length < n := by
          rw [← hn, ← htext]
          simp only [List.length_append, List.length_cons]
          omega
        have hsplit : o ++ [mark] ++ text' = o ++ mark :: text' := by simp
        rw [← htext, replaceAll_self (by simp), hsplit, Word.insertAt_append _ hnone,
          Word.insertAt_selected _ (decide_eq_true (List.suffix_append before o)),
          ih text'.length hshort (clear_of_occurrence hmark before text') rfl]
        simp
      · have hnone : c = mark → Word.endsIn o before rest = false := by
          rintro rfl
          refine decide_eq_false fun hsuffix => ?_
          by_cases ho : o = []
          · exact hpre (by simp [ho])
          · exact hclear o ho hsuffix (by simp) (by simp)
        rw [replaceAll_cons hpre, Word.insertAt_other rest hnone, ih rest.length (by simp [← hn]) (hclear.concat hpre) rfl]

end

namespace ReverseProxyHandler

variable {lib : Libraries} {path before t after opener : Bytes}

/-- What is in front of a link. -/
def linkOpeners : List Bytes := [bytes "href=\"", bytes "src=\""]

/-- What `trimmed_append` makes of a path that is not empty. -/
def trimmedPath (path : Bytes) : Bytes := if path.getLast? = some (ch '/') then path.dropLast else path

/-- A text that means itself as a format of the library. -/
def Plain (text : Bytes) : Prop := ch '$' ∉ text ∧ ch '\\' ∉ text

/-- `regex_replace` puts a plain format in for every occurrence of an expression that matches its own text. -/
def PutsFormats (lib : Libraries) : Prop :=
  ∀ opener ∈ linkOpeners, ∀ text format, Plain format →
    lib.regexReplace text (opener ++ bytes "/") format = some (replaceAll text (opener ++ bytes "/") format)

/-- `regex_replace` puts the location path in at every link. -/
def PutsPath (lib : Libraries) (path : Bytes) : Prop :=
  ∀ opener ∈ linkOpeners, ∀ text,
    lib.regexReplace text (opener ++ bytes "/") (opener ++ trimmedPath path ++ bytes "/") =
      some (replaceAll text (opener ++ bytes "/") (opener ++ trimmedPath path ++ bytes "/"))

theorem subset_trimmedPath (path : Bytes) : trimmedPath path ⊆ path := by
  unfold trimmedPath
  split_ifs
  · exact List.dropLast_subset path
  · exact List.Subset.refl path

theorem PutsFormats.putsPath (hlib : PutsFormats lib) (hplain : Plain path) : PutsPath lib path := by
  intro opener hopener text
  refine hlib opener hopener text _ ?_
  have hnotMem : ∀ c, c ∉ path → c ∉ opener → c ∉ bytes "/" → c ∉ opener ++ trimmedPath path ++ bytes "/" := by
    intro c hpath hname hslash hmem
    rcases List.mem_append.mp hmem with hmem | hmem
    · rcases List.mem_append.mp hmem with hmem | hmem
      · exact hname hmem
      · exact hpath (subset_trimmedPath path hmem)
    · exact hslash hmem
  rcases List.mem_pair.mp hopener with rfl | rfl
  · exact ⟨hnotMem _ hplain.1 (by decide) (by decide), hnotMem _ hplain.2 (by decide) (by decide)⟩
  · exact ⟨hnotMem _ hplain.1 (by decide) (by decide), hnotMem _ hplain.2 (by decide) (by decide)⟩

/-- The links behind an opener rewritten. -/
def putPath (path opener text : Bytes) : Bytes :=
  replaceAll text (opener ++ bytes "/") (opener ++ trimmedPath path ++ bytes "/")

/-- The links behind both openers rewritten, one kind after the other. -/
def linkedText (path text : Bytes) : Bytes := putPath path (bytes "src=\"") (putPath path (bytes "href=\"") text)

theorem appendRelativeURI_eq (hlib : PutsPath lib path) (hne : path ≠ []) (body : Bytes) :
    appendRelativeURI lib body path = .ok (linkedText path body) := by
  have htrimmed : trimmedAppend path = .ok (trimmedPath path) := by
    unfold trimmedAppend trimmedPath
    rw [List.getLast?_eq_some_getLast hne]
    simp
  have hhref : bytes "href=\"/" = bytes "href=\"" ++ bytes "/" := by decide
  have hsrc : bytes "src=\"/" = bytes "src=\"" ++ bytes "/" := by decide
  unfold appendRelativeURI
  rw [htrimmed, hhref, hsrc]
  simp only [bind, Except.bind]
  rw [hlib _ (by simp [linkOpeners]), called]
  dsimp only
  rw [hlib _ (by simp [linkOpeners]), called]
  rfl

/-! ### The two passes -/

/-- The text in front of a slash ends in `href="` or in `src="`. -/
def opensLink (before _ : Bytes) : Bool := decide (∃ opener ∈ linkOpeners, opener <:+ before)

theorem putPath_eq_insertAt (path : Bytes) {opener : Bytes} (hopener : opener ∈ linkOpeners) (text : Bytes) :
    putPath path opener text = Word.insertAt (ch '/') (Word.endsIn opener) (trimmedPath path) [] text := by
  have hmark : ch '/' ∉ opener := by rcases List.mem_pair.mp hopener with rfl | rfl <;> decide
  refine replaceAll_eq_insertAt hmark fun s hs hsuffix _ => ?_
  exact absurd (List.suffix_nil.mp hsuffix) hs

theorem linkedText_eq_insertAt (hpath : doubleQuote ∉ path) (text : Bytes) :
    linkedText path text = Word.insertAt (ch '/') opensLink (trimmedPath path) [] text := by
  have hhref : bytes "href=\"" ∈ linkOpeners := by simp [linkOpeners]
  have hsrc : bytes "src=\"" ∈ linkOpeners := by simp [linkOpeners]
  have hquote : bytes "src=\"" = bytes "src=" ++ [doubleQuote] := by decide
  have hnotMem : doubleQuote ∉ trimmedPath path := fun hmem => hpath (subset_trimmedPath path hmem)
  have hboth : (fun a b => Word.endsIn (bytes "href=\"") a b || Word.endsIn (bytes "src=" ++ [doubleQuote]) a b) =
      opensLink := by
    funext a b
    simp only [Word.endsIn, opensLink, linkOpeners, hquote, ← Bool.decide_or]
    simp
  rw [linkedText, putPath_eq_insertAt path hhref, putPath_eq_insertAt path hsrc, hquote,
    Word.insertAt_insertAt (by decide) (by decide) hnotMem (by decide) (by decide) fun _ _ => Iff.rfl, hboth]

/-- **What the two replacements do.** -/
theorem appendRelativeURI_eq_insertAt (hlib : PutsPath lib path) (hne : path ≠ []) (hpath : doubleQuote ∉ path)
    (body : Bytes) :
    appendRelativeURI lib body path = .ok (Word.insertAt (ch '/') opensLink (trimmedPath path) [] body) := by
  rw [appendRelativeURI_eq hlib hne, linkedText_eq_insertAt hpath]

/-- How many links a text has that start with a slash. -/
def countLinks (text : Bytes) : Nat := Word.countMarks (ch '/') opensLink [] text

/-- Each link grows by the path. -/
theorem length_linkedText (hpath : doubleQuote ∉ path) (text : Bytes) :
    (linkedText path text).length = text.length + countLinks text * (trimmedPath path).length := by
  rw [linkedText_eq_insertAt hpath, Word.length_insertAt, countLinks]

/-! ### One link -/

/-- Within a link no other one opens. -/
theorem opensLink_eq_false {u rest : Bytes} (hne : u ≠ []) (hu : doubleQuote ∉ u) : opensLink (before ++ u) rest = false := by
  refine decide_eq_false ?_
  rintro ⟨opener, hopener, hsuffix⟩
  obtain ⟨name, rfl⟩ : ∃ name, opener = name ++ [doubleQuote] := by
    rcases List.mem_pair.mp hopener with rfl | rfl
    · exact ⟨bytes "href=", by decide⟩
    · exact ⟨bytes "src=", by decide⟩
  have hlast : [doubleQuote] <:+ u := by
    refine List.suffix_of_suffix_length_le ((List.suffix_append name _).trans hsuffix) (List.suffix_append before u) ?_
    exact List.length_pos_of_ne_nil hne
  exact hu (hlast.subset (by simp))

theorem notMem_link {rest : Bytes} (hrest : doubleQuote ∉ rest) : doubleQuote ∉ ch '/' :: rest := by
  intro hmem
  rcases List.mem_cons.mp hmem with heq | hmem
  · exact absurd heq (by decide)
  · exact hrest hmem

theorem notMem_put (hpath : doubleQuote ∉ path) {rest : Bytes} (hrest : doubleQuote ∉ rest) :
    doubleQuote ∉ trimmedPath path ++ ch '/' :: rest := by
  intro hmem
  rcases List.mem_append.mp hmem with hmem | hmem
  · exact hpath (subset_trimmedPath path hmem)
  · exact notMem_link hrest hmem

/-- What becomes of a link, wherever it stands in a page. -/
theorem appendRelativeURI_link (hlib : PutsPath lib path) (hne : path ≠ []) (hpath : doubleQuote ∉ path)
    (hopener : opener ∈ linkOpeners) {rest : Bytes} (hrest : doubleQuote ∉ rest) (before after : Bytes) :
    ∃ before' after', appendRelativeURI lib before path = .ok before' ∧
      appendRelativeURI lib (before ++ (opener ++ (ch '/' :: rest ++ doubleQuote :: after))) path =
        .ok (before' ++ (opener ++ (trimmedPath path ++ ch '/' :: rest ++ doubleQuote :: after'))) := by
  refine ⟨_, Word.insertAt (ch '/') opensLink (trimmedPath path) (before ++ opener ++ [ch '/'] ++ rest ++ [doubleQuote]) after,
    appendRelativeURI_eq_insertAt hlib hne hpath before, ?_⟩
  have hslash : ch '/' ∉ opener := by rcases List.mem_pair.mp hopener with rfl | rfl <;> decide
  have hnone : ∀ a b, opener = a ++ ch '/' :: b →
      opensLink ([] ++ before ++ a) (b ++ (ch '/' :: rest ++ doubleQuote :: after)) = false := by
    rintro a b rfl
    exact absurd (by simp) hslash
  have hopens : opensLink ([] ++ before ++ opener) (rest ++ doubleQuote :: after) = true :=
    decide_eq_true ⟨opener, hopener, List.suffix_append _ opener⟩
  have hwithin : ∀ a b, rest = a ++ ch '/' :: b →
      opensLink ([] ++ before ++ opener ++ [ch '/'] ++ a) (b ++ doubleQuote :: after) = false := by
    rintro a b rfl
    have hquote : doubleQuote ∉ ch '/' :: a := notMem_link fun hmem => hrest (List.mem_append_left _ hmem)
    rw [List.append_assoc _ [ch '/'], List.singleton_append]
    exact opensLink_eq_false (List.cons_ne_nil _ _) hquote
  have hquote : doubleQuote ≠ ch '/' := by decide
  rw [appendRelativeURI_eq_insertAt hlib hne hpath, Word.insertAt_append_of_before fun _ _ _ => rfl,
    Word.insertAt_append _ hnone, List.cons_append, Word.insertAt_selected _ hopens, Word.insertAt_append _ hwithin,
    Word.insertAt_other _ fun he => absurd he hquote]
  simp

/-! ### Following a link -/

theorem eraseFirst_append (word rest : Bytes) : eraseFirst (word ++ rest) word = rest := by
  unfold eraseFirst
  rw [Lib.Word.find?_of_isPrefix (List.prefix_append word rest)]
  simp

/-- What is behind the location path is forwarded. -/
theorem target_append (h : ReverseProxyHandler) (rest : Bytes) :
    h.target (h.locationPath ++ rest) = if rest = [] then bytes "/" else rest := by
  unfold target
  rw [eraseFirst_append]

/-- A link to `t` leads back to `t`: in every page, what stands between its quotes is forwarded as `t`. -/
def LeadsBack (h : ReverseProxyHandler) (lib : Libraries) (t : Bytes) : Prop :=
  ∀ opener ∈ linkOpeners, ∀ before after, ∃ before' uri after',
    appendRelativeURI lib before h.locationPath = .ok before' ∧
      appendRelativeURI lib (before ++ (opener ++ (t ++ doubleQuote :: after))) h.locationPath =
        .ok (before' ++ (opener ++ (uri ++ doubleQuote :: after'))) ∧
      doubleQuote ∉ uri ∧ h.target uri = t

theorem leadsBack_iff_target {h : ReverseProxyHandler} (hlib : PutsPath lib h.locationPath)
    (hne : h.locationPath ≠ []) (hpath : doubleQuote ∉ h.locationPath) {rest : Bytes} (hrest : doubleQuote ∉ rest) :
    h.LeadsBack lib (ch '/' :: rest) ↔ h.target (trimmedPath h.locationPath ++ ch '/' :: rest) = ch '/' :: rest := by
  have hput : doubleQuote ∉ trimmedPath h.locationPath ++ ch '/' :: rest := notMem_put hpath hrest
  constructor
  · intro hback
    have hhref : bytes "href=\"" ∈ linkOpeners := by simp [linkOpeners]
    obtain ⟨before', uri, after', hbefore, hlink, huri, htarget⟩ := hback _ hhref [] []
    obtain ⟨before₂, after₂, hbefore₂, hlink₂⟩ := appendRelativeURI_link hlib hne hpath hhref hrest [] []
    rw [hbefore] at hbefore₂
    rw [hlink] at hlink₂
    obtain rfl := Except.ok.inj hbefore₂
    -- the same text, up to the first quote behind the opener
    have hsame := List.append_cancel_left (List.append_cancel_left (Except.ok.inj hlink₂))
    obtain ⟨hshown, -⟩ := Word.append_cons_inj hsame huri hput
    rwa [hshown] at htarget
  · intro htarget opener hopener before after
    obtain ⟨before', after', hbefore, hlink⟩ := appendRelativeURI_link hlib hne hpath hopener hrest before after
    exact ⟨before', _, after', hbefore, hlink, hput, htarget⟩

end ReverseProxyHandler

end WebServer
