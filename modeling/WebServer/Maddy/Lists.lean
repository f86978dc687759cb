import WebServer.Maddy.Blocks

/-!
# Lists

A list whose items contain lists, as it is written: an item for each line, and what an item contains indented by two
spaces. While such a list is read, the parsers of the open lists form a chain, each the child of the one around it
(`Open`). A line goes down the chain and loses two spaces at each parser; where it has none left it is an item, and the
tags that are put in front of it there end all the lists below (`addLine_close`).
-/

namespace WebServer

namespace Maddy

open Lib

variable {line m t : Bytes} {f : Fields} {kind new : Kind} {L L' : ListTags} {p p' q : BlockParser}

/-! ### What is written, and what it stands for -/

/-- The tags around the items of a list. -/
def Kind.listElement : Kind → Bytes × Bytes
  | .checklist => (bytes "<ul class=\"checklist\">", bytes "</ul>")
  | .orderedList => (bytes "<ol>", bytes "</ol>")
  | .unorderedList => (bytes "<ul>", bytes "</ul>")
  | _ => ([], [])

/-- The tags around an item. -/
def Kind.itemElement : Kind → Bytes × Bytes
  | .checklist => (bytes "<li><label>", bytes "</label></li>")
  | .orderedList | .unorderedList => (bytes "<li>", bytes "</li>")
  | _ => ([], [])

/-- The markers of items, with what they become. -/
def Kind.markers : Kind → List (Bytes × Bytes)
  | .checklist => [(bytes "- [ ] ", bytes "<input type=\"checkbox\"/> "),
      (bytes "- [x] ", bytes "<input type=\"checkbox\" checked=\"checked\"/> ")]
  | .orderedList => [(bytes "1. ", [])]
  | .unorderedList => [(bytes "+ ", []), (bytes "* ", []), (bytes "- ", [])]
  | _ => []

/-- What the marker of an item becomes. -/
def Kind.lead (kind : Kind) (marker : Bytes) : Bytes := (kind.markers.lookup marker).getD []

/-- The lists that the items of a list may contain. -/
def Kind.Nests (kind new : Kind) : Prop :=
  kind = .checklist ∧ new = .checklist ∨
    (kind = .orderedList ∨ kind = .unorderedList) ∧ (new = .orderedList ∨ new = .unorderedList)

/-- The items of a list, each with the list that it contains; an empty one stands for none. -/
inductive Items
  | nil
  | cons (marker text : Bytes) (kind : Kind) (sub rest : Items)

namespace Items

/-- The lines of a list. -/
def lines : Items → List Bytes
  | .nil => []
  | .cons marker text _ sub rest => (marker ++ text) :: (sub.lines.map (bytes "  " ++ ·) ++ rest.lines)

/-- The tags of a list around the HTML of its items, if it has any. -/
def wrapped (kind : Kind) (html : Bytes) : Items → Bytes
  | .nil => []
  | .cons .. => kind.listElement.1 ++ html ++ kind.listElement.2

/-- The HTML of the items of a list. -/
def itemsHtml (kind : Kind) : Items → Bytes
  | .nil => []
  | .cons marker text subKind sub rest =>
    kind.itemElement.1 ++ (kind.lead marker ++ runLineParser text ++ sub.wrapped subKind (sub.itemsHtml subKind)) ++
      kind.itemElement.2 ++ rest.itemsHtml kind

/-- The HTML of a list. -/
def html (kind : Kind) (items : Items) : Bytes := items.wrapped kind (items.itemsHtml kind)

/-- An item whose line is taken for an item of the list, and not for more. -/
structure ItemValid (kind : Kind) (marker text : Bytes) : Prop where
  marker : marker ∈ kind.markers.map Prod.fst
  dots : ∀ c ∈ text, IsDot c
  nonempty : text ≠ []
  ends : ∀ e ∈ listEnds, ¬ e <:+: text
  bullet : kind = .orderedList → ¬ bytes "* " <+: text

/-- A list that can be written. -/
def Valid (kind : Kind) : Items → Prop
  | .nil => True
  | .cons marker text subKind sub rest =>
    ItemValid kind marker text ∧ (sub ≠ .nil → kind.Nests subKind) ∧ sub.Valid subKind ∧ rest.Valid kind

end Items

/-! ### The tags -/

theorem tags_eq (hL : kind.listTags = some L) :
    L.opening = kind.listElement.1 ++ kind.itemElement.1 ∧ L.next = kind.itemElement.2 ++ kind.itemElement.1 ∧
      L.closing = kind.itemElement.2 ++ kind.listElement.2 := by
  cases kind <;> simp only [Kind.listTags, reduceCtorEq, Option.some.injEq] at hL <;> subst hL <;> exact ⟨rfl, rfl, rfl⟩

/-- The tags contain no marks of the line parsers. -/
theorem tags_marks (hL : kind.listTags = some L) : ∀ tag ∈ [L.opening, L.next, L.closing], ∀ c ∈ tag, c ∉ lineMarks := by
  cases kind <;> simp only [Kind.listTags, reduceCtorEq, Option.some.injEq] at hL <;> subst hL <;> decide +kernel

/-- The tags behind an item end the lists that the item contains. -/
theorem ends_of_nests (h : kind.Nests new) (hL : kind.listTags = some L) (hL' : new.listTags = some L') :
    (∃ e ∈ L'.ends, e <+: L.next) ∧ ∃ e ∈ L'.ends, e <+: L.closing := by
  rcases h with ⟨rfl, rfl⟩ | ⟨rfl | rfl, rfl | rfl⟩ <;> cases hL <;> cases hL' <;> decide +kernel

theorem exists_listTags (h : kind.Nests new) : (∃ L, kind.listTags = some L) ∧ ∃ L, new.listTags = some L := by
  rcases h with ⟨rfl, rfl⟩ | ⟨rfl | rfl, rfl | rfl⟩ <;> exact ⟨⟨_, rfl⟩, ⟨_, rfl⟩⟩

theorem startQuote_list (hL : kind.listTags = some L) (f : Fields) : BlockParser.startQuote kind f = f := by
  cases kind <;> simp [Kind.listTags] at hL <;> rfl

theorem ne_table_of_list (hL : kind.listTags = some L) : kind ≠ .table := by
  rintro rfl
  simp [Kind.listTags] at hL

/-! ### The lines of items -/

theorem indentation_of_head {c : UInt8} (h : line.head? = some c) (hc : isSpace c = false) : getIndentationWidth line < 2 := by
  cases line with
  | nil => simp at h
  | cons d rest =>
      obtain rfl : d = c := by simpa using h
      simp [getIndentationWidth, hc]

theorem strip_of_tag (hL : kind.listTags = some L) (h : line.head? = some (ch '<')) : L.strip line = line := by
  have hhead : ∀ c, line.head? = some c → c ∉ markerHeads := by
    intro c hc
    obtain rfl : ch '<' = c := Option.some.inj (h.symm.trans hc)
    decide
  have hstrip := strip_of_head hhead
  cases kind <;> simp only [Kind.listTags, reduceCtorEq, Option.some.injEq] at hL <;> subst hL
  · exact hstrip.1
  · exact hstrip.2.1
  · exact hstrip.2.2

/-- The markers, one by one. -/
theorem marker_cases (hm : m ∈ kind.markers.map Prod.fst) :
    kind = .checklist ∧ (m = bytes "- [ ] " ∧ kind.lead m = bytes "<input type=\"checkbox\"/> " ∨
      m = bytes "- [x] " ∧ kind.lead m = bytes "<input type=\"checkbox\" checked=\"checked\"/> ") ∨
    kind = .orderedList ∧ m = bytes "1. " ∧ kind.lead m = [] ∨
    kind = .unorderedList ∧ ∃ c, isBullet c = true ∧ m = c :: bytes " " ∧ kind.lead m = [] := by
  cases kind <;> simp only [Kind.markers, List.map_cons, List.map_nil, List.mem_cons, List.not_mem_nil, or_false] at hm
  · rcases hm with rfl | rfl
    · exact .inl ⟨rfl, .inl ⟨rfl, rfl⟩⟩
    · exact .inl ⟨rfl, .inr ⟨rfl, rfl⟩⟩
  · subst hm
    exact .inr (.inl ⟨rfl, rfl, rfl⟩)
  · rcases hm with rfl | rfl | rfl
    · exact .inr (.inr ⟨rfl, ch '+', rfl, rfl, rfl⟩)
    · exact .inr (.inr ⟨rfl, ch '*', rfl, rfl, rfl⟩)
    · exact .inr (.inr ⟨rfl, ch '-', rfl, rfl, rfl⟩)

/-- The marker is taken from the line of an item. -/
theorem strip_item (hL : kind.listTags = some L) (h : Items.ItemValid kind m t) : L.strip (m ++ t) = kind.lead m ++ t := by
  rcases marker_cases h.marker with ⟨rfl, ⟨rfl, hlead⟩ | ⟨rfl, hlead⟩⟩ | ⟨rfl, rfl, hlead⟩ | ⟨rfl, c, hc, rfl, hlead⟩ <;>
    rw [hlead] <;> obtain rfl := Option.some.inj hL
  · have hmarker := replaceFront_group ChecklistParser.marker_consumes (bytes "[ ] " ++ t)
    have hbox := replaceFront_word ChecklistParser.emptyBox_consumes [.text (bytes "<input type=\"checkbox\"/>")] (sp :: t)
    have hline : bytes "- [ ] " ++ t = bytes "- " ++ (bytes "[ ] " ++ t) := rfl
    have hrest : bytes "[ ] " ++ t = bytes "[ ]" ++ sp :: t := rfl
    have hfull : ∀ rest, ¬ bytes "[x]" <+: ch '<' :: rest := by
      rintro rest ⟨w, hw⟩
      have hhead : some (ch '[') = some (ch '<') := congrArg List.head? hw
      exact absurd hhead (by decide)
    change ChecklistParser.strip (bytes "- [ ] " ++ t) = _
    rw [ChecklistParser.strip, hline, hmarker, hrest, hbox]
    exact replaceFront_word_of_not _ _ (hfull _)
  · have hmarker := replaceFront_group ChecklistParser.marker_consumes (bytes "[x] " ++ t)
    have hbox := replaceFront_word ChecklistParser.box_consumes
      [.text (bytes "<input type=\"checkbox\" checked=\"checked\"/>")] (sp :: t)
    have hline : bytes "- [x] " ++ t = bytes "- " ++ (bytes "[x] " ++ t) := rfl
    have hrest : bytes "[x] " ++ t = bytes "[x]" ++ sp :: t := rfl
    have hempty : ¬ bytes "[ ]" <+: bytes "[x] " ++ t := by
      rintro ⟨w, hw⟩
      have hbyte : some sp = some (ch 'x') := congrArg (·[1]?) hw
      exact absurd hbyte (by decide)
    change ChecklistParser.strip (bytes "- [x] " ++ t) = _
    rw [ChecklistParser.strip, hline, hmarker, replaceFront_word_of_not _ _ hempty, hrest, hbox]
    rfl
  · exact (congrArg _ (replaceFront_word _ _ t)).trans (replaceFront_group_of_not _ (h.bullet rfl))
  · refine replaceFront_of_matches (b := ⟨_, t, _⟩) _ [] ⟨_, ⟨_, Regex.matches_one.mpr ⟨c, bytes " " ++ t, rfl, hc, rfl⟩,
      Regex.matches_word.mpr ⟨t, rfl, rfl⟩⟩, rfl⟩ fun b' hb' => ?_
    obtain ⟨m, ⟨m', hm', hm⟩, rfl⟩ := hb'
    obtain ⟨d, rest, hrest, -, rfl⟩ := Regex.matches_one.mp hm'
    obtain ⟨rest', hrest', rfl⟩ := Regex.matches_word.mp hm
    obtain ⟨rfl, rfl⟩ : c = d ∧ bytes " " ++ t = rest := List.cons.inj hrest
    obtain rfl := List.append_cancel_left hrest'
    rfl

theorem isStart_item (hL : kind.listTags = some L) (h : Items.ItemValid kind m t) : L.isStart (m ++ t) = true := by
  rcases marker_cases h.marker with ⟨rfl, ⟨rfl, -⟩ | ⟨rfl, -⟩⟩ | ⟨rfl, rfl, -⟩ | ⟨rfl, c, hc, rfl, -⟩ <;>
    obtain rfl := Option.some.inj hL
  · exact ChecklistParser.isStartingLine_iff.mpr ⟨sp, t, .inr (.inr rfl), rfl, h.dots⟩
  · exact ChecklistParser.isStartingLine_iff.mpr ⟨ch 'x', t, .inl rfl, rfl, h.dots⟩
  · exact OrderedListParser.isStartOfNewListItem_iff.mpr ⟨_, t, .inl rfl, rfl, h.dots⟩
  · exact UnorderedListParser.isStartingLine_iff.mpr ⟨c, t, hc, rfl, h.dots⟩

/-- A word starts behind the bytes that it does not start with. -/
theorem infix_of_head_notMem {e w : Bytes} {c : UInt8} (he : e.head? = some c) (hw : c ∉ w) (h : e <:+: w ++ t) : e <:+: t := by
  induction w with
  | nil => exact h
  | cons d w ih =>
      obtain ⟨hd, hw⟩ := not_or.mp (List.mem_cons.not.mp hw)
      rcases List.infix_cons_iff.mp h with ⟨rest, hrest⟩ | hinfix
      · have hhead := congrArg List.head? hrest
        rw [List.head?_append, he] at hhead
        exact absurd (Option.some.inj hhead) hd
      · exact ih hw hinfix

/-- The line of an item does not end the list. -/
theorem item_ends (hL : kind.listTags = some L) (h : Items.ItemValid kind m t) :
    kind.lead m ++ t ≠ [] ∧ ∀ e ∈ L.ends, ¬ e <:+: kind.lead m ++ t := by
  have hcover : ∀ e ∈ L.ends, ∃ e' ∈ listEnds, e' <:+: e := by
    cases kind <;> simp only [Kind.listTags, reduceCtorEq, Option.some.injEq] at hL <;> subst hL <;> decide +kernel
  have hhead : ∀ e ∈ listEnds, ∃ e', e = ch '<' :: ch '/' :: e' := by
    intro e he
    simp only [listEnds, List.mem_cons, List.not_mem_nil, or_false] at he
    rcases he with rfl | rfl | rfl <;> exact ⟨_, rfl⟩
  have htag : ∀ w : Bytes, kind.lead m = ch '<' :: ch 'i' :: w → ch '<' ∉ w →
      ∀ e ∈ listEnds, ¬ e <:+: kind.lead m ++ t := by
    intro w hlead hw e he hinfix
    obtain ⟨e', rfl⟩ := hhead e he
    rw [hlead] at hinfix
    rcases List.infix_cons_iff.mp hinfix with ⟨rest, hrest⟩ | hinfix
    · exact absurd (List.cons.inj (List.cons.inj hrest).2).1 (by decide)
    · refine h.ends _ he (infix_of_head_notMem (w := ch 'i' :: w) rfl ?_ hinfix)
      simpa [show ch '<' ≠ ch 'i' by decide] using hw
  have hnone : ∀ e ∈ listEnds, ¬ e <:+: kind.lead m ++ t := by
    rcases marker_cases h.marker with ⟨-, ⟨-, hlead⟩ | ⟨-, hlead⟩⟩ | ⟨-, -, hlead⟩ | ⟨-, c, -, -, hlead⟩
    · exact htag _ hlead (by decide)
    · exact htag _ hlead (by decide)
    · rw [hlead]
      exact h.ends
    · rw [hlead]
      exact h.ends
  refine ⟨fun hnil => h.nonempty (List.append_eq_nil_iff.mp hnil).2, fun e he hinfix => ?_⟩
  obtain ⟨e', he', hsub⟩ := hcover e he
  exact hnone e' he' (hsub.trans hinfix)

theorem lead_marks (h : m ∈ kind.markers.map Prod.fst) : ∀ c ∈ kind.lead m, c ∉ lineMarks := by
  rcases marker_cases h with ⟨-, ⟨-, hlead⟩ | ⟨-, hlead⟩⟩ | ⟨-, -, hlead⟩ | ⟨-, c, -, -, hlead⟩ <;> rw [hlead] <;> decide +kernel

theorem item_head (h : m ∈ kind.markers.map Prod.fst) (t : Bytes) : getIndentationWidth (m ++ t) < 2 := by
  rcases marker_cases h with ⟨-, ⟨rfl, -⟩ | ⟨rfl, -⟩⟩ | ⟨-, rfl, -⟩ | ⟨-, c, hc, rfl, -⟩
  · exact indentation_of_head (c := ch '-') rfl (by decide)
  · exact indentation_of_head (c := ch '-') rfl (by decide)
  · exact indentation_of_head (c := ch '1') rfl (by decide)
  · have hbullet : c = ch '+' ∨ c = ch '*' ∨ c = ch '-' := by simpa [isBullet, or_assoc] using hc
    refine indentation_of_head (c := c) rfl ?_
    rcases hbullet with rfl | rfl | rfl <;> decide

/-! ### What a list makes of a line -/

/-- A line that starts with tags and ends the list. -/
theorem parseBlock_tag (hL : kind.listTags = some L) (hstarted : f.isStarted = true) (hhead : line.head? = some (ch '<'))
    (hends : ∃ e ∈ L.ends, e <:+: line) :
    kind.parseBlock f line = .ok ({ f with isFinished := true }, L.closing ++ line) := by
  have hstrip := strip_of_tag hL hhead
  have hind := indentation_of_head hhead (by decide)
  rcases list_cases hL f line with ⟨hnot, -⟩ | ⟨-, hle, -⟩ | ⟨-, -, -, heq⟩ | ⟨-, -, -, hnone, -⟩
  · simp [hstarted] at hnot
  · omega
  · rw [heq, hstrip]
  · obtain ⟨e, he, hinfix⟩ := hends
    rw [hstrip] at hnone
    exact absurd hinfix (hnone e he)

theorem parseBlock_empty (hL : kind.listTags = some L) (hstarted : f.isStarted = true) :
    kind.parseBlock f [] = .ok ({ f with isFinished := true }, L.closing) := by
  have hstrip : L.strip [] = [] := by
    cases kind <;> simp only [Kind.listTags, reduceCtorEq, Option.some.injEq] at hL <;> subst hL <;> rfl
  rcases list_cases hL f [] with ⟨hnot, -⟩ | ⟨-, hle, -⟩ | ⟨-, -, -, heq⟩ | ⟨-, -, hne, -⟩
  · simp [hstarted] at hnot
  · simp [getIndentationWidth] at hle
  · rw [heq, hstrip, List.append_nil]
  · exact absurd hstrip hne

/-- An item behind another one. -/
theorem parseBlock_item (hL : kind.listTags = some L) (hstarted : f.isStarted = true) (h : Items.ItemValid kind m t) :
    kind.parseBlock f (m ++ t) = .ok (f, L.next ++ (kind.lead m ++ t)) := by
  have hstrip := strip_item hL h
  have hind := item_head h.marker t
  obtain ⟨hne, hnone⟩ := item_ends hL h
  rcases list_cases hL f (m ++ t) with ⟨hnot, -⟩ | ⟨-, hle, -⟩ | ⟨-, -, hfinish, -⟩ | ⟨-, -, -, -, heq⟩
  · simp [hstarted] at hnot
  · omega
  · rw [hstrip] at hfinish
    rcases hfinish with hnil | ⟨e, he, hinfix⟩
    · exact absurd hnil hne
    · exact absurd hinfix (hnone e he)
  · rw [heq, hstrip, if_pos (isStart_item hL h)]

theorem parseBlock_firstItem (hL : kind.listTags = some L) (h : Items.ItemValid kind m t) :
    kind.parseBlock {} (m ++ t) = .ok ({ isStarted := true }, L.opening ++ (kind.lead m ++ t)) := by
  rw [← strip_item hL h]
  rcases list_cases hL {} (m ++ t) with ⟨-, heq⟩ | ⟨hnot, -⟩ | ⟨hnot, -⟩ | ⟨hnot, -⟩
  · exact heq
  all_goals simp at hnot

/-- What an item contains. -/
theorem parseBlock_indented (hL : kind.listTags = some L) (hstarted : f.isStarted = true) (line : Bytes) :
    kind.parseBlock f (bytes "  " ++ line) = .ok (f, line) := by
  have hsp : isSpace sp = true := by decide
  have hind : 2 ≤ getIndentationWidth (bytes "  " ++ line) := by
    have hline : bytes "  " ++ line = sp :: sp :: line := rfl
    simp [hline, getIndentationWidth, hsp]
  rcases list_cases hL f (bytes "  " ++ line) with ⟨hnot, -⟩ | ⟨-, -, heq⟩ | ⟨-, hlt, -⟩ | ⟨-, hlt, -⟩
  · simp [hstarted] at hnot
  · exact heq
  · omega
  · omega

/-! ### The chain of open lists -/

namespace BlockParser

/-- A list that is open, with the lists that are open in its last item. -/
inductive Open : Kind → BlockParser → Prop
  | last {kind : Kind} {L : ListTags} {f : Fields} (hL : kind.listTags = some L) (hstarted : f.isStarted = true)
      (hfinished : f.isFinished = false) : Open kind (.node kind f .null)
  | within {kind new : Kind} {f : Fields} {child : BlockParser} (hnests : kind.Nests new) (hstarted : f.isStarted = true)
      (hfinished : f.isFinished = false) (hchild : Open new child) : Open kind (.node kind f child)

/-- The HTML of an open list, if it ended here. -/
def closed : BlockParser → Bytes
  | .null => []
  | .node kind f child => f.result ++ child.closed ++ kind.itemElement.2 ++ kind.listElement.2

/-- The HTML of an open list up to the end of its last item. -/
def shown : BlockParser → Bytes
  | .null => []
  | .node kind f child => f.result ++ child.closed ++ kind.itemElement.2

theorem isFinished_list (hL : kind.listTags = some L) (f : Fields) (child : BlockParser) :
    (BlockParser.node kind f child).isFinished = f.isFinished := by
  cases kind <;> simp [Kind.listTags] at hL <;> rfl

theorem Open.isFinished (h : Open kind p) : p.isFinished = false := by
  cases h with
  | last hL _ hfinished => rwa [isFinished_list hL]
  | within hnests _ hfinished _ =>
      obtain ⟨⟨L, hL⟩, -⟩ := exists_listTags hnests
      rwa [isFinished_list hL]

theorem Open.exists_node (h : Open kind p) : ∃ f child, p = .node kind f child := by cases h <;> exact ⟨_, _, rfl⟩

theorem Open.listTags_eq (h : Open kind p) : ∃ L, kind.listTags = some L := by
  cases h with
  | last hL => exact ⟨_, hL⟩
  | within hnests => exact (Maddy.exists_listTags hnests).1

theorem Open.closed_eq (h : Open kind p) : p.closed = p.shown ++ kind.listElement.2 := by
  obtain ⟨f, child, rfl⟩ := h.exists_node
  rfl

/-- A list that keeps a line for itself. -/
theorem addLine_list (hL : kind.listTags = some L) {f' : Fields} {line' : Bytes}
    (hparse : kind.parseBlock f line = .ok (f', line')) (hnew : kind.newChild line' = none) :
    addLine (.node kind f .null) line = .ok (.node kind { f' with result := f'.result ++ runLineParser line' } .null) := by
  rw [addLine_append (ne_table_of_list hL) (by rw [startQuote_list hL]; exact hparse) hnew]
  cases kind <;> simp [Kind.listTags] at hL <;> simp [appendLine, finishQuote, Kind.isLineParserAllowed]

/-- A list that passes a line on. -/
theorem addLine_passed (hL : kind.listTags = some L) {f' : Fields} {line' : Bytes} (hchild : Open new p)
    (hparse : kind.parseBlock f line = .ok (f', line')) :
    addLine (.node kind f p) line = (addLine p line').map (withChild kind f') := by
  obtain ⟨g, child, rfl⟩ := hchild.exists_node
  exact addLine_child (ne_table_of_list hL) (by rw [startQuote_list hL]; exact hparse)

theorem head_append_tag {tag : Bytes} (h : tag.head? = some (ch '<')) (line : Bytes) :
    (tag ++ line).head? = some (ch '<') := by
  rw [List.head?_append, h]
  rfl

/-- A line of tags goes down the chain, and each list on the way ends. -/
theorem addLine_close (h : Open kind p) (hL : kind.listTags = some L) (hhead : line.head? = some (ch '<'))
    (hends : ∃ e ∈ L.ends, e <:+: line) : ∃ f, addLine p line = .ok (.node kind f .null) ∧ f.isFinished = true ∧
      f.result = p.closed ++ runLineParser line := by
  induction h generalizing line L with
  | last hL' hstarted hfinished =>
      obtain rfl := Option.some.inj (hL.symm.trans hL')
      have hclosing := head_append_tag (listTags_head hL).2.2 line
      have hparse := parseBlock_tag hL hstarted hhead hends
      refine ⟨_, addLine_list hL hparse (newChild_list_of_tag hL hclosing), rfl, ?_⟩
      rw [runLineParser_append (tags_marks hL L.closing (by simp)), (tags_eq hL).2.2]
      simp [closed]
  | @within kind new f child hnests hstarted hfinished hchild ih =>
      obtain ⟨-, L', hL'⟩ := exists_listTags hnests
      obtain ⟨-, e, he, hpre⟩ := ends_of_nests hnests hL hL'
      have hclosing := head_append_tag (listTags_head hL).2.2 line
      have hparse := parseBlock_tag hL hstarted hhead hends
      obtain ⟨g, hg, hgfinished, hgresult⟩ :=
        ih hL' hclosing ⟨e, he, (hpre.trans (List.prefix_append _ _)).isInfix⟩
      have hdone : (BlockParser.node new g .null).isFinished = true := by rwa [isFinished_list hL']
      refine ⟨{ f with isFinished := true, result := f.result ++ g.result }, ?_, rfl, ?_⟩
      · rw [addLine_passed hL hchild hparse, hg]
        simp [Except.map, withChild, hdone, result]
      · rw [hgresult, runLineParser_append (tags_marks hL L.closing (by simp)), (tags_eq hL).2.2]
        simp [closed]

/-- An item behind the last one of an open list: the lists in the last item end. -/
theorem addLine_item (h : Open kind p) (hitem : Items.ItemValid kind m t) :
    ∃ f, addLine p (m ++ t) = .ok (.node kind f .null) ∧ Open kind (.node kind f .null) ∧
      f.result = p.shown ++ kind.itemElement.1 ++ (kind.lead m ++ runLineParser t) := by
  have hrun : ∀ {L}, kind.listTags = some L →
      runLineParser (L.next ++ (kind.lead m ++ t)) = kind.itemElement.2 ++ kind.itemElement.1 ++
        (kind.lead m ++ runLineParser t) := by
    intro L hL
    rw [runLineParser_append (tags_marks hL L.next (by simp)), runLineParser_append (lead_marks hitem.marker),
      (tags_eq hL).2.1]
  cases h with
  | @last _ L f hL hstarted hfinished =>
      have hnext := head_append_tag (listTags_head hL).2.1 (kind.lead m ++ t)
      have hparse := parseBlock_item hL hstarted hitem
      refine ⟨_, addLine_list hL hparse (newChild_list_of_tag hL hnext), .last hL hstarted hfinished, ?_⟩
      rw [hrun hL]
      simp [shown, closed]
  | @within _ new f child hnests hstarted hfinished hchild =>
      obtain ⟨⟨L, hL⟩, L', hL'⟩ := exists_listTags hnests
      obtain ⟨⟨e, he, hpre⟩, -⟩ := ends_of_nests hnests hL hL'
      have hnext := head_append_tag (listTags_head hL).2.1 (kind.lead m ++ t)
      have hparse := parseBlock_item hL hstarted hitem
      obtain ⟨g, hg, hgfinished, hgresult⟩ :=
        addLine_close hchild hL' hnext ⟨e, he, (hpre.trans (List.prefix_append _ _)).isInfix⟩
      have hdone : (BlockParser.node new g .null).isFinished = true := by rwa [isFinished_list hL']
      refine ⟨{ f with result := f.result ++ g.result }, ?_, .last hL hstarted hfinished, ?_⟩
      · rw [addLine_passed hL hchild hparse, hg]
        simp [Except.map, withChild, hdone, result]
      · rw [hgresult, hrun hL]
        simp [shown]

/-- The empty line behind a list. -/
theorem addLine_empty (h : Open kind p) :
    ∃ f, addLine p [] = .ok (.node kind f .null) ∧ (BlockParser.node kind f .null).isFinished = true ∧ f.result = p.closed := by
  have hrun : ∀ {L}, kind.listTags = some L → runLineParser L.closing = kind.itemElement.2 ++ kind.listElement.2 := by
    intro L hL
    rw [runLineParser_eq_self (tags_marks hL L.closing (by simp)), (tags_eq hL).2.2]
  cases h with
  | @last _ L f hL hstarted hfinished =>
      have hparse := parseBlock_empty hL hstarted
      refine ⟨_, addLine_list hL hparse (newChild_list_of_tag hL (listTags_head hL).2.2), by rw [isFinished_list hL], ?_⟩
      rw [hrun hL]
      simp [closed]
  | @within _ new f child hnests hstarted hfinished hchild =>
      obtain ⟨⟨L, hL⟩, L', hL'⟩ := exists_listTags hnests
      obtain ⟨-, e, he, hpre⟩ := ends_of_nests hnests hL hL'
      have hparse := parseBlock_empty hL hstarted
      obtain ⟨g, hg, hgfinished, hgresult⟩ := addLine_close hchild hL' (listTags_head hL).2.2 ⟨e, he, hpre.isInfix⟩
      have hdone : (BlockParser.node new g .null).isFinished = true := by rwa [isFinished_list hL']
      refine ⟨{ f with isFinished := true, result := f.result ++ g.result }, ?_, by rw [isFinished_list hL], ?_⟩
      · rw [addLine_passed hL hchild hparse, hg]
        simp [Except.map, withChild, hdone, result]
      · rw [hgresult, hrun hL]
        simp [closed]

/-! ### The lines of a list -/

/-- Lines that leave a list open. -/
inductive Stays (kind : Kind) : BlockParser → List Bytes → BlockParser → Prop
  | nil {p : BlockParser} : Stays kind p [] p
  | cons {p q p' : BlockParser} {line : Bytes} {lines : List Bytes} (hadd : addLine p line = .ok q) (hopen : Open kind q)
      (h : Stays kind q lines p') : Stays kind p (line :: lines) p'

variable {lines lines' : List Bytes}

theorem Stays.append (h : Stays kind p lines q) (h' : Stays kind q lines' p') : Stays kind p (lines ++ lines') p' := by
  induction h with
  | nil => exact h'
  | cons hadd hopen _ ih => exact .cons hadd hopen (ih h')

theorem withChild_open (h : Open new p) (kind : Kind) (f : Fields) : withChild kind f p = .node kind f p := by
  rw [withChild, if_neg (by simp [h.isFinished])]

/-- What is indented goes to the list in the last item. -/
theorem Stays.indented (h : Stays new p lines p') (hopen : Open new p) (hnests : kind.Nests new)
    (hstarted : f.isStarted = true) (hfinished : f.isFinished = false) :
    Stays kind (.node kind f p) (lines.map (bytes "  " ++ ·)) (.node kind f p') := by
  obtain ⟨⟨L, hL⟩, -⟩ := exists_listTags hnests
  induction h with
  | nil => exact .nil
  | @cons p q p' line lines hadd hopenq hstays ih =>
      refine .cons (q := .node kind f q) ?_ (.within hnests hstarted hfinished hopenq) (ih hopenq)
      rw [addLine_passed hL hopen (parseBlock_indented hL hstarted line), hadd, Except.map, withChild_open hopenq]

theorem Stays.foldlM (h : Stays kind p lines p') (hopen : Open kind p) (out : Bytes) :
    lines.foldlM Parser.parseLine (out, p) = .ok (out, p') := by
  induction h with
  | nil => rfl
  | @cons p q p' line lines hadd hopenq hstays ih =>
      obtain ⟨f, child, rfl⟩ := hopen.exists_node
      rw [List.foldlM_cons, Lib.bind_eq_of_ok (Parser.parseLine_of_open hadd hopenq.isFinished out)]
      exact ih hopenq

/-- The first item of a list that an item contains. -/
theorem newChild_item (hnests : kind.Nests new) (h : Items.ItemValid new m t) : kind.newChild (m ++ t) = some new := by
  rcases marker_cases h.marker with ⟨rfl, hm⟩ | ⟨rfl, rfl, -⟩ | ⟨rfl, c, hc, rfl, -⟩
  · have hstart : ChecklistParser.isStartingLine (m ++ t) = true := isStart_item (show Kind.checklist.listTags = some _ from rfl) h
    rcases hnests with ⟨rfl, -⟩ | ⟨-, hnew | hnew⟩
    · simp [Kind.newChild, Kind.isInlineBlockAllowed, Kind.getBlockParserForLineCallback, hstart]
    · simp at hnew
    · simp at hnew
  · have hstart : OrderedListParser.isStartingLine (bytes "1. " ++ t) = true :=
      OrderedListParser.isStartingLine_iff.mpr ⟨t, rfl, h.dots⟩
    rcases hnests with ⟨-, hnew⟩ | ⟨rfl | rfl, -⟩
    · simp at hnew
    all_goals simp [Kind.newChild, Kind.isInlineBlockAllowed, Kind.getBlockParserForLineCallback, hstart]
  · have hstart : UnorderedListParser.isStartingLine (c :: bytes " " ++ t) = true :=
      isStart_item (show Kind.unorderedList.listTags = some _ from rfl) h
    have hnumber : OrderedListParser.isStartingLine (c :: bytes " " ++ t) = false := by
      rw [← Bool.not_eq_true, OrderedListParser.isStartingLine_iff]
      rintro ⟨t', ht', -⟩
      obtain rfl : c = ch '1' := (List.cons.inj ht').1
      exact absurd hc (by decide)
    generalize c :: bytes " " ++ t = line at hstart hnumber ⊢
    rcases hnests with ⟨-, hnew⟩ | ⟨rfl | rfl, -⟩
    · simp at hnew
    all_goals simp [Kind.newChild, Kind.isInlineBlockAllowed, Kind.getBlockParserForLineCallback, hstart, hnumber]

/-- The first item of a list. -/
theorem addLine_firstItem (hL : kind.listTags = some L) (h : Items.ItemValid kind m t) :
    ∃ f, addLine (.node kind {} .null) (m ++ t) = .ok (.node kind f .null) ∧ Open kind (.node kind f .null) ∧
      f.result = kind.listElement.1 ++ kind.itemElement.1 ++ (kind.lead m ++ runLineParser t) := by
  have hopening := head_append_tag (listTags_head hL).1 (kind.lead m ++ t)
  refine ⟨_, addLine_list hL (parseBlock_firstItem hL h) (newChild_list_of_tag hL hopening), .last hL rfl rfl, ?_⟩
  rw [runLineParser_append (tags_marks hL L.opening (by simp)), runLineParser_append (lead_marks h.marker), (tags_eq hL).1]
  rfl

/-- A list from its first item on. -/
def Opens (kind : Kind) (items : Items) : Prop :=
  ∃ p, Open kind p ∧ Stays kind (.node kind {} .null) items.lines p ∧ p.shown = kind.listElement.1 ++ items.itemsHtml kind

/-- The list in the last item of an open list. -/
theorem stays_sub {sub : Items} (hopen : Open kind (.node kind f .null)) (hnests : sub ≠ .nil → kind.Nests new)
    (hvalid : sub.Valid new) (hopens : sub ≠ .nil → Opens new sub) : ∃ child, Open kind (.node kind f child) ∧
      Stays kind (.node kind f .null) (sub.lines.map (bytes "  " ++ ·)) (.node kind f child) ∧
        child.closed = sub.html new := by
  cases sub with
  | nil => exact ⟨.null, hopen, .nil, rfl⟩
  | cons m t subKind sub rest =>
      obtain ⟨p, hopenp, hstays, hshown⟩ := hopens (by simp)
      have hnests := hnests (by simp)
      obtain ⟨⟨L, hL⟩, L', hL'⟩ := exists_listTags hnests
      obtain ⟨hstarted, hfinished⟩ : f.isStarted = true ∧ f.isFinished = false := by
        cases hopen with
        | last _ hstarted hfinished => exact ⟨hstarted, hfinished⟩
        | within _ hstarted hfinished _ => exact ⟨hstarted, hfinished⟩
      refine ⟨p, .within hnests hstarted hfinished hopenp, ?_, ?_⟩
      · cases hstays with
        | @cons _ q _ _ _ hadd hopenq hstays =>
            refine .cons (q := .node kind f q) ?_ (.within hnests hstarted hfinished hopenq)
              (hstays.indented hopenq hnests hstarted hfinished)
            have hparse := parseBlock_indented hL hstarted (m ++ t)
            have hnew := newChild_item hnests hvalid.1
            rw [addLine_new (ne_table_of_list hL) (by rw [startQuote_list hL]; exact hparse) hnew, hadd, Except.map,
              withChild_open hopenq]
      · rw [hopenp.closed_eq, hshown]
        rfl

/-- The items of a list, as what follows in an open list and as a list of their own. -/
theorem stays_items (items : Items) : ∀ {kind : Kind}, items.Valid kind →
    (∀ {p}, Open kind p → ∃ p', Open kind p' ∧ Stays kind p items.lines p' ∧ p'.shown = p.shown ++ items.itemsHtml kind) ∧
      (items ≠ .nil → ∀ {L}, kind.listTags = some L → Opens kind items) := by
  induction items with
  | nil =>
      intro kind _
      exact ⟨fun hopen => ⟨_, hopen, .nil, (List.append_nil _).symm⟩, fun hne => absurd rfl hne⟩
  | cons m t new sub rest ihsub ihrest =>
      rintro kind ⟨hitem, hnests, hsub, hrest⟩
      have hfollows : ∀ {f}, Open kind (.node kind f .null) → ∃ p', Open kind p' ∧
          Stays kind (.node kind f .null) (sub.lines.map (bytes "  " ++ ·) ++ rest.lines) p' ∧
            p'.shown = f.result ++ sub.html new ++ kind.itemElement.2 ++ rest.itemsHtml kind := by
        intro f hopen
        obtain ⟨child, hopenc, hstays, hclosed⟩ := stays_sub hopen hnests hsub fun hne => by
          obtain ⟨-, L', hL'⟩ := exists_listTags (hnests hne)
          exact (ihsub hsub).2 hne hL'
        obtain ⟨p', hopen', hstays', hshown⟩ := (ihrest hrest).1 hopenc
        refine ⟨p', hopen', hstays.append hstays', ?_⟩
        rw [hshown, shown, hclosed]
      constructor
      · intro p hopen
        obtain ⟨f, hadd, hopenf, hresult⟩ := addLine_item hopen hitem
        obtain ⟨p', hopen', hstays, hshown⟩ := hfollows hopenf
        refine ⟨p', hopen', .cons hadd hopenf hstays, ?_⟩
        rw [hshown, hresult]
        simp [Items.itemsHtml, Items.html]
      · intro _ L hL
        obtain ⟨f, hadd, hopenf, hresult⟩ := addLine_firstItem hL hitem
        obtain ⟨p', hopen', hstays, hshown⟩ := hfollows hopenf
        refine ⟨p', hopen', .cons hadd hopenf hstays, ?_⟩
        rw [hshown, hresult]
        simp [Items.itemsHtml, Items.html]

end BlockParser

/-- A list with the lists that it contains, up to the empty line behind it. -/
theorem Parser.foldlM_list {items : Items} (hvalid : items.Valid kind) (hL : kind.listTags = some L)
    (hfirst : items.lines.head?.bind getBlockParserForLine = some kind) (out : Bytes) :
    (items.lines ++ [[]]).foldlM parseLine (out, .null) = .ok (out ++ items.html kind, .null) := by
  cases items with
  | nil => simp [Items.lines] at hfirst
  | cons m t new sub rest =>
      obtain ⟨p, hopen, hstays, hshown⟩ := (BlockParser.stays_items _ hvalid).2 (by simp) hL
      obtain ⟨f, hempty, hfinished, hresult⟩ := BlockParser.addLine_empty hopen
      have hnew : getBlockParserForLine (m ++ t) = some kind := hfirst
      have hrun : (Items.cons m t new sub rest).lines.foldlM parseLine (out, .null) = .ok (out, p) := by
        cases hstays with
        | @cons _ q _ _ _ hadd hopenq hstays =>
            have hstep : parseLine (out, .null) (m ++ t) = .ok (out, q) := by
              rw [parseLine_new hnew]
              exact parseLine_of_open hadd hopenq.isFinished out
            rw [Items.lines, List.foldlM_cons, Lib.bind_eq_of_ok hstep]
            exact hstays.foldlM hopenq out
      have hend : parseLine (out, p) [] = .ok (out ++ p.closed, .null) := by
        obtain ⟨g, child, rfl⟩ := hopen.exists_node
        rw [parseLine_of_finished hempty hfinished, BlockParser.result, hresult]
      rw [List.foldlM_append, Lib.bind_eq_of_ok hrun, List.foldlM_cons, Lib.bind_eq_of_ok hend, hopen.closed_eq, hshown]
      rfl

end Maddy

end WebServer
