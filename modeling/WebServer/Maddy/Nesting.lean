import WebServer.Lib.Markup
import WebServer.Maddy.CodeSpans
import WebServer.Maddy.Quotes

/-!
# The nesting of a page

In every page that the converter makes of a text without tags but for the ends of its tables, the elements of the blocks
are closed in the reverse of the order in which they were opened (`Parser.parse_wellNested`), whatever lists, quotes and marks the text
contains and wherever it ends. Each open parser of a chain has opened the elements that its end closes (`Sound`); the
marks inside a line only give elements of their own.
-/

namespace WebServer

namespace Maddy

open Lib Lib.Markup

variable {line t w : Bytes} {f : Fields} {kind new : Kind} {L : ListTags} {p q : BlockParser} {n : Bytes}
  {stack : List Bytes}

/-! ### Tags -/

/-- The elements of blocks. -/
def elements : List Bytes :=
  ["p", "h1", "h2", "h3", "h4", "h5", "h6", "blockquote", "ul", "ol", "li", "label", "pre", "table", "thead", "tbody",
    "tfoot", "tr", "th", "td"].map bytes

/-- What follows the `<` of the tags of blocks. -/
def blockTags : List (Bytes × Action Bytes) :=
  (bytes "ul class=\"checklist\">", .opens (bytes "ul")) ::
    elements.flatMap fun n => [(n ++ bytes ">", .opens n), (bytes "/" ++ n ++ bytes ">", .closes n)]

/-- What follows the `<` of the other tags. -/
def inlineWords : List Bytes :=
  ["img src=\"", "a href=\"", "/a>", "strong>", "/strong>", "em>", "/em>", "s>", "/s>", "code>", "/code>", "i>", "/i>",
    "br>", "hr/>", "input type=\"checkbox\""].map bytes

/-- A page in which all elements of blocks are closed, in the reverse of the order in which they were opened. -/
def WellNested (page : Bytes) : Prop := scan (ch '<') blockTags [] page = some []

theorem blockTags_apart : blockTags.Pairwise fun t u => Apart t.1 u.1 := by
  unfold Apart
  decide +kernel

theorem inlineWords_apart : ∀ w ∈ inlineWords, ∀ t ∈ blockTags, Apart w t.1 := by
  unfold Apart
  decide +kernel

theorem blockTags_notMem : ∀ t ∈ blockTags, ch '<' ∉ t.1 := by decide +kernel

/-- What a text does to the open elements. -/
abbrev Goes (stack : List Bytes) (text : Bytes) (stack' : List Bytes) : Prop :=
  Takes (ch '<') blockTags stack text stack'

/-- A text that leaves the open elements as they are. -/
abbrev Even (text : Bytes) : Prop := Balanced (ch '<') blockTags text

theorem goes_tag {a : Action Bytes} {stack' : List Bytes} (h : (w, a) ∈ blockTags) (hact : a.act stack = some stack') :
    Goes stack (ch '<' :: w) stack' := takes_tag blockTags_apart h (blockTags_notMem _ h) hact

theorem goes_open (n : Bytes) (hn : n ∈ elements) (hw : w = bytes "<" ++ n ++ bytes ">") (stack : List Bytes) :
    Goes stack w (n :: stack) := by
  subst hw
  refine goes_tag (a := .opens n) (List.mem_cons_of_mem _ (List.mem_flatMap.mpr ⟨n, hn, ?_⟩)) rfl
  simp

theorem goes_close (n : Bytes) (hn : n ∈ elements) (hw : w = bytes "</" ++ n ++ bytes ">") (stack : List Bytes) :
    Goes (n :: stack) w stack := by
  subst hw
  refine goes_tag (w := bytes "/" ++ n ++ bytes ">") (a := .closes n)
    (List.mem_cons_of_mem _ (List.mem_flatMap.mpr ⟨n, hn, ?_⟩)) (if_pos rfl)
  simp

/-! ### Lines -/

/-- A line whose tags are not those of blocks. -/
abbrev Inline (text : Bytes) : Prop := FollowedBy (ch '<') inlineWords text

theorem Inline.even (h : Inline t) : Even t := fun _ => takes_of_followedBy h inlineWords_apart

theorem inlineWords_marks : ∀ w ∈ inlineWords, ∀ c ∈ w, c ∉ bytes "])" ++ lineMarks := by decide +kernel

/-- The words of the tags contain none of the bytes at which a line is cut. -/
theorem notMem_inlineWords {m : UInt8} (hm : m ∈ bytes "])" ++ lineMarks) : ∀ w ∈ inlineWords, m ∉ w :=
  fun w hw hmem => inlineWords_marks w hw m hmem hm

theorem inline_tag (hw : w ∈ inlineWords) : Inline (ch '<' :: w) := by
  have hnone : ∀ w ∈ inlineWords, ch '<' ∉ w := by decide +kernel
  exact followedBy_word hw (hnone w hw)

theorem starts_of_marks {r : Regex UInt8} {m : UInt8} (hr : ∀ d, r.starts d = decide (d = m)) (hm : m ∈ lineMarks) :
    ∀ w ∈ inlineWords, ∀ c ∈ w, r.starts c = false := by
  intro w hw c hc
  rw [hr, decide_eq_false_iff_not]
  rintro rfl
  exact inlineWords_marks w hw c hc (List.mem_append_right _ hm)

/-- What is between two marks is put between two tags. -/
theorem inline_tagged (v v' : Bytes) {opener closer : String} {g : Bytes} (hopener : bytes opener = ch '<' :: v)
    (hcloser : bytes closer = ch '<' :: v') (hv : v ∈ inlineWords) (hv' : v' ∈ inlineWords) (hg : Inline g) :
    Inline (fill [(1, g)] (tagged opener closer)) := by
  have hfill : fill [(1, g)] (tagged opener closer) = bytes opener ++ (g ++ bytes closer) := by simp [fill, tagged]
  rw [hfill, hopener, hcloser]
  exact followedBy_append (inline_tag hv) (followedBy_append hg (inline_tag hv'))

theorem inline_span (v v' : Bytes) {pat : Pattern UInt8} {m c : UInt8} {mark' : Bytes} {opener closer : String}
    (hpat : pat.regex = span (m :: mark') c) (hm : m ∈ lineMarks) (hopener : bytes opener = ch '<' :: v)
    (hcloser : bytes closer = ch '<' :: v') (hv : v ∈ inlineWords) (hv' : v' ∈ inlineWords) (h : Inline line) :
    Inline (pat.replace (tagged opener closer) line) := by
  refine followedBy_replace (starts_of_marks (fun d => hpat ▸ span_starts d m c mark') hm) (fun s text b hb htext => ?_) h
  rw [hpat] at hb
  obtain ⟨g, hline, -, -, -, hgroups⟩ := span_matches hb
  have hcut : Inline ((m :: mark') ++ (g ++ m :: (mark' ++ b.rest))) := by
    rw [show (⟨s, text, []⟩ : Place UInt8).rest = text from rfl] at hline
    rw [hline] at htext
    exact htext
  rw [hgroups]
  exact inline_tagged v v' hopener hcloser hv hv'
    (hcut.suffix.cut (notMem_inlineWords (List.mem_append_right _ hm)))

theorem inline_code (h : Inline line) : Inline (InlineCodeParser.parse line) := by
  refine followedBy_replace (starts_of_marks code_starts (by decide)) (fun s text b hb htext => ?_) h
  obtain ⟨g, post, hline, -, rfl⟩ := matches_code.mp hb
  have hcut : Inline ([ch '`'] ++ (g ++ ch '`' :: post)) := by
    rw [show (⟨s, text, []⟩ : Place UInt8).rest = text from rfl] at hline
    rw [hline] at htext
    exact htext
  exact inline_tagged (bytes "code>") (bytes "/code>") rfl rfl (by simp [inlineWords]) (by simp [inlineWords])
    (hcut.suffix.cut (notMem_inlineWords (by decide)))

theorem inline_breakLine (h : Inline line) : Inline (BreakLineParser.parse line) := by
  refine followedBy_replace (starts_of_marks breakLine_starts (by decide)) (fun s text b _ _ => ?_) h
  exact inline_tag (w := bytes "br>") (by simp [inlineWords])

/-- What the matches of an image or a link are. -/
theorem bracketed_matches {opener : Bytes} {a b : Place UInt8} (h : Regex.Matches (bracketed opener) a b) :
    ∃ g g', a.rest = opener ++ (g ++ (bytes "](" ++ (g' ++ (bytes ")" ++ b.rest)))) ∧
      b.groups = (2, g') :: (1, g) :: a.groups := by
  obtain ⟨m₁, hopener, m₂, hg, m₃, hmid, m₄, hg', hclose⟩ := h
  obtain ⟨rest₁, hrest₁, rfl⟩ := Regex.matches_word.mp hopener
  obtain ⟨g, rest₂, hrest₂, -, rfl⟩ := matches_capture.mp hg
  obtain ⟨rest₃, hrest₃, rfl⟩ := Regex.matches_word.mp hmid
  obtain ⟨g', rest₄, hrest₄, -, rfl⟩ := matches_capture.mp hg'
  obtain ⟨rest₅, hrest₅, rfl⟩ := Regex.matches_word.mp hclose
  simp only [Place.after_rest] at hrest₂ hrest₃ hrest₄ hrest₅
  subst hrest₅
  subst hrest₄
  subst hrest₃
  subst hrest₂
  exact ⟨g, g', hrest₁, rfl⟩

/-- The two groups of an image or a link are put into a tag. -/
theorem inline_bracketed {pat : Pattern UInt8} {opener : Bytes} {format : Replacement}
    (hpat : pat.regex = bracketed opener) (hstarts : ∀ w ∈ inlineWords, ∀ c ∈ w, pat.regex.starts c = false)
    (hformat : ∀ g g', Inline g → Inline g' → Inline (fill [(2, g'), (1, g)] format)) (h : Inline line) :
    Inline (pat.replace format line) := by
  refine followedBy_replace hstarts (fun s text b hb htext => ?_) h
  rw [hpat] at hb
  obtain ⟨g, g', hline, hgroups⟩ := bracketed_matches hb
  rw [show (⟨s, text, []⟩ : Place UInt8).rest = text from rfl] at hline
  rw [hline] at htext
  have hrest := htext.suffix
  rw [hgroups]
  refine hformat g g' (hrest.cut (notMem_inlineWords (m := ch ']') (by decide))) ?_
  exact (hrest.suffix.suffix).cut (notMem_inlineWords (m := ch ')') (by decide))

theorem inline_image (h : Inline line) : Inline (ImageParser.parse line) := by
  refine inline_bracketed rfl (starts_of_marks image_starts (by decide)) (fun g g' hg hg' => ?_) h
  have hfill : fill [(2, g'), (1, g)] ImageParser.replacement =
      bytes "<img src=\"" ++ (g' ++ (bytes "\" alt=\"" ++ (g ++ bytes "\"/>"))) := by
    simp [fill, ImageParser.replacement, List.lookup]
  rw [hfill]
  exact followedBy_append (inline_tag (w := bytes "img src=\"") (by simp [inlineWords])) (followedBy_append hg'
    (followedBy_append (followedBy_of_notMem (by decide)) (followedBy_append hg
      (followedBy_of_notMem (by decide)))))

theorem inline_link (h : Inline line) : Inline (LinkParser.parse line) := by
  refine inline_bracketed rfl (starts_of_marks link_starts (by decide)) (fun g g' hg hg' => ?_) h
  have hfill : fill [(2, g'), (1, g)] LinkParser.replacement =
      bytes "<a href=\"" ++ (g' ++ (bytes "\">" ++ (g ++ bytes "</a>"))) := by
    simp [fill, LinkParser.replacement, List.lookup]
  rw [hfill]
  exact followedBy_append (inline_tag (w := bytes "a href=\"") (by simp [inlineWords])) (followedBy_append hg'
    (followedBy_append (followedBy_of_notMem (by decide)) (followedBy_append hg
      (inline_tag (w := bytes "/a>") (by simp [inlineWords])))))

/-- The line parsers only put tags of their own into a line. -/
theorem inline_runLineParser (h : Inline line) : Inline (runLineParser line) := by
  have hstrong : Inline (StrongParser.parse (LinkParser.parse (ImageParser.parse line))) := by
    have hwords : bytes "strong>" ∈ inlineWords ∧ bytes "/strong>" ∈ inlineWords := by simp [inlineWords]
    have hstars : Inline (Pattern.replace ⟨span (bytes "**") (ch '*'), span_consumes StrongParser.stars_ne_nil _⟩
        StrongParser.replacement (LinkParser.parse (ImageParser.parse line))) :=
      inline_span _ _ rfl (by decide) rfl rfl hwords.1 hwords.2 (inline_link (inline_image h))
    exact inline_span _ _ rfl (by decide) rfl rfl hwords.1 hwords.2 hstars
  have hemphasized : Inline (EmphasizedParser.parse _) :=
    inline_span (bytes "em>") (bytes "/em>") rfl (by decide) rfl rfl (by simp [inlineWords]) (by simp [inlineWords]) hstrong
  have hstrike : Inline (StrikeThroughParser.parse _) :=
    inline_span (bytes "s>") (bytes "/s>") rfl (by decide) rfl rfl (by simp [inlineWords]) (by simp [inlineWords]) hemphasized
  have hitalic : Inline (ItalicParser.parse _) :=
    inline_span (bytes "i>") (bytes "/i>") rfl (by decide) rfl rfl (by simp [inlineWords]) (by simp [inlineWords])
      (inline_code hstrike)
  exact inline_breakLine hitalic

/-- A line without tags. -/
theorem even_runLineParser (h : ch '<' ∉ line) : Even (runLineParser line) :=
  (inline_runLineParser (followedBy_of_notMem h)).even

/-! ### Lists -/

/-- The elements that an open parser has opened, the innermost one first. -/
def Kind.openElements : Kind → List Bytes
  | .paragraph => [bytes "p"]
  | .codeBlock => [bytes "pre"]
  | .quote => [bytes "blockquote"]
  | .checklist => [bytes "label", bytes "li", bytes "ul"]
  | .orderedList => [bytes "li", bytes "ol"]
  | .unorderedList => [bytes "li", bytes "ul"]
  | _ => []

/-- The tags of an item, and those around the items, open and close elements of their own. -/
theorem goes_elements (hL : kind.listTags = some L) : ∃ item list, kind.openElements = item ++ list ∧
    (∀ stack, Goes stack kind.itemElement.1 (item ++ stack) ∧ Goes (item ++ stack) kind.itemElement.2 stack) ∧
      ∀ stack, Goes stack kind.listElement.1 (list ++ stack) ∧ Goes (list ++ stack) kind.listElement.2 stack := by
  have hli : ∀ stack, Goes stack (bytes "<li>") (bytes "li" :: stack) ∧ Goes (bytes "li" :: stack) (bytes "</li>") stack :=
    fun stack => ⟨goes_open (bytes "li") (by simp [elements]) rfl stack, goes_close (bytes "li") (by simp [elements]) rfl stack⟩
  have hlabel : ∀ stack, Goes stack (bytes "<label>") (bytes "label" :: stack) ∧
      Goes (bytes "label" :: stack) (bytes "</label>") stack := fun stack =>
    ⟨goes_open (bytes "label") (by simp [elements]) rfl stack, goes_close (bytes "label") (by simp [elements]) rfl stack⟩
  have hol : ∀ stack, Goes stack (bytes "<ol>") (bytes "ol" :: stack) ∧ Goes (bytes "ol" :: stack) (bytes "</ol>") stack :=
    fun stack => ⟨goes_open (bytes "ol") (by simp [elements]) rfl stack, goes_close (bytes "ol") (by simp [elements]) rfl stack⟩
  have hul : ∀ stack, Goes stack (bytes "<ul>") (bytes "ul" :: stack) ∧ Goes (bytes "ul" :: stack) (bytes "</ul>") stack :=
    fun stack => ⟨goes_open (bytes "ul") (by simp [elements]) rfl stack, goes_close (bytes "ul") (by simp [elements]) rfl stack⟩
  have hulClass : ∀ stack, Goes stack (ch '<' :: bytes "ul class=\"checklist\">") (bytes "ul" :: stack) :=
    fun stack => goes_tag (a := .opens (bytes "ul")) (by simp [blockTags]) rfl
  cases kind <;> simp only [Kind.listTags, reduceCtorEq] at hL
  · exact ⟨[bytes "label", bytes "li"], [bytes "ul"], rfl,
      fun stack => ⟨(hli _).1.append (hlabel _).1, (hlabel _).2.append (hli _).2⟩, fun stack => ⟨hulClass _, (hul _).2⟩⟩
  · exact ⟨[bytes "li"], [bytes "ol"], rfl, hli, hol⟩
  · exact ⟨[bytes "li"], [bytes "ul"], rfl, hli, hul⟩

theorem goes_opening (hL : kind.listTags = some L) (stack : List Bytes) :
    Goes stack L.opening (kind.openElements ++ stack) := by
  obtain ⟨item, list, hopen, hitem, hlist⟩ := goes_elements hL
  rw [(tags_eq hL).1, hopen, List.append_assoc]
  exact (hlist stack).1.append (hitem _).1

theorem goes_closing (hL : kind.listTags = some L) (stack : List Bytes) :
    Goes (kind.openElements ++ stack) L.closing stack := by
  obtain ⟨item, list, hopen, hitem, hlist⟩ := goes_elements hL
  rw [(tags_eq hL).2.2, hopen, List.append_assoc]
  exact (hitem _).2.append (hlist stack).2

theorem goes_next (hL : kind.listTags = some L) (stack : List Bytes) :
    Goes (kind.openElements ++ stack) L.next (kind.openElements ++ stack) := by
  obtain ⟨item, list, hopen, hitem, hlist⟩ := goes_elements hL
  rw [(tags_eq hL).2.1, hopen, List.append_assoc]
  exact (hitem _).2.append (hitem _).1

/-- Each parser of a chain has opened its elements, and closed what its lines have opened. -/
def BlockParser.Sound : BlockParser → Prop
  | .null => True
  | .node kind f child => (∀ stack, Goes stack f.result (kind.openElements ++ stack)) ∧ child.Sound

/-- What is left of a line in a list: the line may start with the box of a checklist. -/
def Calm (line : Bytes) : Prop :=
  ∃ lead ∈ [[], bytes "<input type=\"checkbox\"/>", bytes "<input type=\"checkbox\" checked=\"checked\"/>"],
    ∃ t, line = lead ++ t ∧ ch '<' ∉ t

theorem calm_of_notMem (h : ch '<' ∉ line) : Calm line := ⟨[], by simp, line, rfl, h⟩

theorem Calm.even (h : Calm line) : Even (runLineParser line) := by
  obtain ⟨lead, hlead, t, rfl, ht⟩ := h
  have hbox : ∀ w : Bytes, ch '<' ∉ w → Inline (ch '<' :: (bytes "input type=\"checkbox\"" ++ w)) := by
    intro w hw
    have htag := inline_tag (w := bytes "input type=\"checkbox\"") (by simp [inlineWords])
    exact followedBy_append htag (followedBy_of_notMem hw)
  have hinline : Inline lead := by
    simp only [List.mem_cons, List.not_mem_nil, or_false] at hlead
    rcases hlead with rfl | rfl | rfl
    · exact followedBy_nil
    · exact hbox (bytes "/>") (by decide)
    · exact hbox (bytes " checked=\"checked\"/>") (by decide)
  exact (inline_runLineParser (followedBy_append hinline (followedBy_of_notMem ht))).even

/-- A line with another first byte has no tags. -/
theorem Calm.notMem (h : Calm line) (hhead : line.head? ≠ some (ch '<')) : ch '<' ∉ line := by
  obtain ⟨lead, hlead, t, rfl, ht⟩ := h
  simp only [List.mem_cons, List.not_mem_nil, or_false] at hlead
  rcases hlead with rfl | rfl | rfl
  · exact ht
  · exact absurd rfl hhead
  · exact absurd rfl hhead

theorem calm_replaceFront (lead : Bytes) {r : Regex UInt8} (hr : r.consumes = true) {replacement : Replacement}
    (hlt : r.starts (ch '<') = false) (hfill : ∀ gs, fill gs replacement = lead)
    (hlead : lead ∈ [[], bytes "<input type=\"checkbox\"/>", bytes "<input type=\"checkbox\" checked=\"checked\"/>"])
    (h : Calm line) : Calm (replaceFront r hr replacement line) := by
  by_cases hhead : line.head? = some (ch '<')
  · rw [replaceFront_of_head hr replacement fun c hc => ?_]
    · exact h
    · obtain rfl : ch '<' = c := Option.some.inj (hhead.symm.trans hc)
      exact hlt
  · have hnone := h.notMem hhead
    rcases replaceFront_cases hr replacement line with hsame | ⟨b, hb, hreplaced⟩
    · rw [hsame]
      exact h
    · rw [hreplaced, hfill]
      exact ⟨lead, hlead, b.rest, rfl, fun hmem => hnone (hb.suffix.mem hmem)⟩

theorem calm_strip (hL : kind.listTags = some L) (h : Calm line) : Calm (L.strip line) := by
  have hplain : ∀ {r : Regex UInt8} (hr : r.consumes = true) {line : Bytes}, r.starts (ch '<') = false → Calm line →
      Calm (replaceFront r hr [] line) :=
    fun hr _ hlt hline => calm_replaceFront [] hr hlt (fun _ => rfl) (by simp) hline
  cases kind <;> simp only [Kind.listTags, reduceCtorEq, Option.some.injEq] at hL <;> subst hL
  · have hempty : Calm (replaceFront (Regex.word (bytes "[ ]")) ChecklistParser.emptyBox_consumes
        [.text (bytes "<input type=\"checkbox\"/>")] (replaceFront _ ChecklistParser.marker_consumes [] line)) :=
      calm_replaceFront (bytes "<input type=\"checkbox\"/>") _ rfl (fun _ => rfl) (by simp) (hplain _ rfl h)
    exact calm_replaceFront (bytes "<input type=\"checkbox\" checked=\"checked\"/>") _ rfl (fun _ => rfl) (by simp) hempty
  · exact hplain _ rfl (hplain _ rfl h)
  · exact hplain _ rfl h

/-- A line behind the tags that end the list. -/
theorem goes_closingLine (hL : kind.listTags = some L) (hline : Calm line) (stack : List Bytes) :
    Goes (kind.openElements ++ stack) (runLineParser (L.closing ++ L.strip line)) stack := by
  rw [runLineParser_append (tags_marks hL L.closing (by simp))]
  exact (goes_closing hL stack).append ((calm_strip hL hline).even _)

/-- A line behind the tags between two items. -/
theorem goes_nextLine (hL : kind.listTags = some L) (hline : Calm line) (stack : List Bytes) :
    Goes (kind.openElements ++ stack) (runLineParser (L.next ++ L.strip line)) (kind.openElements ++ stack) := by
  rw [runLineParser_append (tags_marks hL L.next (by simp))]
  exact (goes_next hL stack).append ((calm_strip hL hline).even _)

/-- What is indented has no tags. -/
theorem Calm.drop (h : Calm line) (hind : 2 ≤ getIndentationWidth line) : ch '<' ∉ line.drop 2 := by
  obtain ⟨c, rest, rfl, hspace⟩ := head_of_indentation hind
  refine fun hmem => h.notMem ?_ (List.mem_of_mem_drop hmem)
  rw [List.head?_cons]
  rintro hc
  obtain rfl := Option.some.inj hc
  exact absurd hspace (by decide)

namespace BlockParser

/-- What the end of an open list makes of it has closed its elements. -/
theorem Open.even_closed (h : Open kind p) (hp : p.Sound) : Even p.closed := by
  have hend : ∀ {kind L}, kind.listTags = some L → ∀ (f : Fields) (child : BlockParser),
      (∀ stack, Goes stack f.result (kind.openElements ++ stack)) → Even child.closed →
        Even (BlockParser.node kind f child).closed := by
    intro kind L hL f child hf hchild stack
    have hclosed : (BlockParser.node kind f child).closed = f.result ++ child.closed ++ L.closing := by
      rw [(tags_eq hL).2.2, closed]
      simp
    rw [hclosed]
    exact ((hf stack).append (hchild _)).append (goes_closing hL stack)
  induction h with
  | last hL _ _ => exact hend hL _ _ hp.1 balanced_nil
  | within hnests _ _ _ ih =>
      obtain ⟨⟨L, hL⟩, -⟩ := exists_listTags hnests
      exact hend hL _ _ hp.1 (ih hp.2)

/-- What is left of a list when a line was added to it. -/
def ListOutcome (kind : Kind) (q : BlockParser) : Prop :=
  (∃ f, q = .node kind f .null ∧ f.isFinished = true ∧ Even f.result) ∨ (Open kind q ∧ q.Sound)

theorem nests_of_newChild (hL : kind.listTags = some L) (h : kind.newChild line = some new) : kind.Nests new := by
  cases kind <;> simp only [Kind.listTags, reduceCtorEq] at hL <;>
    simp only [Kind.newChild, Kind.isInlineBlockAllowed, Kind.getBlockParserForLineCallback, if_true] at h <;>
      split_ifs at h <;> obtain rfl := Option.some.inj h
  · exact .inl ⟨rfl, rfl⟩
  · exact .inr ⟨.inl rfl, .inl rfl⟩
  · exact .inr ⟨.inl rfl, .inr rfl⟩
  · exact .inr ⟨.inr rfl, .inl rfl⟩
  · exact .inr ⟨.inr rfl, .inr rfl⟩

/-- The first line of a list. -/
theorem list_first (hL : kind.listTags = some L) (hline : Calm line) :
    ∃ q, addLine (.node kind {} .null) line = .ok q ∧ Open kind q ∧ q.Sound := by
  rcases list_cases hL {} line with ⟨-, hparse⟩ | ⟨hnot, -⟩ | ⟨hnot, -⟩ | ⟨hnot, -⟩
  · have hhead := head_append_tag (listTags_head hL).1 (L.strip line)
    refine ⟨_, addLine_list hL hparse (newChild_list_of_tag hL hhead), .last hL rfl rfl, fun stack => ?_, trivial⟩
    rw [runLineParser_append (tags_marks hL L.opening (by simp))]
    exact (goes_opening hL stack).append ((calm_strip hL hline).even _)
  all_goals simp at hnot

/-- A list behind a line that its last list got. -/
theorem listOutcome_withChild (hnests : kind.Nests new) (hstarted : f.isStarted = true) (hfinished : f.isFinished = false)
    (hf : ∀ stack, Goes stack f.result (kind.openElements ++ stack)) (h : ListOutcome new q) :
    ListOutcome kind (withChild kind f q) := by
  obtain ⟨⟨L, hL⟩, L', hL'⟩ := exists_listTags hnests
  rcases h with ⟨g, rfl, hg, heven⟩ | ⟨hopen, hsound⟩
  · have hdone : (BlockParser.node new g .null).isFinished = true := by rwa [isFinished_list hL']
    rw [withChild, if_pos hdone]
    exact .inr ⟨.last hL hstarted hfinished, fun stack => (hf stack).append (heven _), trivial⟩
  · rw [withChild_open hopen]
    exact .inr ⟨.within hnests hstarted hfinished hopen, hf, hsound⟩

/-- A list that keeps a line or opens a list for it. -/
theorem list_keeps (hL : kind.listTags = some L) (hstarted : f.isStarted = true) (hfinished : f.isFinished = false)
    (hf : ∀ stack, Goes stack f.result (kind.openElements ++ stack)) {line' : Bytes}
    (hparse : kind.parseBlock f line = .ok (f, line')) (hline : Calm line') :
    ∃ q, addLine (.node kind f .null) line = .ok q ∧ ListOutcome kind q := by
  cases hnew : kind.newChild line' with
  | none =>
      exact ⟨_, addLine_list hL hparse hnew, .inr ⟨.last hL hstarted hfinished, fun stack => (hf stack).append (hline.even _),
        trivial⟩⟩
  | some new =>
      have hnests := nests_of_newChild hL hnew
      obtain ⟨-, L', hL'⟩ := exists_listTags hnests
      obtain ⟨q, hq, hopen, hsound⟩ := list_first hL' hline
      refine ⟨withChild kind f q, ?_, listOutcome_withChild hnests hstarted hfinished hf (.inr ⟨hopen, hsound⟩)⟩
      rw [addLine_new (ne_table_of_list hL) (by rw [startQuote_list hL]; exact hparse) hnew, hq]
      rfl

/-- A line that the list in the last item gets. -/
theorem list_passes (hnests : kind.Nests new) (hL : kind.listTags = some L) (hstarted : f.isStarted = true)
    (hfinished : f.isFinished = false) (hf : ∀ stack, Goes stack f.result (kind.openElements ++ stack)) (hchild : Open new p)
    {line' : Bytes} (hparse : kind.parseBlock f line = .ok (f, line'))
    (h : ∃ q, addLine p line' = .ok q ∧ ListOutcome new q) :
    ∃ q, addLine (.node kind f p) line = .ok q ∧ ListOutcome kind q := by
  obtain ⟨q, hq, houtcome⟩ := h
  refine ⟨withChild kind f q, ?_, listOutcome_withChild hnests hstarted hfinished hf houtcome⟩
  rw [addLine_passed hL hchild hparse, hq]
  rfl

/-- Tags in front of a line end the list in the last item. -/
theorem list_closes (hL : kind.listTags = some L) {L' : ListTags} (hL' : new.listTags = some L') (hchild : Open new p)
    (hp : p.Sound) {f' : Fields} {line' : Bytes} (hparse : kind.parseBlock f line = .ok (f', line'))
    (hresult : f'.result = f.result) (hhead : line'.head? = some (ch '<')) (hends : ∃ e ∈ L'.ends, e <:+: line') :
    ∃ g, addLine (.node kind f p) line = .ok (.node kind { f' with result := f.result ++ g } .null) ∧
      ∀ {stack stack' : List Bytes}, Goes stack (runLineParser line') stack' → Goes stack g stack' := by
  obtain ⟨g, hg, hgfinished, hgresult⟩ := addLine_close hchild hL' hhead hends
  have hdone : (BlockParser.node new g .null).isFinished = true := by rwa [isFinished_list hL']
  refine ⟨g.result, ?_, fun {stack stack'} hgoes => ?_⟩
  · rw [addLine_passed hL hchild hparse, hg]
    simp [Except.map, withChild, hdone, result, hresult]
  · rw [hgresult]
    exact (hchild.even_closed hp stack).append hgoes

/-- A line that is added to an open list. -/
theorem list_line (h : Open kind p) (hp : p.Sound) (hline : Calm line) :
    ∃ q, addLine p line = .ok q ∧ ListOutcome kind q := by
  induction h generalizing line with
  | @last kind L f hL hstarted hfinished =>
      rcases list_cases hL f line with ⟨hnot, -⟩ | ⟨-, hind, hparse⟩ | ⟨-, -, -, hparse⟩ | ⟨-, -, -, -, hparse⟩
      · simp [hstarted] at hnot
      · exact list_keeps hL hstarted hfinished hp.1 hparse (calm_of_notMem (hline.drop hind))
      · have hhead := head_append_tag (listTags_head hL).2.2 (L.strip line)
        exact ⟨_, addLine_list hL hparse (newChild_list_of_tag hL hhead), .inl ⟨_, rfl, rfl,
          fun stack => (hp.1 stack).append (goes_closingLine hL hline stack)⟩⟩
      · split_ifs at hparse with hitem
        · have hhead := head_append_tag (listTags_head hL).2.1 (L.strip line)
          exact ⟨_, addLine_list hL hparse (newChild_list_of_tag hL hhead), .inr ⟨.last hL hstarted hfinished,
            fun stack => (hp.1 stack).append (goes_nextLine hL hline stack), trivial⟩⟩
        · exact list_keeps hL hstarted hfinished hp.1 hparse (calm_strip hL hline)
  | @within kind new f child hnests hstarted hfinished hchild ih =>
      obtain ⟨⟨L, hL⟩, L', hL'⟩ := exists_listTags hnests
      obtain ⟨⟨next, hnext, hnextTag⟩, closing, hclosing, hclosingTag⟩ := ends_of_nests hnests hL hL'
      rcases list_cases hL f line with ⟨hnot, -⟩ | ⟨-, hind, hparse⟩ | ⟨-, -, -, hparse⟩ | ⟨-, -, -, -, hparse⟩
      · simp [hstarted] at hnot
      · exact list_passes hnests hL hstarted hfinished hp.1 hchild hparse (ih hp.2 (calm_of_notMem (hline.drop hind)))
      · obtain ⟨g, hadd, hg⟩ := list_closes hL hL' hchild hp.2 hparse rfl (head_append_tag (listTags_head hL).2.2 _)
          ⟨closing, hclosing, (hclosingTag.trans (List.prefix_append _ _)).isInfix⟩
        exact ⟨_, hadd, .inl ⟨_, rfl, rfl, fun stack => (hp.1 stack).append (hg (goes_closingLine hL hline stack))⟩⟩
      · split_ifs at hparse with hitem
        · obtain ⟨g, hadd, hg⟩ := list_closes hL hL' hchild hp.2 hparse rfl (head_append_tag (listTags_head hL).2.1 _)
            ⟨next, hnext, (hnextTag.trans (List.prefix_append _ _)).isInfix⟩
          exact ⟨_, hadd, .inr ⟨.last hL hstarted hfinished,
            fun stack => (hp.1 stack).append (hg (goes_nextLine hL hline stack)), trivial⟩⟩
        · exact list_passes hnests hL hstarted hfinished hp.1 hchild hparse (ih hp.2 (calm_strip hL hline))

end BlockParser

/-! ### The other blocks -/

/-- A line without tags starts a block only in one of these ways. -/
theorem starts_of_new (h : getBlockParserForLine line = some kind) :
    (kind = .codeBlock ∧ line = bytes "```") ∨ (kind = .headline ∧ HeadlineParser.isStartingLine line = true) ∨
      (kind = .horizontalLine ∧ line = bytes "---") ∨ (kind = .quote ∧ line ≠ []) ∨ kind = .table ∨
        (∃ L, kind.listTags = some L) ∨ kind = .paragraph := by
  simp only [getBlockParserForLine] at h
  split_ifs at h with hcode hheadline hrule hquote htable hcheck hordered hunordered hparagraph <;>
    obtain rfl := Option.some.inj h
  · exact .inl ⟨rfl, CodeBlockParser.isStartingLine_iff.mp hcode⟩
  · exact .inr (.inl ⟨rfl, hheadline⟩)
  · exact .inr (.inr (.inl ⟨rfl, HorizontalLineParser.isStartingLine_iff.mp hrule⟩))
  · obtain ⟨t, rfl, -⟩ := QuoteParser.isStartingLine_iff.mp hquote
    exact .inr (.inr (.inr (.inl ⟨rfl, by simp⟩)))
  · exact .inr (.inr (.inr (.inr (.inl rfl))))
  · exact .inr (.inr (.inr (.inr (.inr (.inl ⟨_, rfl⟩)))))
  · exact .inr (.inr (.inr (.inr (.inr (.inl ⟨_, rfl⟩)))))
  · exact .inr (.inr (.inr (.inr (.inr (.inl ⟨_, rfl⟩)))))
  · exact .inr (.inr (.inr (.inr (.inr (.inr rfl)))))

/-- An open parser that has opened its elements, and closed what its lines have opened. -/
inductive Good : BlockParser → Prop
  | list {kind : Kind} {p : BlockParser} (hopen : p.Open kind) (hsound : p.Sound) : Good p
  | paragraph {f : Fields} (hstarted : f.isStarted = true) (hfinished : f.isFinished = false)
      (hf : ∀ stack, Goes stack f.result (bytes "p" :: stack)) : Good (.node .paragraph f .null)
  | codeBlock {f : Fields} (hstarted : f.isStarted = true) (hfinished : f.isFinished = false)
      (hf : ∀ stack, Goes stack f.result (bytes "pre" :: stack)) : Good (.node .codeBlock f .null)
  | quote {out : Bytes} (hout : Even out) : Good (quoteParser (out, .null))
  | within {out : Bytes} {child : BlockParser} (hout : Even out) (hchild : Good child) : Good (quoteParser (out, child))

/-- The converter, between blocks or in one. -/
def GoodState (s : Bytes × BlockParser) : Prop := Even s.1 ∧ (s.2 = .null ∨ Good s.2)

/-- What is left of a parser when a line was added to it. -/
def Outcome (q : BlockParser) : Prop := (q.isFinished = true ∧ Even q.result) ∨ (q.isFinished = false ∧ Good q)

theorem outcome_of_list (hL : kind.listTags = some L) (h : BlockParser.ListOutcome kind q) : Outcome q := by
  rcases h with ⟨f, rfl, hf, heven⟩ | ⟨hopen, hsound⟩
  · exact .inl ⟨by rwa [BlockParser.isFinished_list hL], heven⟩
  · exact .inr ⟨hopen.isFinished, .list hopen hsound⟩

theorem Good.exists_node (h : Good p) : ∃ kind f child, p = .node kind f child := by
  cases h with
  | list hopen _ =>
      obtain ⟨f, child, rfl⟩ := hopen.exists_node
      exact ⟨_, f, child, rfl⟩
  | paragraph | codeBlock | quote | within => exact ⟨_, _, _, rfl⟩

theorem good_quoteParser {s : Bytes × BlockParser} (h : GoodState s) : Good (quoteParser s) := by
  obtain ⟨out, child⟩ := s
  obtain ⟨hout, rfl | hchild⟩ := h
  · exact .quote hout
  · exact .within hout hchild

/-- The converter behind a line. -/
theorem goodState_of_outcome {out : Bytes} {child : BlockParser} (hout : Even out)
    (hadd : BlockParser.addLine (.node kind f child) line = .ok q) (hq : Outcome q) :
    ∃ s', Parser.parseLine (out, .node kind f child) line = .ok s' ∧ GoodState s' := by
  rcases hq with ⟨hfinished, heven⟩ | ⟨hopen, hgood⟩
  · exact ⟨_, Parser.parseLine_of_finished hadd hfinished out, hout.append heven, .inl rfl⟩
  · exact ⟨_, Parser.parseLine_of_open hadd hopen out, hout, .inr hgood⟩

theorem even_element (n : Bytes) (hn : n ∈ elements) {v v' : Bytes} (hv : v = bytes "<" ++ n ++ bytes ">")
    (hv' : v' = bytes "</" ++ n ++ bytes ">") (hw : Even w) : Even (v ++ w ++ v') :=
  fun stack => ((goes_open n hn hv stack).append (hw _)).append (goes_close n hn hv' stack)

/-- A headline. -/
theorem headline_first (h : HeadlineParser.isStartingLine line = true) (hline : ch '<' ∉ line) :
    ∃ q, BlockParser.addLine (.node .headline {} .null) line = .ok q ∧ Outcome q := by
  obtain ⟨n, t, h1, h6, rfl, ht⟩ := HeadlineParser.isStartingLine_iff.mp h
  obtain ⟨level, hlevel, rfl⟩ : ∃ level ∈ HeadlineParser.levels, level.1 = n := by
    have hall : ∀ n, n < 6 → ∃ level ∈ HeadlineParser.levels, level.1 = n + 1 := by decide
    obtain ⟨level, hlevel, hn⟩ := hall (n - 1) (by omega)
    exact ⟨level, hlevel, by omega⟩
  have hnames : ∀ level ∈ HeadlineParser.levels, bytes ("h" ++ level.2) ∈ elements ∧
      bytes ("<h" ++ level.2 ++ ">") = bytes "<" ++ bytes ("h" ++ level.2) ++ bytes ">" ∧
        bytes ("</h" ++ level.2 ++ ">") = bytes "</" ++ bytes ("h" ++ level.2) ++ bytes ">" := by decide +kernel
  obtain ⟨hn, hv, hv'⟩ := hnames level hlevel
  have heven : Even t := fun _ => takes_of_notMem fun hmem => hline (List.mem_append_right _ hmem)
  exact ⟨_, Parser.addLine_headline hlevel ht, .inl ⟨rfl, even_element _ hn hv hv' heven⟩⟩

theorem goes_start (n : Bytes) (hn : n ∈ elements) {v : Bytes} (hv : v = bytes "<" ++ n ++ bytes ">") (hw : Even w)
    (stack : List Bytes) : Goes stack (v ++ w) (n :: stack) := (goes_open n hn hv stack).append (hw _)

/-- A block with neither a list nor a quote around its lines. -/
theorem leaf_first (hnew : getBlockParserForLine line = some kind) (htable : kind ≠ .table) (hquote : kind ≠ .quote)
    (hline : ch '<' ∉ line) : ∃ q, BlockParser.addLine (.node kind {} .null) line = .ok q ∧ Outcome q := by
  rcases starts_of_new hnew with ⟨rfl, rfl⟩ | ⟨rfl, hstart⟩ | ⟨rfl, rfl⟩ | ⟨hkind, -⟩ | hkind | ⟨L, hL⟩ | rfl
  · have hcode : Inline (bytes "<code>" ++ bytes "\n") :=
      followedBy_append (inline_tag (w := bytes "code>") (by simp [inlineWords])) (followedBy_of_notMem (by decide))
    have hstart : ∀ stack, Goes stack (bytes "<pre><code>\n") (bytes "pre" :: stack) := fun stack =>
      goes_start (v := bytes "<pre>") (bytes "pre") (by simp [elements]) rfl hcode.even stack
    exact ⟨_, Parser.addLine_startOfCode, .inr ⟨rfl, .codeBlock rfl rfl hstart⟩⟩
  · exact headline_first hstart hline
  · exact ⟨_, Parser.addLine_rule, .inl ⟨rfl, (inline_tag (w := bytes "hr/>") (by simp [inlineWords])).even⟩⟩
  · exact absurd hkind hquote
  · exact absurd hkind htable
  · obtain ⟨q, hq, hopen, hsound⟩ := BlockParser.list_first hL (calm_of_notMem hline)
    exact ⟨q, hq, outcome_of_list hL (.inr ⟨hopen, hsound⟩)⟩
  · have hsp : ch '<' ∉ line ++ bytes " " := by simpa [bytes] using ⟨hline, by decide⟩
    exact ⟨_, addLine_firstOfParagraph line, .inr ⟨rfl, .paragraph rfl rfl
      fun stack => goes_start (bytes "p") (by simp [elements]) rfl (even_runLineParser hsp) stack⟩⟩

/-- What a quote leaves of a line without tags has no tags. -/
theorem quote_notMem (hline : ch '<' ∉ line) : ch '<' ∉ QuoteParser.parseBlock line := by
  have hstrip : ∀ {r : Regex UInt8} (hr : r.consumes = true) {line : Bytes}, ch '<' ∉ line →
      ch '<' ∉ replaceFront r hr [] line := by
    intro r hr line hline
    rcases replaceFront_cases hr [] line with hsame | ⟨b, hb, hreplaced⟩
    · rw [hsame]
      exact hline
    · rw [hreplaced]
      exact fun hmem => hline (hb.suffix.mem hmem)
  have hstripped := hstrip QuoteParser.withoutSpace_consumes (hstrip QuoteParser.withSpace_consumes hline)
  have hsp : ch '<' ∉ bytes " " := by decide
  rw [QuoteParser.parseBlock]
  split_ifs
  · exact hstripped
  · exact fun hmem => (List.mem_append.mp hmem).elim hstripped hsp

/-- A line where no block is open, given what the first line of a block does. -/
theorem good_between (line : Bytes) (hfirst : ∀ kind, getBlockParserForLine line = some kind →
      ∃ q, BlockParser.addLine (.node kind {} .null) line = .ok q ∧ Outcome q) {out : Bytes} (hout : Even out) :
    ∃ s', Parser.parseLine (out, .null) line = .ok s' ∧ GoodState s' := by
  cases hnew : getBlockParserForLine line with
  | none =>
      rw [getBlockParserForLine_eq_none.mp hnew, Parser.parseLine_empty]
      exact ⟨_, rfl, hout, .inl rfl⟩
  | some kind =>
      obtain ⟨q, hq, houtcome⟩ := hfirst kind hnew
      rw [Parser.parseLine_new hnew]
      exact goodState_of_outcome hout hq houtcome

/-- The first line of a block. -/
theorem good_first (hnew : getBlockParserForLine line = some kind) (htable : kind ≠ .table) (hline : ch '<' ∉ line) :
    ∃ q, BlockParser.addLine (.node kind {} .null) line = .ok q ∧ Outcome q := by
  induction hcount : line.count (ch '>') using Nat.strong_induction_on generalizing kind line with
  | _ n ih =>
      by_cases hquote : kind = .quote
      · subst hquote
        have hne : line ≠ [] := by
          obtain ⟨t, rfl⟩ := getBlockParserForLine_eq_quote hnew
          simp
        -- what is left of the line is read as the converter would read it, with fewer marks if it is a quote again
        obtain ⟨s', hs', hgood⟩ := good_between (QuoteParser.parseBlock line) (fun new hnew' => by
          have htable' : new ≠ .table := by
            rintro rfl
            exact BlockParser.quote_ne_table line (getBlockParserForLine_eq_table hnew')
          by_cases hquote' : new = .quote
          · subst hquote'
            have hlt := quote_count (getBlockParserForLine_eq_quote hnew')
            exact ih _ (hcount ▸ hlt) hnew' htable' (quote_notMem hline) rfl
          · exact leaf_first hnew' htable' hquote' (quote_notMem hline)) balanced_nil
        refine ⟨quoteParser s', ?_, .inr ⟨rfl, good_quoteParser hgood⟩⟩
        rw [addLine_firstQuote, addLine_quote (.inl hne), hs']
        rfl
      · exact leaf_first hnew htable hquote hline

/-- A line that is added to an open parser. -/
theorem good_line (h : Good p) (hline : ch '<' ∉ line) : ∃ q, p.addLine line = .ok q ∧ Outcome q := by
  have hsp : ∀ {line : Bytes}, ch '<' ∉ line → ch '<' ∉ line ++ bytes " " := fun hline => by
    simpa [bytes] using ⟨hline, by decide⟩
  have hlf : ∀ {line : Bytes}, ch '<' ∉ line → ch '<' ∉ line ++ [lf] := fun hline => by
    simpa using ⟨hline, by decide⟩
  induction h generalizing line with
  | list hopen hsound =>
      obtain ⟨q, hq, houtcome⟩ := BlockParser.list_line hopen hsound (calm_of_notMem hline)
      obtain ⟨L, hL⟩ := hopen.listTags_eq
      exact ⟨q, hq, outcome_of_list hL houtcome⟩
  | @paragraph f hstarted hfinished hf =>
      by_cases hempty : line = []
      · subst hempty
        exact ⟨_, addLine_endOfParagraph hstarted, .inl ⟨rfl,
          fun stack => (hf stack).append (goes_close (bytes "p") (by simp [elements]) rfl stack)⟩⟩
      · exact ⟨_, addLine_restOfParagraph hstarted hempty, .inr ⟨hfinished, .paragraph hstarted hfinished
          fun stack => (hf stack).append (even_runLineParser (hsp hline) _)⟩⟩
  | @codeBlock f hstarted hfinished hf =>
      by_cases hmark : line = bytes "```"
      · subst hmark
        have hcode : Even (bytes "</code>") := (inline_tag (w := bytes "/code>") (by simp [inlineWords])).even
        have hend : ∀ stack, Goes (bytes "pre" :: stack) (bytes "</code>" ++ bytes "</pre>") stack := fun stack =>
          (hcode _).append (goes_close (bytes "pre") (by simp [elements]) rfl stack)
        exact ⟨_, Parser.addLine_endOfCode hstarted, .inl ⟨rfl, fun stack => (hf stack).append (hend stack)⟩⟩
      · exact ⟨_, Parser.addLine_code hmark, .inr ⟨hfinished, .codeBlock hstarted hfinished
          fun stack => (hf stack).append (takes_of_notMem (hlf hline))⟩⟩
  | @quote out hout =>
      by_cases hempty : line = []
      · subst hempty
        refine ⟨_, addLine_quoteEnd out, .inl ⟨rfl, ?_⟩⟩
        exact even_element (bytes "blockquote") (by simp [elements]) rfl rfl hout
      · obtain ⟨s', hs', hgood⟩ := good_between (QuoteParser.parseBlock line) (fun new hnew =>
          good_first hnew (by
            rintro rfl
            exact BlockParser.quote_ne_table line (getBlockParserForLine_eq_table hnew)) (quote_notMem hline)) hout
        refine ⟨quoteParser s', ?_, .inr ⟨rfl, good_quoteParser hgood⟩⟩
        rw [addLine_quote (.inl hempty), hs']
        rfl
  | @within out child hout hchild ih =>
      obtain ⟨kind, f, grandchild, rfl⟩ := hchild.exists_node
      obtain ⟨q, hq, houtcome⟩ := ih (quote_notMem hline)
      obtain ⟨s', hs', hgood⟩ := goodState_of_outcome hout hq houtcome
      refine ⟨quoteParser s', ?_, .inr ⟨rfl, good_quoteParser hgood⟩⟩
      rw [addLine_quote (.inr (by simp)), hs']
      rfl

/-! ### Tables -/

/-- The cells of some rows leave no element open. -/
def EvenRows (rows : List (List Bytes)) : Prop := ∀ row ∈ rows, ∀ cell ∈ row, Even cell

theorem even_blockHtml {rows : List (List Bytes)} (h : EvenRows rows) (isInHeader : Bool) :
    Even (TableParser.blockHtml isInHeader rows) := by
  refine balanced_flatMap fun row hrow => ?_
  refine even_element (bytes "tr") (by simp [elements]) rfl rfl (balanced_flatMap fun cell hcell => ?_)
  cases isInHeader with
  | true => exact even_element (bytes "th") (by simp [elements]) rfl rfl (h row hrow cell hcell)
  | false => exact even_element (bytes "td") (by simp [elements]) rfl rfl (h row hrow cell hcell)

theorem even_blocksHtml {blocks : List (List (List Bytes))} (h : ∀ rows ∈ blocks, EvenRows rows)
    (hasHeader hasFooter isFirstBlock : Bool) (size n : Nat) :
    Even (TableParser.blocksHtml hasHeader hasFooter size isFirstBlock n blocks) := by
  induction blocks generalizing isFirstBlock n with
  | nil => exact balanced_nil
  | cons rows blocks ih =>
      obtain ⟨hrows, hblocks⟩ := List.forall_mem_cons.mp h
      rw [TableParser.blocksHtml]
      refine Balanced.append ?_ (ih hblocks _ _)
      split_ifs
      · exact even_element (bytes "thead") (by simp [elements]) rfl rfl (even_blockHtml hrows true)
      · exact even_element (bytes "tfoot") (by simp [elements]) rfl rfl (even_blockHtml hrows false)
      · exact even_element (bytes "tbody") (by simp [elements]) rfl rfl (even_blockHtml hrows false)

/-- The cells of an open table leave no element open. -/
def EvenTable (p : TableParser.Progress) : Prop := (∀ rows ∈ p.1, EvenRows rows) ∧ EvenRows p.2.1

theorem EvenTable.advance {p p' : TableParser.Progress} (h : EvenTable p) (hline : ch '<' ∉ line)
    (hp : TableParser.advance p line = some p') : EvenTable p' := by
  obtain ⟨hfront, hrows⟩ := h
  have hnil : EvenRows [] := fun row hrow => absurd hrow (by simp)
  have hcells : ∀ cell ∈ TableParser.cells line, Even cell := by
    intro cell hcell
    obtain ⟨segment, hsegment, rfl⟩ := List.mem_map.mp hcell
    exact even_runLineParser fun hmem => hline (mem_of_mem_getlines hsegment hmem)
  rw [TableParser.advance] at hp
  split_ifs at hp with hblock hempty hskipped <;> obtain rfl := Option.some.inj hp
  · exact ⟨hfront, hnil⟩
  · refine ⟨fun rows hmem => ?_, hnil⟩
    rcases List.mem_append.mp hmem with hmem | hmem
    · exact hfront rows hmem
    · rwa [List.mem_singleton.mp hmem]
  · refine ⟨hfront, fun row hmem => ?_⟩
    rcases List.mem_append.mp hmem with hmem | hmem
    · exact hrows row hmem
    · rwa [List.mem_singleton.mp hmem]

/-- What the end of a table makes of it. -/
theorem EvenTable.even_parseBlock {p : TableParser.Progress} (h : EvenTable p) (hat : TableParser.IsAt f p) :
    Even (TableParser.parseBlock f.table) := by
  have htable : ∀ rows ∈ f.table, EvenRows rows := by
    intro rows hmem
    rw [hat.table] at hmem
    rcases List.mem_append.mp hmem with hmem | hmem
    · exact h.1 rows hmem
    · split_ifs at hmem
      · simp at hmem
      · rw [List.mem_singleton.mp hmem]
        exact h.2
  exact even_element (bytes "table") (by simp [elements]) rfl rfl (even_blocksHtml htable _ _ _ _ _)

/-! ### Pages -/

/-- The converter is in a table. -/
def InTable (s : Bytes × BlockParser) : Prop := ∃ f, s.2 = .node .table f .null

/-- The converter outside of tables or in one, where its lines have closed what they have opened. -/
def SoundState (s : Bytes × BlockParser) : Prop :=
  GoodState s ∨ (Even s.1 ∧ ∃ f p, s.2 = .node .table f .null ∧ TableParser.IsAt f p ∧ EvenTable p)

theorem GoodState.not_inTable {s : Bytes × BlockParser} (h : GoodState s) : ¬InTable s := by
  rintro ⟨f, hs⟩
  rcases h.2 with hnull | hgood
  · rw [hs] at hnull
    simp at hnull
  · rw [hs] at hgood
    cases hgood with
    | list hopen _ =>
        obtain ⟨f', child, hnode⟩ := hopen.exists_node
        obtain ⟨L, hL⟩ := hopen.listTags_eq
        exact ne_table_of_list hL (BlockParser.node.inj hnode).1.symm

/-- A line outside of tables. -/
theorem good_parseLine {s : Bytes × BlockParser} (h : GoodState s) (hline : ch '<' ∉ line)
    (hstart : s.2 = .null → line ≠ bytes "|table>") : ∃ s', Parser.parseLine s line = .ok s' ∧ GoodState s' := by
  obtain ⟨out, p⟩ := s
  obtain ⟨hout, hp⟩ := h
  rcases hp with hnull | hgood
  · obtain rfl : p = .null := hnull
    refine good_between line (fun kind hnew => good_first hnew ?_ hline) hout
    rintro rfl
    exact hstart rfl (getBlockParserForLine_eq_table hnew)
  · obtain ⟨kind, f, child, rfl⟩ := Good.exists_node hgood
    obtain ⟨q, hq, houtcome⟩ := good_line hgood hline
    exact goodState_of_outcome hout hq houtcome

/-- A line without tags, or the end of a table. -/
theorem soundState_parseLine {s s' : Bytes × BlockParser} (h : SoundState s)
    (hline : ch '<' ∈ line → line = TableParser.tableEnd ∧ InTable s) (hstep : Parser.parseLine s line = .ok s') :
    SoundState s' := by
  obtain ⟨out, q⟩ := s
  rcases h with hgood | ⟨hout, f, p, hq, hat, heven⟩
  · have hnone : ch '<' ∉ line := fun hmem => hgood.not_inTable (hline hmem).2
    by_cases hstart : q = .null ∧ line = bytes "|table>"
    · obtain ⟨rfl, rfl⟩ := hstart
      obtain ⟨f, hf, hat⟩ := Parser.parseLine_tableStart out
      obtain rfl := Except.ok.inj (hf.symm.trans hstep)
      have hempty : EvenTable ([], [], 0) := ⟨fun rows hrows => absurd hrows (by simp), fun row hrow => absurd hrow (by simp)⟩
      exact .inr ⟨hgood.1, f, _, rfl, hat, hempty⟩
    · obtain ⟨t, ht, hgood'⟩ := good_parseLine hgood hnone fun hnull hmark => hstart ⟨hnull, hmark⟩
      obtain rfl := Except.ok.inj (ht.symm.trans hstep)
      exact .inl hgood'
  · obtain rfl : q = .node .table f .null := hq
    by_cases hend : line = TableParser.tableEnd
    · subst hend
      obtain rfl := Except.ok.inj ((Parser.parseLine_tableEnd hat).symm.trans hstep)
      exact .inl ⟨hout.append (heven.even_parseBlock hat), .inl rfl⟩
    · have hnone : ch '<' ∉ line := fun hmem => hend (hline hmem).1
      cases hp : TableParser.advance p line with
      | none =>
          rw [Parser.parseLine_table_error (TableParser.addLine_of_advance_none hat hend hp)] at hstep
          simp at hstep
      | some p' =>
          obtain ⟨f', hf', hat'⟩ := TableParser.addLine_of_advance hat hend hp
          obtain rfl := Except.ok.inj ((Parser.parseLine_table hf' hat'.isFinished).symm.trans hstep)
          exact .inr ⟨hout, f', p', rfl, hat', heven.advance hnone hp⟩

/-- The lines contain no tags, apart from the ends of the tables that they open. -/
def TagFree (lines : List Bytes) : Prop :=
  ∀ before line after, lines = before ++ line :: after → ch '<' ∈ line →
    line = TableParser.tableEnd ∧ ∃ s, before.foldlM Parser.parseLine ([], .null) = .ok s ∧ InTable s

/-- The end of a table is the only line with a tag. -/
theorem tagFree_of_tableEnd {before after : List Bytes} {s : Bytes × BlockParser} (hbefore : ∀ l ∈ before, ch '<' ∉ l)
    (hafter : ∀ l ∈ after, ch '<' ∉ l) (hrun : before.foldlM Parser.parseLine ([], .null) = .ok s) (hin : InTable s) :
    TagFree (before ++ TableParser.tableEnd :: after) := by
  intro front line back hcut hmem
  have hfront : line ∉ before := fun h => hbefore line h hmem
  have hback : line ∉ after := fun h => hafter line h hmem
  rcases List.append_eq_append_iff.mp hcut with ⟨_ | ⟨l, x⟩, hf, hb⟩ | ⟨_ | ⟨l, x⟩, hf, hb⟩
  · obtain rfl := (List.cons.inj hb).1
    exact ⟨rfl, s, by rw [hf, List.append_nil]; exact hrun, hin⟩
  · exact absurd (by simp [(List.cons.inj hb).2]) hback
  · obtain rfl := (List.cons.inj hb).1
    exact ⟨rfl, s, by rw [← List.append_nil front, ← hf]; exact hrun, hin⟩
  · exact absurd (by simp [hf, (List.cons.inj hb).1]) hfront

theorem TagFree.concat_nil {lines : List Bytes} (h : TagFree lines) : TagFree (lines ++ [[]]) := by
  intro before line after hcut hmem
  rcases List.eq_nil_or_concat after with rfl | ⟨after, last, rfl⟩
  · obtain ⟨-, hline⟩ := List.append_inj' hcut rfl
    obtain rfl := (List.cons.inj hline).1
    simp at hmem
  · refine h before line after ?_ hmem
    have hcut' : lines ++ [[]] = (before ++ line :: after) ++ [last] := by simpa using hcut
    exact (List.append_inj' hcut' rfl).1

theorem soundState_foldlM {lines : List Bytes} {s : Bytes × BlockParser} (hfree : TagFree lines)
    (h : lines.foldlM Parser.parseLine ([], .null) = .ok s) : SoundState s := by
  induction lines using List.reverseRecOn generalizing s with
  | nil =>
      obtain rfl : (([], .null) : Bytes × BlockParser) = s := Except.ok.inj h
      exact .inl ⟨balanced_nil, .inl rfl⟩
  | append_singleton lines line ih =>
      rw [List.foldlM_append] at h
      obtain ⟨t, hrun, hline⟩ := Lib.bind_eq_ok.mp h
      rw [List.foldlM_cons] at hline
      obtain ⟨s', hstep, hs⟩ := Lib.bind_eq_ok.mp hline
      obtain rfl : s' = s := Except.ok.inj hs
      have hbefore : TagFree lines := fun before line' after hcut =>
        hfree before line' (after ++ [line]) (by simp [hcut])
      refine soundState_parseLine (ih hbefore hrun) (fun hmem => ?_) hstep
      obtain ⟨hend, t', ht', hin⟩ := hfree lines line [] rfl hmem
      obtain rfl := Except.ok.inj (ht'.symm.trans hrun)
      exact ⟨hend, hin⟩

/-- The elements of the blocks of a page are closed in the reverse of the order in which they were opened. -/
theorem Parser.parse_wellNested {markdown page : Bytes} (hfree : TagFree (getlines lf markdown))
    (h : parse markdown = .ok page) : WellNested page := by
  rw [parse_eq] at h
  cases hrun : (getlines lf markdown ++ [[]]).foldlM parseLine ([], .null) with
  | error e => simp [hrun, Except.map] at h
  | ok s =>
      rw [hrun] at h
      obtain rfl : s.1 = page := Except.ok.inj h
      rcases soundState_foldlM hfree.concat_nil hrun with ⟨hout, -⟩ | ⟨hout, -⟩
      · exact (hout []).scan_eq
      · exact (hout []).scan_eq

/-- Lists in a quote, and a table. -/
def guide : Bytes := bytes "> * a\n>   1. b\n>\n\n|table>\nc\n- | - | -\nd\n|<table\n"

def guidePage : Bytes :=
  bytes ("<blockquote><ul><li>a <ol><li>b </li></ol></li></ul></blockquote>" ++
    "<table><thead><tr><th>c</th></tr></thead><tbody><tr><td>d</td></tr></tbody></table>")

theorem Parser.parse_wellNested_guide : parse guide = .ok guidePage ∧ WellNested guidePage := by
  have hlines : getlines lf guide = (["> * a", ">   1. b", ">", "", "|table>", "c", "- | - | -", "d"].map bytes) ++
      TableParser.tableEnd :: [] := by decide +kernel
  have hparse : parse guide = .ok guidePage := by decide +kernel
  refine ⟨hparse, parse_wellNested ?_ hparse⟩
  rw [hlines]
  exact tagFree_of_tableEnd (by decide) (by decide) rfl ⟨_, rfl⟩

end Maddy

end WebServer
