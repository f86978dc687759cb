import WebServer.Lib.Pieces
import WebServer.Maddy.LineParsers

/-!
# Code spans

What the look-aheads of the line parsers are for: nothing in a code span is taken for a mark. They look at the
whole line that follows, so neither is anything in front of a code span (`runLineParser_codeSpans`).
-/

namespace WebServer

namespace Maddy

open Lib

variable {a b : Place UInt8} {tag mark w pre post rest line t : Bytes} {c m : UInt8}

/-! ### What the look-ahead sees -/

/-- A word comes later in the line. -/
def Ahead (w rest : Bytes) : Prop := ∃ u v, rest = u ++ w ++ v ∧ ∀ c ∈ u, IsDot c

/-- A code mark or a tag comes later in the line. -/
def CodeAhead (tag rest : Bytes) : Prop := Ahead (bytes "`") rest ∨ Ahead tag rest

theorem matches_ahead : (∃ b, Regex.Matches (.seq dots (.seq (Regex.word w) dots)) a b) ↔ Ahead w a.rest := by
  simp only [Regex.Matches, matches_dots, Regex.matches_word]
  constructor
  · rintro ⟨b, m, ⟨u, rest, hu, hdots, rfl⟩, m', ⟨rest', hw, rfl⟩, -⟩
    rw [Place.after_rest] at hw
    exact ⟨u, rest', by rw [hu, hw, List.append_assoc], hdots⟩
  · rintro ⟨u, v, hrest, hdots⟩
    refine ⟨(a.after u (w ++ v)).after w v, a.after u (w ++ v), ⟨u, w ++ v, by simp [hrest], hdots, rfl⟩,
      (a.after u (w ++ v)).after w v, ⟨v, rfl, rfl⟩, [], v, rfl, by simp, ?_⟩
    exact (Place.after_nil _).symm

theorem matches_noCodeAhead : Regex.Matches (noCodeAhead tag) a b ↔ b = a ∧ ¬ CodeAhead tag a.rest := by
  rw [noCodeAhead, Regex.Matches, CodeAhead, ← matches_ahead, ← matches_ahead]
  refine and_congr_right fun _ => ?_
  simp only [Regex.Matches, not_or, not_exists]
  exact forall_and

theorem CodeAhead.append (h : CodeAhead tag rest) (hpre : ∀ c ∈ pre, IsDot c) : CodeAhead tag (pre ++ rest) := by
  have hahead : ∀ w, Ahead w rest → Ahead w (pre ++ rest) := by
    rintro w ⟨u, v, rfl, hu⟩
    exact ⟨pre ++ u, v, by simp, fun c hc => (List.mem_append.mp hc).elim (hpre c) (hu c)⟩
  exact h.imp (hahead _) (hahead _)

theorem codeAhead_mark (tag post : Bytes) : CodeAhead tag (ch '`' :: post) := .inl ⟨[], post, rfl, by simp⟩

theorem codeAhead_tag (tag post : Bytes) : CodeAhead tag (tag ++ post) := .inr ⟨[], post, rfl, by simp⟩

/-- What the matches of a span are. -/
theorem span_matches (h : Regex.Matches (span mark c) a b) :
    ∃ g, a.rest = mark ++ (g ++ (mark ++ b.rest)) ∧ c ∉ g ∧ ¬ CodeAhead (bytes "<code>") a.rest ∧
      ¬ CodeAhead (bytes "</code>") (g ++ (mark ++ b.rest)) ∧ b.groups = (1, g) :: a.groups := by
  obtain ⟨m₁, hahead, m₂, hmark, m₃, hahead', m₄, hg, m₅, hmark', hahead''⟩ := h
  obtain ⟨rfl, hnone⟩ := matches_noCodeAhead.mp hahead
  obtain ⟨rest₁, hrest₁, rfl⟩ := Regex.matches_word.mp hmark
  obtain ⟨rfl, hnone'⟩ := matches_noCodeAhead.mp hahead'
  obtain ⟨g, rest₂, hrest₂, hc, rfl⟩ := matches_capture.mp hg
  obtain ⟨rest₃, hrest₃, rfl⟩ := Regex.matches_word.mp hmark'
  obtain ⟨rfl, -⟩ := matches_noCodeAhead.mp hahead''
  simp only [Place.after_rest] at hrest₂ hrest₃ hnone'
  subst hrest₃
  subst hrest₂
  exact ⟨g, hrest₁, hc, hnone, hnone', rfl⟩

/-- A span is not found where code is ahead. -/
theorem span_first?_eq_none (h : CodeAhead (bytes "<code>") a.rest) : Regex.first? (span mark c) a = none := by
  refine Regex.first?_eq_none.mpr fun b hb => ?_
  obtain ⟨g, -, -, hnone, -⟩ := span_matches hb
  exact hnone h

/-! ### Passing over -/

variable {p : Pattern UInt8} {format : Replacement} {s : Bool}

/-- No span starts in front of a code mark or an opening tag. -/
theorem span_replaceFrom_ahead (hp : p.regex = span mark c) (hpre : ∀ c ∈ pre, IsDot c)
    (hrest : CodeAhead (bytes "<code>") rest) :
    p.replaceFrom format 0 s (pre ++ rest) = pre ++ p.replaceFrom format 0 (s && pre.isEmpty) rest := by
  induction pre generalizing s with
  | nil => simp
  | cons d pre ih =>
      have hnone : Regex.first? (span mark c) ⟨s, d :: (pre ++ rest), []⟩ = none :=
        span_first?_eq_none (hrest.append hpre)
      rw [List.cons_append, Pattern.replaceFrom_of_none (hp ▸ hnone), ih (List.forall_mem_cons.mp hpre).2]
      simp

/-- No span whose mark is one byte starts in front of a closing tag. -/
theorem span_replaceFrom_closing (hp : p.regex = span [m] c) (hpre : ∀ c ∈ pre, IsDot c)
    (hrest : CodeAhead (bytes "</code>") rest) :
    p.replaceFrom format 0 s (pre ++ rest) = pre ++ p.replaceFrom format 0 (s && pre.isEmpty) rest := by
  induction pre generalizing s with
  | nil => simp
  | cons d pre ih =>
      have htail := (List.forall_mem_cons.mp hpre).2
      have hnone : Regex.first? (span [m] c) ⟨s, d :: (pre ++ rest), []⟩ = none := by
        refine Regex.first?_eq_none.mpr fun b hb => ?_
        obtain ⟨g, hg, -, -, hnone, -⟩ := span_matches hb
        obtain ⟨-, hg⟩ : d = m ∧ pre ++ rest = g ++ ([m] ++ b.rest) := List.cons.inj hg
        rw [← hg] at hnone
        exact hnone (hrest.append htail)
      rw [List.cons_append, Pattern.replaceFrom_of_none (hp ▸ hnone), ih htail]
      simp

theorem span_replaceFrom_codeMark (hp : p.regex = span mark c) (hpre : ∀ c ∈ pre, IsDot c) (post : Bytes) :
    p.replaceFrom format 0 s (pre ++ ch '`' :: post) = pre ++ ch '`' :: p.replaceFrom format 0 false post := by
  have hahead := codeAhead_mark (bytes "<code>") post
  rw [span_replaceFrom_ahead hp hpre hahead, Pattern.replaceFrom_of_none (hp ▸ span_first?_eq_none hahead)]

/-! ### Code -/

theorem matches_code : Regex.Matches InlineCodeParser.expr a b ↔ ∃ g post, a.rest = ch '`' :: (g ++ ch '`' :: post) ∧
    ch '`' ∉ g ∧ b = ⟨false, post, (1, g) :: a.groups⟩ := by
  simp only [InlineCodeParser.expr, Regex.Matches, Regex.matches_word]
  constructor
  · rintro ⟨m₁, ⟨rest₁, hrest₁, rfl⟩, m₂, hg, rest₃, hrest₃, rfl⟩
    obtain ⟨g, rest₂, hrest₂, hc, rfl⟩ := matches_capture.mp hg
    simp only [Place.after_rest] at hrest₂ hrest₃
    subst hrest₃
    subst hrest₂
    exact ⟨g, rest₃, hrest₁, hc, by simp [Place.after, bytes]⟩
  · rintro ⟨g, post, hrest, hc, rfl⟩
    refine ⟨a.after (bytes "`") (g ++ ch '`' :: post), ⟨_, hrest, rfl⟩, _, matches_capture.mpr ⟨g, _, rfl, hc, rfl⟩, ?_⟩
    exact ⟨post, rfl, by simp [Place.after, bytes]⟩

theorem code_first? {g : Bytes} (hg : ch '`' ∉ g) (post : Bytes) :
    InlineCodeParser.re.regex.first? ⟨s, ch '`' :: (g ++ ch '`' :: post), []⟩ = some ⟨false, post, [(1, g)]⟩ := by
  refine Regex.first?_eq_some (matches_code.mpr ⟨g, post, rfl, hg, rfl⟩) fun b hb => ?_
  obtain ⟨g', post', hrest, hg', rfl⟩ := matches_code.mp hb
  obtain ⟨-, hrest⟩ := List.cons.inj hrest
  obtain ⟨rfl, rfl⟩ := Word.append_cons_inj hrest hg hg'
  rfl

theorem parse_code (hpre : ch '`' ∉ pre) {g : Bytes} (hg : ch '`' ∉ g) (post : Bytes) :
    InlineCodeParser.parse (pre ++ ch '`' :: (g ++ ch '`' :: post)) =
      pre ++ (bytes "<code>" ++ (g ++ (bytes "</code>" ++ InlineCodeParser.parse post))) := by
  have hpass : ∀ c ∈ pre, InlineCodeParser.re.regex.starts c = false := by
    intro c hc
    rw [code_starts, decide_eq_false_iff_not]
    rintro rfl
    exact hpre hc
  rw [InlineCodeParser.parse, Pattern.replace_append code_bolFree hpass, Pattern.replace,
    Pattern.replaceFrom_of_some (code_first? hg post), Pattern.replaceFrom_atStart code_bolFree]
  simp [InlineCodeParser.replacement, tagged, fill, InlineCodeParser.parse, Pattern.replace]

/-! ### The parsers in front of a code mark -/

theorem link_codeMark (hpre : ch '[' ∉ pre) (post : Bytes) :
    LinkParser.parse (pre ++ ch '`' :: post) = pre ++ ch '`' :: LinkParser.parse post := by
  have hpass : ∀ c ∈ pre ++ [ch '`'], LinkParser.re.regex.starts c = false := by
    intro c hc
    rw [link_starts, decide_eq_false_iff_not]
    rintro rfl
    rcases List.mem_append.mp hc with hc | hc
    · exact hpre hc
    · exact absurd (List.mem_singleton.mp hc) (by decide)
  have h : LinkParser.parse ((pre ++ [ch '`']) ++ post) = (pre ++ [ch '`']) ++ LinkParser.parse post :=
    Pattern.replace_append link_bolFree hpass post
  simpa using h

/-- An image starts with two bytes. -/
theorem image_first?_eq_none {d : UInt8} (h : rest.head? ≠ some (ch '[')) :
    ImageParser.re.regex.first? ⟨s, d :: rest, []⟩ = none := by
  refine Regex.first?_eq_none.mpr fun b hb => ?_
  obtain ⟨m, hword, -⟩ := hb
  obtain ⟨rest', hrest, -⟩ := Regex.matches_word.mp hword
  obtain ⟨-, rfl⟩ : d = ch '!' ∧ rest = ch '[' :: rest' := List.cons.inj hrest
  exact h rfl

theorem image_codeMark (hpre : ch '[' ∉ pre) (post : Bytes) :
    ImageParser.parse (pre ++ ch '`' :: post) = pre ++ ch '`' :: ImageParser.parse post := by
  have hfrom : ∀ s, ImageParser.re.replaceFrom ImageParser.replacement 0 s (pre ++ ch '`' :: post) =
      pre ++ ch '`' :: ImageParser.parse post := by
    induction pre with
    | nil =>
        intro s
        have hnone : ImageParser.re.regex.first? ⟨s, ch '`' :: post, []⟩ = none :=
          Regex.first?_eq_none_of_starts ImageParser.re.consumes (by decide) rfl
        rw [List.nil_append, Pattern.replaceFrom_of_none hnone, Pattern.replaceFrom_atStart image_bolFree]
        rfl
    | cons d pre ih =>
        intro s
        obtain ⟨-, htail⟩ := not_or.mp (List.mem_cons.not.mp hpre)
        have hhead : (pre ++ ch '`' :: post).head? ≠ some (ch '[') := by
          cases pre with
          | nil =>
              have hne : ch '`' ≠ ch '[' := by decide
              simpa using hne
          | cons e pre =>
              intro he
              obtain rfl : e = ch '[' := by simpa using he
              exact htail List.mem_cons_self
        rw [List.cons_append, Pattern.replaceFrom_of_none (image_first?_eq_none hhead), ih htail]
        rfl
  exact hfrom true

/-- The parsers of spans leave what is in front of a code mark alone. -/
theorem span_codeMark (hp : p.regex = span mark c) (hbol : p.regex.bolFree = true) (hpre : ∀ c ∈ pre, IsDot c)
    (post : Bytes) : p.replace format (pre ++ ch '`' :: post) = pre ++ ch '`' :: p.replace format post := by
  rw [Pattern.replace, span_replaceFrom_codeMark hp hpre, Pattern.replaceFrom_atStart hbol, Pattern.replace]

theorem strong_codeMark (hpre : ∀ c ∈ pre, IsDot c) (post : Bytes) :
    StrongParser.parse (pre ++ ch '`' :: post) = pre ++ ch '`' :: StrongParser.parse post := by
  simp only [StrongParser.parse, StrongParser.res, List.foldl_cons, List.foldl_nil]
  rw [span_codeMark rfl rfl hpre, span_codeMark rfl rfl hpre]

/-- Nothing is set in italics in front of the end of a code span. -/
theorem italic_code {g : Bytes} (hpre : ∀ c ∈ pre, IsDot c) (hg : ∀ c ∈ g, IsDot c) (post : Bytes) :
    ItalicParser.parse (pre ++ (bytes "<code>" ++ (g ++ (bytes "</code>" ++ post)))) =
      pre ++ (bytes "<code>" ++ (g ++ (bytes "</code>" ++ ItalicParser.parse post))) := by
  have hopen : ∀ c ∈ bytes "<code>", c ≠ lf ∧ c ≠ cr := by decide +kernel
  have hclose : ∀ c ∈ bytes "</code>", ItalicParser.re.regex.starts c = false := by decide +kernel
  have hinner : ∀ c ∈ bytes "<code>" ++ g, IsDot c := fun c hc => (List.mem_append.mp hc).elim (hopen c) (hg c)
  have hparse : ∀ rest, ItalicParser.parse rest = ItalicParser.re.replaceFrom ItalicParser.replacement 0 false rest :=
    fun rest => (Pattern.replaceFrom_atStart rfl false rest).symm
  rw [hparse, hparse, span_replaceFrom_ahead rfl hpre (codeAhead_tag _ _), Bool.false_and,
    ← List.append_assoc (bytes "<code>"), span_replaceFrom_closing rfl hinner (codeAhead_tag _ _), Bool.false_and,
    Pattern.replaceFrom_append hclose, Bool.false_and, List.append_assoc]

theorem breakLine_append (hpre : cr ∉ pre) (post : Bytes) :
    BreakLineParser.parse (pre ++ post) = pre ++ BreakLineParser.parse post := by
  refine Pattern.replace_append rfl (fun c hc => ?_) post
  rw [breakLine_starts, decide_eq_false_iff_not]
  rintro rfl
  exact hpre hc

/-! ### Lines with code spans -/

/-- A text in which no code span and no link starts and that is in one line. -/
def Plain (w : Bytes) : Prop := ch '`' ∉ w ∧ ch '[' ∉ w ∧ ∀ c ∈ w, IsDot c

/-- A line up to its first code span, and the span. -/
theorem runLineParser_codeSpan {x g : Bytes} (hx : Plain x) (hg : Plain g) (post : Bytes) :
    runLineParser (x ++ ch '`' :: (g ++ ch '`' :: post)) =
      x ++ (bytes "<code>" ++ (g ++ (bytes "</code>" ++ runLineParser post))) := by
  obtain ⟨hxcode, hxlink, hxdot⟩ := hx
  obtain ⟨hgcode, hglink, hgdot⟩ := hg
  have hmark : IsDot (ch '`') := by constructor <;> decide
  have hlink : ch '[' ∉ x ++ ch '`' :: g := by
    have hne : ch '[' ≠ ch '`' := by decide
    simp [hxlink, hglink, hne]
  have hdot : ∀ c ∈ x ++ ch '`' :: g, IsDot c := by
    intro c hc
    rcases List.mem_append.mp hc with hc | hc
    · exact hxdot c hc
    · exact (List.mem_cons.mp hc).elim (fun he => he ▸ hmark) (hgdot c)
  have hcr : cr ∉ x ++ (bytes "<code>" ++ (g ++ bytes "</code>")) := by
    have htags : cr ∉ bytes "<code>" ∧ cr ∉ bytes "</code>" := by decide
    simp only [List.mem_append, not_or]
    exact ⟨fun h => (hxdot cr h).2 rfl, htags.1, fun h => (hgdot cr h).2 rfl, htags.2⟩
  have hshape : ∀ post, x ++ ch '`' :: (g ++ ch '`' :: post) = (x ++ ch '`' :: g) ++ ch '`' :: post := by simp
  rw [hshape, runLineParser]
  simp only [image_codeMark hlink, link_codeMark hlink, strong_codeMark hdot, EmphasizedParser.parse,
    StrikeThroughParser.parse]
  rw [span_codeMark rfl rfl hdot, span_codeMark rfl rfl hdot, ← hshape, parse_code hxcode hgcode,
    italic_code hxdot hgdot]
  have hbreak := breakLine_append hcr
  simp only [List.append_assoc] at hbreak
  rw [hbreak]
  rfl

/-- The markdown of texts that are each followed by a code span. -/
def withSpans (spans : List (Bytes × Bytes)) : Bytes :=
  spans.flatMap fun span => span.1 ++ ch '`' :: (span.2 ++ [ch '`'])

/-- Their HTML. -/
def spansHtml (spans : List (Bytes × Bytes)) : Bytes :=
  spans.flatMap fun span => span.1 ++ bytes "<code>" ++ span.2 ++ bytes "</code>"

/-- Up to its last code span nothing but the marks of the spans changes in a line; what follows is parsed as if it
were the whole line. -/
theorem runLineParser_codeSpans (spans : List (Bytes × Bytes)) (h : ∀ span ∈ spans, Plain span.1 ∧ Plain span.2)
    (post : Bytes) : runLineParser (withSpans spans ++ post) = spansHtml spans ++ runLineParser post := by
  induction spans with
  | nil => rfl
  | cons span spans ih =>
      obtain ⟨⟨hx, hg⟩, hspans⟩ := List.forall_mem_cons.mp h
      have hstep := runLineParser_codeSpan hx hg (withSpans spans ++ post)
      simp only [withSpans, spansHtml, List.flatMap_cons, List.append_assoc, List.cons_append, List.nil_append]
        at hstep ih ⊢
      rw [hstep, ih hspans]

theorem runLineParser_codeSpans_marks :
    runLineParser (bytes "*a* `_b_` *c*") = bytes "*a* <code>_b_</code> <i>c</i>" := by
  have hplain : ∀ span ∈ [(bytes "*a* ", bytes "_b_")], Plain span.1 ∧ Plain span.2 := by
    intro span hspan
    obtain rfl := List.mem_singleton.mp hspan
    have hdots : (∀ c ∈ bytes "*a* ", IsDot c) ∧ ∀ c ∈ bytes "_b_", IsDot c := by decide +kernel
    exact ⟨⟨by decide, by decide, hdots.1⟩, by decide, by decide, hdots.2⟩
  have hpost : runLineParser (bytes " *c*") = bytes " <i>c</i>" := rfl
  have hline := runLineParser_codeSpans [(bytes "*a* ", bytes "_b_")] hplain (bytes " *c*")
  rw [hpost] at hline
  exact hline

end Maddy

end WebServer
