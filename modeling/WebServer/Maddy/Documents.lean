import WebServer.Maddy.Quotes

/-!
# Documents

Markdown as a writer thinks of it: headlines, rules, paragraphs, code blocks, tables, lists whose items contain lists, and
quotes that contain documents. What the converter makes of such a document, printed line by line, is its HTML
(`Document.parse_lines`).

A line in a quote gets a space at its end, in each quote one more; so there are no rules, code blocks or tables in quotes,
and in the third of three nested quotes no line is empty.
-/

namespace WebServer

namespace Maddy

open Lib

variable {l t : Bytes} {kind : Kind} {n : Nat}

/-- A line, with the spaces that it has got in `n` quotes. -/
def pad (n : Nat) (l : Bytes) : Bytes := if l = [] then [] else l ++ List.replicate n sp

/-- A line of a quote. The space behind the mark is left out in front of a mark, which would be taken away with it. -/
def quoteLine (l : Bytes) : Bytes := if l = [] ∨ l.head? = some (ch '>') then ch '>' :: l else bytes "> " ++ l

namespace Items

/-- The items with the spaces that their lines have got in `n` quotes. -/
def padded (n : Nat) : Items → Items
  | .nil => .nil
  | .cons marker text kind sub rest => .cons marker (text ++ List.replicate n sp) kind (sub.padded n) (rest.padded n)

end Items

/-- A document. -/
inductive Document
  | nil
  | headline (level : Nat × String) (text : Bytes) (rest : Document)
  | rule (rest : Document)
  | paragraph (lines : List Bytes) (rest : Document)
  | code (lines : List Bytes) (rest : Document)
  | table (t : Table) (rest : Document)
  | list (kind : Kind) (items : Items) (rest : Document)
  | quote (content rest : Document)

namespace Document

/-- The lines of a document. -/
def lines : Document → List Bytes
  | .nil => []
  | .headline level text rest => (hashes level.1 ++ text) :: rest.lines
  | .rule rest => bytes "---" :: rest.lines
  | .paragraph lines rest => lines ++ [] :: rest.lines
  | .code lines rest => bytes "```" :: (lines ++ bytes "```" :: rest.lines)
  | .table t rest => t.markdown ++ rest.lines
  | .list _ items rest => items.lines ++ [] :: rest.lines
  | .quote content rest => content.lines.map quoteLine ++ [] :: rest.lines

/-- The HTML of a document in `n` quotes. -/
def html (n : Nat) : Document → Bytes
  | .nil => []
  | .headline level text rest => Parser.headlineHtml level.2 (text ++ List.replicate n sp) ++ rest.html n
  | .rule rest => bytes "<hr/>" ++ rest.html n
  | .paragraph lines rest => Parser.paragraphHtml (lines.map (pad n)) ++ rest.html n
  | .code lines rest => Parser.codeHtml lines ++ rest.html n
  | .table t rest => t.html ++ rest.html n
  | .list kind items rest => (items.padded n).html kind ++ rest.html n
  | .quote content rest => bytes "<blockquote>" ++ content.html (n + 1) ++ bytes "</blockquote>" ++ rest.html n

/-- A document that can be written in `n` quotes: the first line of each block starts a block of its kind, and the others
do not end it. -/
def Valid (n : Nat) : Document → Prop
  | .nil => True
  | .headline level text rest => (level ∈ HeadlineParser.levels ∧ ∀ c ∈ text, IsDot c) ∧ rest.Valid n
  | .rule rest => n = 0 ∧ rest.Valid n
  | .paragraph lines rest => ((lines.map (pad n)).head?.bind getBlockParserForLine = some .paragraph ∧
      ∀ l ∈ lines, l ≠ []) ∧ rest.Valid n
  | .code lines rest => (n = 0 ∧ ∀ l ∈ lines, l ≠ bytes "```") ∧ rest.Valid n
  | .table t rest => (n = 0 ∧ t.Valid) ∧ rest.Valid n
  | .list kind items rest => ((items.padded n).lines.head?.bind getBlockParserForLine = some kind ∧
      kind.listTags.isSome = true ∧ (items.padded n).Valid kind) ∧ rest.Valid n
  | .quote content rest => ((∃ l, content.lines.head? = some l ∧ ∀ c ∈ l, IsDot c) ∧
      (n ≤ 1 ∨ [] ∉ content.lines) ∧ content.Valid (n + 1)) ∧ rest.Valid n

end Document

/-! ### Spaces at the ends of lines -/

theorem pad_of_ne (h : l ≠ []) (n : Nat) : pad n l = l ++ List.replicate n sp := if_neg h

theorem pad_nil (n : Nat) : pad n [] = [] := if_pos rfl

theorem pad_zero (l : Bytes) : pad 0 l = l := by
  rw [pad]
  split_ifs with h
  · exact h.symm
  · exact List.append_nil l

theorem map_pad_zero (lines : List Bytes) : lines.map (pad 0) = lines := by
  rw [List.map_congr_left fun l _ => pad_zero l, List.map_id']

theorem quoteLine_ne (l : Bytes) : quoteLine l ≠ [] := by
  rw [quoteLine]
  split_ifs <;> simp [bytes]

/-- What a quote takes away: its mark, with the space behind it if there is one. -/
theorem parseBlock_mark (t : Bytes) : QuoteParser.parseBlock (ch '>' :: ch '>' :: t) = ch '>' :: t ++ bytes " " := by
  have hspace : ¬ bytes "> " <+: ch '>' :: ch '>' :: t := by
    rintro ⟨w, hw⟩
    have hbyte : some sp = some (ch '>') := congrArg (·[1]?) hw
    exact absurd hbyte (by decide)
  have hmark := replaceFront_word QuoteParser.withoutSpace_consumes [] (ch '>' :: t)
  rw [QuoteParser.parseBlock, replaceFront_word_of_not _ _ hspace, show ch '>' :: ch '>' :: t = bytes ">" ++ ch '>' :: t from rfl,
    hmark]
  rfl

theorem parseBlock_markSpace (h : l.head? ≠ some (ch '>')) :
    QuoteParser.parseBlock (bytes "> " ++ l) = if l.isEmpty then l else l ++ bytes " " := by
  have hmark : ¬ bytes ">" <+: l := by
    rintro ⟨w, rfl⟩
    exact h rfl
  have hspace := replaceFront_word QuoteParser.withSpace_consumes [] l
  simp only [fill, List.flatMap_nil, List.nil_append] at hspace
  rw [QuoteParser.parseBlock, hspace, replaceFront_word_of_not _ _ hmark]

/-- A quote takes its mark from a line, and puts a space at its end. -/
theorem parseBlock_quoteLine (h : l ≠ [] ∨ n ≤ 1) : QuoteParser.parseBlock (pad n (quoteLine l)) = pad (n + 1) l := by
  have hspaces : ∀ l : Bytes, l ++ List.replicate n sp ++ bytes " " = l ++ List.replicate (n + 1) sp := by
    intro l
    rw [List.replicate_succ', List.append_assoc]
    rfl
  rw [pad_of_ne (quoteLine_ne l)]
  cases l with
  | nil =>
      have hn : n = 0 ∨ n = 1 := by
        have := h.resolve_left (not_not.mpr rfl)
        omega
      rcases hn with rfl | rfl <;> rfl
  | cons c t =>
      rw [pad_of_ne (by simp), ← hspaces, quoteLine]
      by_cases hc : c = ch '>'
      · subst hc
        rw [if_pos (.inr rfl)]
        exact parseBlock_mark _
      · rw [if_neg (by simp [hc]), List.append_assoc, parseBlock_markSpace (by simp [hc])]
        rfl

theorem isStartingLine_quoteLine (hl : ∀ c ∈ l, IsDot c) (n : Nat) :
    QuoteParser.isStartingLine (pad n (quoteLine l)) = true := by
  have hsp : IsDot sp := by decide
  have hspaces : ∀ c ∈ l ++ List.replicate n sp, IsDot c := by
    intro c hc
    rcases List.mem_append.mp hc with hc | hc
    · exact hl c hc
    · exact List.eq_of_mem_replicate hc ▸ hsp
  rw [QuoteParser.isStartingLine_iff, pad_of_ne (quoteLine_ne l), quoteLine]
  split_ifs
  · exact ⟨l ++ List.replicate n sp, rfl, hspaces⟩
  · exact ⟨sp :: (l ++ List.replicate n sp), rfl, List.forall_mem_cons.mpr ⟨hsp, hspaces⟩⟩

/-! ### What the converter makes of a document -/

theorem Items.lines_ne {items : Items} (h : items.Valid kind) : ∀ l ∈ items.lines, l ≠ [] := by
  induction items generalizing kind with
  | nil => simp [Items.lines]
  | cons m t new sub rest ihsub ihrest =>
      obtain ⟨hitem, -, hsub, hrest⟩ := h
      intro l hl
      simp only [Items.lines, List.mem_cons, List.mem_append, List.mem_map] at hl
      rcases hl with rfl | ⟨l', -, rfl⟩ | hl
      · simp [hitem.nonempty]
      · simp [bytes]
      · exact ihrest hrest l hl

/-- The lines of a list in quotes. -/
theorem Items.lines_padded {items : Items} (h : (items.padded n).Valid kind) :
    (items.padded n).lines = items.lines.map (pad n) := by
  induction items generalizing kind with
  | nil => rfl
  | cons m t new sub rest ihsub ihrest =>
      obtain ⟨hitem, -, hsub, hrest⟩ := h
      have hitemLine : pad n (m ++ t) = m ++ (t ++ List.replicate n sp) := by
        have hm : m ≠ [] := by
          rcases marker_cases hitem.marker with ⟨-, ⟨rfl, -⟩ | ⟨rfl, -⟩⟩ | ⟨-, rfl, -⟩ | ⟨-, c, -, rfl, -⟩ <;> simp [bytes]
        rw [pad_of_ne (by simp [hm]), List.append_assoc]
      have hsubLines : ∀ l ∈ sub.lines, bytes "  " ++ pad n l = pad n (bytes "  " ++ l) := by
        intro l hl
        have hl' : l ≠ [] := by
          rintro rfl
          refine Items.lines_ne hsub (pad n []) ?_ (pad_nil n)
          rw [ihsub hsub]
          exact List.mem_map_of_mem hl
        rw [pad_of_ne hl', pad_of_ne (by simp [bytes]), List.append_assoc]
      have hmap : ((sub.lines.map (pad n)).map (bytes "  " ++ ·)) = (sub.lines.map (bytes "  " ++ ·)).map (pad n) := by
        rw [List.map_map, List.map_map]
        exact List.map_congr_left hsubLines
      rw [Items.padded, Items.lines, Items.lines, ihsub hsub, ihrest hrest, hmap, List.map_cons, List.map_append, hitemLine]

namespace Document

open Maddy.Parser

theorem foldlM_lines (d : Document) {n : Nat} (h : d.Valid n) (out : Bytes) :
    (d.lines.map (pad n)).foldlM parseLine (out, .null) = .ok (out ++ d.html n, .null) := by
  induction d generalizing n out with
  | nil => simp [lines, html, pure, Except.pure]
  | headline level text rest ih =>
      obtain ⟨⟨hlevel, htext⟩, hrest⟩ := h
      have hline : pad n (hashes level.1 ++ text) = hashes level.1 ++ (text ++ List.replicate n sp) := by
        rw [pad_of_ne (by simp [hashes, bytes]), List.append_assoc]
      have hdots : ∀ c ∈ text ++ List.replicate n sp, IsDot c := by
        intro c hc
        rcases List.mem_append.mp hc with hc | hc
        · exact htext c hc
        · rw [List.eq_of_mem_replicate hc]
          decide
      rw [lines, List.map_cons, hline, List.foldlM_cons, Lib.bind_eq_of_ok (parseLine_headline hlevel hdots out), ih hrest]
      simp [html]
  | rule rest ih =>
      obtain ⟨rfl, hrest⟩ := h
      rw [lines, List.map_cons, pad_zero, List.foldlM_cons, Lib.bind_eq_of_ok (parseLine_rule out), ih hrest]
      simp [html]
  | paragraph ls rest ih =>
      obtain ⟨⟨hfirst, hne⟩, hrest⟩ := h
      obtain ⟨l, ls, rfl⟩ : ∃ l ls', ls = l :: ls' := by
        cases ls with
        | nil => simp at hfirst
        | cons l ls => exact ⟨l, ls, rfl⟩
      have hlines : ∀ l ∈ ls.map (pad n), l ≠ [] := by
        intro l hl
        obtain ⟨l', hl', rfl⟩ := List.mem_map.mp hl
        rw [pad_of_ne (hne l' (List.mem_cons_of_mem _ hl'))]
        simp [hne l' (List.mem_cons_of_mem _ hl')]
      have hsplit : (paragraph (l :: ls) rest).lines.map (pad n) =
          (pad n l :: (ls.map (pad n) ++ [[]])) ++ rest.lines.map (pad n) := by
        simp [lines, pad_nil]
      rw [hsplit, List.foldlM_append, Lib.bind_eq_of_ok (foldlM_paragraph_block hfirst hlines out), ih hrest]
      simp [html]
  | code ls rest ih =>
      obtain ⟨⟨rfl, hne⟩, hrest⟩ := h
      have hrun := ih hrest
      rw [map_pad_zero] at hrun
      have hsplit : (code ls rest).lines = (bytes "```" :: (ls ++ [bytes "```"])) ++ rest.lines := by simp [lines]
      rw [map_pad_zero, hsplit, List.foldlM_append, Lib.bind_eq_of_ok (foldlM_codeBlock hne out), hrun]
      simp [html]
  | table t rest ih =>
      obtain ⟨⟨rfl, ht⟩, hrest⟩ := h
      have hrun := ih hrest
      rw [map_pad_zero] at hrun
      rw [map_pad_zero, lines, List.foldlM_append, Lib.bind_eq_of_ok (foldlM_tableBlock ht out), hrun]
      simp [html]
  | list kind items rest ih =>
      obtain ⟨⟨hfirst, hlist, hvalid⟩, hrest⟩ := h
      obtain ⟨L, hL⟩ := Option.isSome_iff_exists.mp hlist
      have hsplit : (list kind items rest).lines.map (pad n) = ((items.padded n).lines ++ [[]]) ++ rest.lines.map (pad n) := by
        simp [lines, Items.lines_padded hvalid, pad_nil]
      rw [hsplit, List.foldlM_append, Lib.bind_eq_of_ok (foldlM_list hvalid hL hfirst out), ih hrest]
      simp [html]
  | quote content rest ihcontent ihrest =>
      obtain ⟨⟨⟨l, hl, hdots⟩, hblank, hcontent⟩, hrest⟩ := h
      have hlines : (content.lines.map quoteLine).map (pad n) ≠ [] := by
        rintro hnil
        rw [List.map_eq_nil_iff, List.map_eq_nil_iff] at hnil
        simp [hnil] at hl
      have hne : ∀ l ∈ (content.lines.map quoteLine).map (pad n), l ≠ [] := by
        intro l hl
        obtain ⟨l', hl', rfl⟩ := List.mem_map.mp hl
        obtain ⟨l'', -, rfl⟩ := List.mem_map.mp hl'
        rw [pad_of_ne (quoteLine_ne l'')]
        simp [quoteLine_ne l'']
      have hfirst : ∀ l, ((content.lines.map quoteLine).map (pad n)).head? = some l →
          QuoteParser.isStartingLine l = true := by
        intro l' hl'
        rw [List.head?_map, List.head?_map, hl] at hl'
        obtain rfl := Option.some.inj hl'
        exact isStartingLine_quoteLine hdots n
      have hmap : ((content.lines.map quoteLine).map (pad n)).map QuoteParser.parseBlock = content.lines.map (pad (n + 1)) := by
        rw [List.map_map, List.map_map]
        refine List.map_congr_left fun l hl => parseBlock_quoteLine ?_
        rcases hblank with hn | hblank
        · exact .inr hn
        · exact .inl fun hnil => hblank (hnil ▸ hl)
      have hquote := foldlM_quote hlines hne hfirst out
      rw [hmap, ihcontent hcontent [], List.nil_append] at hquote
      have hsplit : (quote content rest).lines.map (pad n) =
          (content.lines.map quoteLine).map (pad n) ++ [] :: rest.lines.map (pad n) := by
        simp [lines, pad_nil]
      rw [hsplit, List.foldlM_append, Lib.bind_eq_of_ok hquote, List.foldlM_cons,
        Lib.bind_eq_of_ok (parseLine_quoteEnd out _), ihrest hrest]
      simp [html]

/-- What the converter makes of a document is its HTML. -/
theorem parse_lines (d : Document) (h : d.Valid 0) (hlines : ∀ l ∈ d.lines, lf ∉ l) :
    parse (withEnds [lf] d.lines) = .ok (d.html 0) := by
  have hrun := foldlM_lines d h []
  rw [map_pad_zero] at hrun
  exact parse_withEnds hlines hrun

/-- A headline, a list with a list in it, and a quote. -/
def readme : Document :=
  .headline (1, "1") (bytes "API")
    (.list .unorderedList
      (.cons (bytes "* ") (bytes "a") .orderedList (.cons (bytes "1. ") (bytes "b") .checklist .nil .nil)
        (.cons (bytes "* ") (bytes "c") .checklist .nil .nil))
      (.quote (.paragraph [bytes "d"] .nil) .nil))

theorem parse_lines_readme : parse (bytes "# API\n* a\n  1. b\n* c\n\n> d\n>\n\n") = .ok (bytes
    "<h1>API</h1><ul><li>a<ol><li>b</li></ol></li><li>c</li></ul><blockquote><p>d  </p></blockquote>") := by
  have hitem : ∀ t ∈ [bytes "a", bytes "c"], Items.ItemValid .unorderedList (bytes "* ") t := by
    intro t ht
    have hall : (∀ t ∈ [bytes "a", bytes "c"], ∀ c ∈ t, IsDot c) ∧ (∀ t ∈ [bytes "a", bytes "c"], t ≠ []) ∧
        ∀ t ∈ [bytes "a", bytes "c"], ∀ e ∈ listEnds, ¬ e <:+: t := by decide +kernel
    exact ⟨by decide +kernel, hall.1 t ht, hall.2.1 t ht, hall.2.2 t ht, nofun⟩
  have hnumbered : Items.ItemValid .orderedList (bytes "1. ") (bytes "b") :=
    ⟨by decide +kernel, by decide +kernel, by decide +kernel, by decide +kernel, fun _ => by decide +kernel⟩
  have hvalid : readme.Valid 0 :=
    ⟨⟨by decide +kernel, by decide +kernel⟩, ⟨by decide +kernel, rfl, hitem _ (by simp),
      fun _ => .inr ⟨.inr rfl, .inl rfl⟩, ⟨hnumbered, fun h => absurd rfl h, trivial, trivial⟩, hitem _ (by simp),
      fun h => absurd rfl h, trivial, trivial⟩,
      ⟨⟨_, rfl, by decide +kernel⟩, .inl (by decide), ⟨by decide +kernel, by decide +kernel⟩, trivial⟩, trivial⟩
  have hlines : withEnds [lf] readme.lines = bytes "# API\n* a\n  1. b\n* c\n\n> d\n>\n\n" := by decide +kernel
  have hhtml : readme.html 0 = bytes
      "<h1>API</h1><ul><li>a<ol><li>b</li></ol></li><li>c</li></ul><blockquote><p>d  </p></blockquote>" := by decide +kernel
  rw [← hlines, ← hhtml]
  exact parse_lines readme hvalid (by decide +kernel)

end Document

end Maddy

end WebServer
