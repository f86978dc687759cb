import WebServer.Config.Lex

/-!
# Text that an accepted config drops

`Covers` says that a text is made of given tokens, in order, with white space and comments between them. The
tokens of an input cover it unless it ends inside an unquoted word (`covers_tokens_iff`): at the end of the
input `ParseToken` returns no token for the word it has collected, and `Parse` accepts the rest.
-/

namespace WebServer

open Lib

namespace NginxConfigParser

/-- The text is the tokens in their order, with nothing but white space and comments around them. -/
inductive Covers : Bytes → List Bytes → Prop
  | nil : Covers [] []
  | space (c : UInt8) (rest : Bytes) (texts : List Bytes) : IsSpace c → Covers rest texts →
    Covers (c :: rest) texts
  | comment (body : Bytes) (d : UInt8) (rest : Bytes) (texts : List Bytes) : (∀ e ∈ body, ¬ IsLineEnd e) →
    IsLineEnd d → Covers rest texts → Covers (hash :: (body ++ d :: rest)) texts
  | lastComment (body : Bytes) : (∀ e ∈ body, ¬ IsLineEnd e) → Covers (hash :: body) []
  | token (text rest : Bytes) (texts : List Bytes) : Covers rest texts → Covers (text ++ rest) (text :: texts)

/-- The text of a token. -/
def lexemeText : Lexeme Bytes → Bytes
  | .word v => v
  | .stop => [semicolon]
  | .opening => [openBrace]
  | .closing => [closeBrace]

/-! ### Where a text ends -/

/-- What surrounds a place in a text. -/
inductive Context
  | between | word | singleQuoted | doubleQuoted | comment
  deriving DecidableEq, Repr

def Context.next : Context → UInt8 → Context
  | .between, c =>
    if c = hash then .comment
    else if c = doubleQuote then .doubleQuoted
    else if c = singleQuote then .singleQuoted
    else if IsSpace c ∨ c = semicolon ∨ c = openBrace ∨ c = closeBrace then .between
    else .word
  | .word, c => if IsDelimiter c then .between else .word
  | .singleQuoted, c => if c = singleQuote then .between else .singleQuoted
  | .doubleQuoted, c => if c = doubleQuote then .between else .doubleQuoted
  | .comment, c => if IsLineEnd c then .between else .comment

/-- What surrounds the end of a text. -/
def endContext (text : Bytes) : Context := text.foldl Context.next .between

/-- A context goes on to the byte that closes it. -/
def Context.Closes : Context → UInt8 → Prop
  | .between, _ => True
  | .word, c => IsDelimiter c
  | .singleQuoted, c => c = singleQuote
  | .doubleQuoted, c => c = doubleQuote
  | .comment, c => IsLineEnd c

theorem foldl_next_body (context : Context) (body : Bytes) (hbody : ∀ c ∈ body, ¬ context.Closes c) :
    body.foldl Context.next context = context := by
  induction body with
  | nil => rfl
  | cons c body ih =>
      have hc := hbody c (by simp)
      have hstep : context.next c = context := by
        cases context with
        | between => exact absurd trivial hc
        | word => exact if_neg hc
        | singleQuoted => exact if_neg hc
        | doubleQuoted => exact if_neg hc
        | comment => exact if_neg hc
      rw [List.foldl_cons, hstep]
      exact ih fun d hd => hbody d (by simp [hd])

theorem next_closes {context : Context} (hcontext : context ≠ .between) {c : UInt8} (hc : context.Closes c) :
    context.next c = .between := by
  cases context with
  | between => exact absurd rfl hcontext
  | word => exact if_pos hc
  | singleQuoted => exact if_pos hc
  | doubleQuoted => exact if_pos hc
  | comment => exact if_pos hc

theorem endContext_spaces {gap : Bytes} (hgap : ∀ c ∈ gap, IsSpace c) (rest : Bytes) :
    endContext (gap ++ rest) = endContext rest := by
  induction gap with
  | nil => rfl
  | cons c gap ih =>
      have hc : IsSpace c := hgap c (by simp)
      rw [← ih fun d hd => hgap d (by simp [hd])]
      rcases hc with rfl | rfl | rfl | rfl <;> rfl

theorem next_wordStart {c : UInt8} (hc : IsWordStart c) : Context.between.next c = .word := by
  obtain ⟨hspace, hquote, hhash, hsemicolon, hopen, hclose⟩ := hc
  rw [IsQuote, not_or] at hquote
  simp [Context.next, hspace, hquote, hhash, hsemicolon, hopen, hclose]

theorem next_delimiter {d : UInt8} (hd : IsDelimiter d) : Context.between.next d = .between := by
  rcases hd with rfl | rfl | rfl | rfl | rfl | rfl <;> rfl

/-- A context that a byte opens and another closes. -/
theorem endContext_closed {context : Context} (hcontext : context ≠ .between) {c d : UInt8} {body : Bytes}
    (hopen : Context.between.next c = context) (hbody : ∀ e ∈ body, ¬ context.Closes e) (hd : context.Closes d)
    (rest : Bytes) : endContext (c :: (body ++ d :: rest)) = endContext rest := by
  rw [endContext, List.foldl_cons, hopen, List.foldl_append, foldl_next_body context body hbody,
    List.foldl_cons, next_closes hcontext hd]
  rfl

/-- A context that is still open at the end. -/
theorem endContext_open {context : Context} {c : UInt8} {body : Bytes}
    (hopen : Context.between.next c = context) (hbody : ∀ e ∈ body, ¬ context.Closes e) :
    endContext (c :: body) = context := by
  rw [endContext, List.foldl_cons, hopen, foldl_next_body context body hbody]

theorem endContext_delimiter {d : UInt8} (hd : IsDelimiter d) (rest : Bytes) :
    endContext (d :: rest) = endContext rest := by
  rw [endContext, List.foldl_cons, next_delimiter hd]
  rfl

/-- Behind a token or a comment the text goes on between tokens. -/
theorem endContext_of_finds {xs : Bytes} {t : ParsedToken} (h : Finds xs t) (heof : t.type ≠ .eof)
    (herror : t.type ≠ .error) : endContext xs = endContext t.rest := by
  cases h with
  | nothing => exact absurd rfl heof
  | opening rest => rfl
  | closing rest => rfl
  | stop rest => rfl
  | quoted q body rest hq hbody =>
      rcases hq with rfl | rfl
      · exact endContext_closed (by decide : Context.doubleQuoted ≠ .between) rfl (forall_ne_of_notMem hbody) rfl rest
      · exact endContext_closed (by decide : Context.singleQuoted ≠ .between) rfl (forall_ne_of_notMem hbody) rfl rest
  | openQuote q body hq hbody => exact absurd rfl herror
  | word c body d rest hc hbody hd =>
      rw [endContext_delimiter hd]
      exact endContext_closed (by decide : Context.word ≠ .between) (next_wordStart hc) hbody hd rest
  | lastWord c body hc hbody => exact absurd rfl heof
  | comment body d rest hbody hd =>
      exact endContext_closed (by decide : Context.comment ≠ .between) rfl hbody hd rest
  | lastComment body hbody => exact absurd rfl heof

/-! ### Covers, from the left -/

/-- The text of a token is no white space and no comment. -/
def Begins (text : Bytes) : Prop := ∃ c rest, text = c :: rest ∧ ¬ IsSpace c ∧ c ≠ hash

theorem begins_of_isToken {v : Bytes} (h : IsToken v) : Begins v := by
  cases h with
  | word c body hc _ => exact ⟨c, body, rfl, hc.1, hc.2.2.1⟩
  | quoted q body hq _ => rcases hq with rfl | rfl <;> exact ⟨_, _, rfl, by decide, by decide⟩

theorem begins_lexemeText {l : Lexeme Bytes} (h : ∀ v, l = .word v → IsToken v) : Begins (lexemeText l) := by
  cases l with
  | word v => exact begins_of_isToken (h v rfl)
  | stop => exact ⟨semicolon, [], rfl, by decide, by decide⟩
  | opening => exact ⟨openBrace, [], rfl, by decide, by decide⟩
  | closing => exact ⟨closeBrace, [], rfl, by decide, by decide⟩

variable {texts : List Bytes} {rest : Bytes}

theorem covers_space_iff (htexts : ∀ t ∈ texts, Begins t) {c : UInt8} (hc : IsSpace c) :
    Covers (c :: rest) texts ↔ Covers rest texts := by
  refine ⟨fun h => ?_, .space c rest texts hc⟩
  generalize hxs : c :: rest = xs at h
  cases h with
  | nil => cases hxs
  | space d rest' _ _ hrest => exact (List.cons.inj hxs).2 ▸ hrest
  | comment body d rest' _ _ _ _ =>
      rw [(List.cons.inj hxs).1] at hc
      exact absurd hc (by decide)
  | lastComment body _ =>
      rw [(List.cons.inj hxs).1] at hc
      exact absurd hc (by decide)
  | token text rest' texts' _ =>
      obtain ⟨d, tail, rfl, hd, -⟩ := htexts text (by simp)
      rw [(List.cons.inj hxs).1] at hc
      exact absurd hc hd

theorem covers_spaces_iff (htexts : ∀ t ∈ texts, Begins t) {gap : Bytes} (hgap : ∀ c ∈ gap, IsSpace c) :
    Covers (gap ++ rest) texts ↔ Covers rest texts := by
  induction gap with
  | nil => rfl
  | cons c gap ih =>
      rw [List.cons_append, covers_space_iff htexts (hgap c (by simp))]
      exact ih fun d hd => hgap d (by simp [hd])

/-- The first byte of a class is where it is. -/
theorem rest_eq_of_first {p : UInt8 → Prop} {body body' rest' : Bytes} {d d' : UInt8}
    (h : body ++ d :: rest = body' ++ d' :: rest') (hbody : ∀ c ∈ body, ¬ p c) (hbody' : ∀ c ∈ body', ¬ p c)
    (hd : p d) (hd' : p d') : rest = rest' := by
  induction body generalizing body' with
  | nil =>
      rcases body' with _ | ⟨c, body'⟩
      · exact (List.cons.inj h).2
      · exact absurd ((List.cons.inj h).1 ▸ hd) (hbody' c (by simp))
  | cons c body ih =>
      rcases body' with _ | ⟨c', body'⟩
      · exact absurd ((List.cons.inj h).1 ▸ hd') (hbody c (by simp))
      · exact ih (List.cons.inj h).2 (fun e he => hbody e (by simp [he])) fun e he => hbody' e (by simp [he])

theorem covers_comment_iff (htexts : ∀ t ∈ texts, Begins t) {body : Bytes} {d : UInt8}
    (hbody : ∀ e ∈ body, ¬ IsLineEnd e) (hd : IsLineEnd d) :
    Covers (hash :: (body ++ d :: rest)) texts ↔ Covers rest texts := by
  refine ⟨fun h => ?_, .comment body d rest texts hbody hd⟩
  generalize hxs : hash :: (body ++ d :: rest) = xs at h
  cases h with
  | nil => cases hxs
  | space c rest' _ hc _ =>
      rw [← (List.cons.inj hxs).1] at hc
      exact absurd hc (by decide)
  | comment body' d' rest' _ hbody' hd' hrest =>
      exact rest_eq_of_first (List.cons.inj hxs).2 hbody hbody' hd hd' ▸ hrest
  | lastComment body' hbody' =>
      have hmem : d ∈ body' := by simp [← (List.cons.inj hxs).2]
      exact absurd hd (hbody' d hmem)
  | token text rest' texts' _ =>
      obtain ⟨c, tail, rfl, -, hc⟩ := htexts text (by simp)
      exact absurd (List.cons.inj hxs).1.symm hc

theorem covers_token_iff {text : Bytes} (htext : Begins text) :
    Covers (text ++ rest) (text :: texts) ↔ Covers rest texts := by
  refine ⟨fun h => ?_, .token text rest texts⟩
  generalize hxs : text ++ rest = xs at h
  obtain ⟨c, tail, rfl, hspace, hhash⟩ := htext
  cases h with
  | space d rest' _ hd _ => exact absurd ((List.cons.inj hxs).1 ▸ hd) hspace
  | comment body d rest' _ _ _ _ => exact absurd (List.cons.inj hxs).1 hhash
  | token _ rest' _ hrest => exact (List.append_cancel_left hxs) ▸ hrest

/-- A word that nothing ends is not covered. -/
theorem not_covers_lastWord {c : UInt8} (hc : IsWordStart c) (body : Bytes) : ¬ Covers (c :: body) [] := by
  intro h
  generalize hxs : c :: body = xs at h
  generalize hnone : ([] : List Bytes) = texts at h
  cases h with
  | nil => cases hxs
  | space d _ _ hd _ => exact hc.1 ((List.cons.inj hxs).1 ▸ hd)
  | comment _ _ _ _ _ _ _ => exact hc.2.2.1 (List.cons.inj hxs).1
  | lastComment _ _ => exact hc.2.2.1 (List.cons.inj hxs).1
  | token _ _ _ _ => cases hnone

/-! ### Covered inputs -/

theorem begins_texts (input : Bytes) : ∀ t ∈ (tokens input).1.map lexemeText, Begins t := by
  intro t ht
  obtain ⟨l, hl, rfl⟩ := List.mem_map.mp ht
  exact begins_lexemeText fun v hv => isToken_of_mem_tokens input v (hv ▸ hl)

theorem covers_of_comment {xs : Bytes} {t : ParsedToken} (h : Finds xs t) (htype : t.type = .comment) :
    Covers xs ((tokens t.rest).1.map lexemeText) ↔ Covers t.rest ((tokens t.rest).1.map lexemeText) := by
  cases h with
  | comment body d rest hbody hd => exact covers_comment_iff (begins_texts rest) hbody hd
  | _ => cases htype

theorem covers_of_token {xs : Bytes} {t : ParsedToken} {l : Lexeme Bytes} (h : Finds xs t)
    (hl : lexeme t.type t.value = some l) : Covers xs (lexemeText l :: texts) ↔ Covers t.rest texts := by
  have hbegins : Begins (lexemeText l) := begins_lexemeText fun v hv => h.isToken (hv ▸ hl)
  obtain ⟨htext, happ⟩ : lexemeText l = t.value ∧ xs = t.value ++ t.rest := by
    cases h <;> simp_all [lexeme] <;> subst hl <;> simp [lexemeText]
  rw [happ, ← htext]
  exact covers_token_iff hbegins

/-- The tokens of an input whose tokens end with it cover it unless it ends inside an unquoted word. -/
theorem covers_tokens_iff (input : Bytes) : (tokens input).2 = .eof →
    (Covers input ((tokens input).1.map lexemeText) ↔ endContext input ≠ .word) := by
  refine tokens_induct (P := fun xs ts => ts.2 = .eof →
    (Covers xs (ts.1.map lexemeText) ↔ endContext xs ≠ .word)) ?_ ?_ ?_ ?_ input
  · intro gap xs hgap h heof
    rw [covers_spaces_iff (begins_texts xs) hgap, endContext_spaces hgap]
    exact h heof
  · intro xs t hfinds _ heof
    cases hfinds with
    | nothing => simp [Covers.nil, endContext]
    | openQuote q body hq hbody => cases heof
    | lastWord c body hc hbody =>
        have hword : endContext (c :: body) = .word := endContext_open (next_wordStart hc) hbody
        simp [hword, not_covers_lastWord hc body]
    | lastComment body hbody =>
        have hcomment : endContext (hash :: body) = .comment :=
          endContext_open (by rfl : Context.between.next hash = .comment) hbody
        simp [hcomment, Covers.lastComment body hbody]
    | _ => cases heof
  · intro xs t hfinds htype h heof
    rw [covers_of_comment hfinds htype, endContext_of_finds hfinds (by simp [htype]) (by simp [htype])]
    exact h heof
  · intro xs t l hfinds hl h heof
    have hnotEnd : t.type ≠ .eof ∧ t.type ≠ .error := by
      cases hfinds <;> simp_all [lexeme]
    rw [endContext_of_finds hfinds hnotEnd.1 hnotEnd.2, List.map_cons, covers_of_token hfinds hl]
    exact h heof

/-- **What `Parse` drops**: an accepted input is made of the tokens of its tree, white space and comments if
and only if it does not end inside an unquoted word. -/
theorem parse_covers_iff (input : Bytes) (config : NginxConfig) (h : parse input = (true, config)) :
    Covers input ((configLexemes config).map lexemeText) ↔ endContext input ≠ .word := by
  obtain ⟨heof, hbuild⟩ := parse_eq_true.mp h
  have hlexemes : configLexemes config = (tokens input).1 := (Builder.build_eq_some.mp hbuild).2
  rw [hlexemes]
  exact covers_tokens_iff input heof

/-- An input that ends in a comment is covered. -/
theorem parse_covers_comment : Covers (bytes "a;#b") [bytes "a", bytes ";"] :=
  (parse_covers_iff (bytes "a;#b") [⟨[bytes "a"], none⟩] rfl).mpr (by decide)

/-- The word behind the last statement is accepted and in no token. -/
theorem parse_drops_word :
    parse (bytes "a;b") = (true, [⟨[bytes "a"], none⟩]) ∧ ¬ Covers (bytes "a;b") [bytes "a", bytes ";"] := by
  refine ⟨rfl, fun h => ?_⟩
  exact (covers_tokens_iff (bytes "a;b") rfl).mp h (by decide)

end NginxConfigParser

end WebServer
