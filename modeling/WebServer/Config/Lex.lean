import WebServer.Config.Parse

/-!
# The tokens of a config

`Finds` is the lexical grammar: what a call of `ParseToken` returns, by what stands in the input behind the
white space. Every input falls under one of its cases (`parseToken_finds`), and every token that does not end
the input takes at least a byte off it (`Finds.rest_lt`), so the loops over the tokens never run out of rounds
(`tokensLoop_of_lt`, `parseLoop_of_lt`).
-/

namespace WebServer

open Lib

namespace NginxConfigParser

/-! ### Bytes -/

def IsSpace (c : UInt8) : Prop := c = sp ∨ c = ht ∨ c = lf ∨ c = cr

/-- What ends an unquoted word; a carriage return does not. -/
def IsDelimiter (c : UInt8) : Prop :=
  c = sp ∨ c = ht ∨ c = lf ∨ c = semicolon ∨ c = openBrace ∨ c = closeBrace

def IsLineEnd (c : UInt8) : Prop := c = lf ∨ c = cr

def IsQuote (c : UInt8) : Prop := c = doubleQuote ∨ c = singleQuote

def IsWordStart (c : UInt8) : Prop :=
  ¬ IsSpace c ∧ ¬ IsQuote c ∧ c ≠ hash ∧ c ≠ semicolon ∧ c ≠ openBrace ∧ c ≠ closeBrace

instance (c : UInt8) : Decidable (IsSpace c) := inferInstanceAs (Decidable (_ ∨ _))
instance (c : UInt8) : Decidable (IsDelimiter c) := inferInstanceAs (Decidable (_ ∨ _))
instance (c : UInt8) : Decidable (IsLineEnd c) := inferInstanceAs (Decidable (_ ∨ _))
instance (c : UInt8) : Decidable (IsQuote c) := inferInstanceAs (Decidable (_ ∨ _))
instance (c : UInt8) : Decidable (IsWordStart c) := inferInstanceAs (Decidable (_ ∧ _))

/-! ### The lexical grammar -/

/-- A call of `ParseToken` that finds the input in front of it returns the token. -/
inductive Finds : Bytes → ParsedToken → Prop
  | nothing : Finds [] ⟨.eof, [], []⟩
  | opening (rest : Bytes) : Finds (openBrace :: rest) ⟨.startBlock, [openBrace], rest⟩
  | closing (rest : Bytes) : Finds (closeBrace :: rest) ⟨.endBlock, [closeBrace], rest⟩
  | stop (rest : Bytes) : Finds (semicolon :: rest) ⟨.statementEnd, [semicolon], rest⟩
  | quoted (q : UInt8) (body rest : Bytes) : IsQuote q → q ∉ body →
    Finds (q :: (body ++ q :: rest)) ⟨.normal, q :: (body ++ [q]), rest⟩
  | openQuote (q : UInt8) (body : Bytes) : IsQuote q → q ∉ body → Finds (q :: body) ⟨.error, q :: body, []⟩
  | word (c : UInt8) (body : Bytes) (d : UInt8) (rest : Bytes) : IsWordStart c →
    (∀ e ∈ body, ¬ IsDelimiter e) → IsDelimiter d →
    Finds (c :: (body ++ d :: rest)) ⟨.normal, c :: body, d :: rest⟩
  | lastWord (c : UInt8) (body : Bytes) : IsWordStart c → (∀ e ∈ body, ¬ IsDelimiter e) →
    Finds (c :: body) ⟨.eof, c :: body, []⟩
  | comment (body : Bytes) (d : UInt8) (rest : Bytes) : (∀ e ∈ body, ¬ IsLineEnd e) → IsLineEnd d →
    Finds (hash :: (body ++ d :: rest)) ⟨.comment, hash :: body, rest⟩
  | lastComment (body : Bytes) : (∀ e ∈ body, ¬ IsLineEnd e) → Finds (hash :: body) ⟨.eof, hash :: body, []⟩

/-- What ends a token in the states that collect one. -/
def Stops : TokenParserState → UInt8 → Prop
  | .initialWhitespace, _ => True
  | .singleQuote, c => c = singleQuote
  | .doubleQuote, c => c = doubleQuote
  | .tokenTypeComment, c => IsLineEnd c
  | .tokenTypeNormal, c => IsDelimiter c

theorem loop_collect (state : TokenParserState) (value body rest : Bytes)
    (hbody : ∀ c ∈ body, ¬ Stops state c) :
    parseTokenLoop state value (body ++ rest) = parseTokenLoop state (value ++ body) rest := by
  induction body generalizing value with
  | nil => simp
  | cons c body ih =>
      have hc := hbody c (by simp)
      have hstep : parseTokenLoop state value (c :: (body ++ rest)) =
          parseTokenLoop state (value ++ [c]) (body ++ rest) := by
        cases state with
        | initialWhitespace => exact absurd trivial hc
        | singleQuote => exact if_neg hc
        | doubleQuote => exact if_neg hc
        | tokenTypeComment => exact if_neg hc
        | tokenTypeNormal => exact if_neg hc
      rw [List.cons_append, hstep, ih _ fun d hd => hbody d (by simp [hd]), List.append_assoc,
        List.singleton_append]

theorem parseToken_spaces {gap : Bytes} (hgap : ∀ c ∈ gap, IsSpace c) (rest : Bytes) :
    parseToken (gap ++ rest) = parseToken rest := by
  induction gap with
  | nil => rfl
  | cons c gap ih =>
      have hc : IsSpace c := hgap c (by simp)
      rw [← ih fun d hd => hgap d (by simp [hd])]
      rcases hc with rfl | rfl | rfl | rfl <;> rfl

theorem parseToken_wordStart {c : UInt8} (hc : IsWordStart c) (rest : Bytes) :
    parseToken (c :: rest) = parseTokenLoop .tokenTypeNormal [c] rest := by
  obtain ⟨hspace, hquote, hhash, hsemicolon, hopen, hclose⟩ := hc
  rw [IsSpace, not_or, not_or, not_or] at hspace
  rw [IsQuote, not_or] at hquote
  simp [parseToken, parseTokenLoop, hspace, hquote, hhash, hsemicolon, hopen, hclose]

theorem forall_ne_of_notMem {q : UInt8} {body : Bytes} (h : q ∉ body) : ∀ c ∈ body, ¬ c = q :=
  fun _ hc heq => h (heq ▸ hc)

theorem parseToken_of_finds {xs : Bytes} {t : ParsedToken} (h : Finds xs t) : parseToken xs = t := by
  cases h with
  | nothing => rfl
  | opening rest => rfl
  | closing rest => rfl
  | stop rest => rfl
  | quoted q body rest hq hbody =>
      rcases hq with rfl | rfl
      · show parseTokenLoop .doubleQuote [doubleQuote] (body ++ doubleQuote :: rest) = _
        rw [loop_collect .doubleQuote _ _ _ (forall_ne_of_notMem hbody)]
        simp [parseTokenLoop]
      · show parseTokenLoop .singleQuote [singleQuote] (body ++ singleQuote :: rest) = _
        rw [loop_collect .singleQuote _ _ _ (forall_ne_of_notMem hbody)]
        simp [parseTokenLoop]
  | openQuote q body hq hbody =>
      rcases hq with rfl | rfl
      · show parseTokenLoop .doubleQuote [doubleQuote] body = _
        rw [← List.append_nil body, loop_collect .doubleQuote _ _ _ (forall_ne_of_notMem hbody)]
        simp [parseTokenLoop]
      · show parseTokenLoop .singleQuote [singleQuote] body = _
        rw [← List.append_nil body, loop_collect .singleQuote _ _ _ (forall_ne_of_notMem hbody)]
        simp [parseTokenLoop]
  | word c body d rest hc hbody hd =>
      rw [parseToken_wordStart hc, loop_collect _ _ _ _ hbody]
      exact if_pos hd
  | lastWord c body hc hbody =>
      rw [parseToken_wordStart hc, ← List.append_nil body, loop_collect _ _ _ _ hbody]
      simp [parseTokenLoop]
  | comment body d rest hbody hd =>
      show parseTokenLoop .tokenTypeComment [hash] (body ++ d :: rest) = _
      rw [loop_collect _ _ _ _ hbody]
      exact if_pos hd
  | lastComment body hbody =>
      show parseTokenLoop .tokenTypeComment [hash] body = _
      rw [← List.append_nil body, loop_collect _ _ _ _ hbody]
      simp [parseTokenLoop]

/-- A text ends before it comes to a byte of a class, or holds a first one. -/
theorem exists_first (p : UInt8 → Prop) [DecidablePred p] (xs : Bytes) :
    (∀ c ∈ xs, ¬ p c) ∨ ∃ body d rest, xs = body ++ d :: rest ∧ (∀ c ∈ body, ¬ p c) ∧ p d := by
  induction xs with
  | nil => exact Or.inl (by simp)
  | cons c xs ih =>
      by_cases hc : p c
      · exact Or.inr ⟨[], c, xs, rfl, by simp, hc⟩
      rcases ih with hnone | ⟨body, d, rest, rfl, hbody, hd⟩
      · exact Or.inl (by simpa [hc] using hnone)
      · exact Or.inr ⟨c :: body, d, rest, rfl, by simpa [hc] using hbody, hd⟩

/-- Behind the white space, every input falls under a case of the lexical grammar. -/
theorem exists_finds (xs : Bytes) (h : ∀ c rest, xs = c :: rest → ¬ IsSpace c) : ∃ t, Finds xs t := by
  rcases xs with _ | ⟨c, rest⟩
  · exact ⟨_, .nothing⟩
  have hspace := h c rest rfl
  by_cases hquote : IsQuote c
  · rcases exists_first (· = c) rest with hnone | ⟨body, d, after, rfl, hbody, rfl⟩
    · exact ⟨_, .openQuote c rest hquote fun hmem => hnone c hmem rfl⟩
    · exact ⟨_, .quoted d body after hquote fun hmem => hbody d hmem rfl⟩
  by_cases hhash : c = hash
  · subst hhash
    rcases exists_first IsLineEnd rest with hnone | ⟨body, d, after, rfl, hbody, hd⟩
    · exact ⟨_, .lastComment rest hnone⟩
    · exact ⟨_, .comment body d after hbody hd⟩
  by_cases hsemicolon : c = semicolon
  · subst hsemicolon
    exact ⟨_, .stop rest⟩
  by_cases hopen : c = openBrace
  · subst hopen
    exact ⟨_, .opening rest⟩
  by_cases hclose : c = closeBrace
  · subst hclose
    exact ⟨_, .closing rest⟩
  have hc : IsWordStart c := ⟨hspace, hquote, hhash, hsemicolon, hopen, hclose⟩
  rcases exists_first IsDelimiter rest with hnone | ⟨body, d, after, rfl, hbody, hd⟩
  · exact ⟨_, .lastWord c rest hc hnone⟩
  · exact ⟨_, .word c body d after hc hbody hd⟩

theorem parseToken_finds (input : Bytes) :
    ∃ gap xs, input = gap ++ xs ∧ (∀ c ∈ gap, IsSpace c) ∧ Finds xs (parseToken input) := by
  rcases exists_first (fun c => ¬ IsSpace c) input with hall | ⟨gap, d, rest, rfl, hgap, hd⟩
  · have hspaces : ∀ c ∈ input, IsSpace c := fun c hc => not_not.mp (hall c hc)
    refine ⟨input, [], by simp, hspaces, ?_⟩
    have hparse := parseToken_spaces hspaces []
    rw [List.append_nil] at hparse
    rw [hparse]
    exact .nothing
  · have hspaces : ∀ c ∈ gap, IsSpace c := fun c hc => not_not.mp (hgap c hc)
    refine ⟨gap, d :: rest, rfl, hspaces, ?_⟩
    obtain ⟨t, ht⟩ := exists_finds (d :: rest) fun c _ heq => (List.cons.inj heq).1 ▸ hd
    rw [parseToken_spaces hspaces, parseToken_of_finds ht]
    exact ht

/-! ### Rounds -/

/-- A token that does not end the input takes a byte off it. -/
theorem Finds.rest_lt {xs : Bytes} {t : ParsedToken} (h : Finds xs t) (heof : t.type ≠ .eof)
    (herror : t.type ≠ .error) : t.rest.length < xs.length := by
  cases h with
  | nothing => exact absurd rfl heof
  | openQuote q body hq hbody => exact absurd rfl herror
  | lastWord c body hc hbody => exact absurd rfl heof
  | lastComment body hbody => exact absurd rfl heof
  | _ => simp <;> omega

theorem parseToken_rest_lt {input : Bytes} (heof : (parseToken input).type ≠ .eof)
    (herror : (parseToken input).type ≠ .error) : (parseToken input).rest.length < input.length := by
  obtain ⟨gap, xs, happ, -, hfinds⟩ := parseToken_finds input
  have hlt := hfinds.rest_lt heof herror
  have hlen := congrArg List.length happ
  rw [List.length_append] at hlen
  omega

/-- More rounds than the input has bytes are enough. -/
theorem tokensLoop_of_lt {rounds : Nat} {input : Bytes} (h : input.length < rounds) :
    tokensLoop rounds input = tokens input := by
  induction rounds using Nat.strong_induction_on generalizing input with
  | _ rounds ih =>
      obtain ⟨rounds, rfl⟩ : ∃ n, rounds = n + 1 := ⟨rounds - 1, by omega⟩
      rw [tokens]
      simp only [tokensLoop]
      by_cases herror : (parseToken input).type = .error
      · rw [if_pos herror, if_pos herror]
      by_cases heof : (parseToken input).type = .eof
      · simp [heof]
      have hlt := parseToken_rest_lt heof herror
      have hleft : tokensLoop rounds (parseToken input).rest = tokens (parseToken input).rest :=
        ih rounds (by omega) (by omega)
      by_cases hrounds : rounds = input.length
      · rw [hrounds]
      · have hright : tokensLoop input.length (parseToken input).rest = tokens (parseToken input).rest :=
          ih input.length (by omega) hlt
        rw [hleft, hright]

/-- The tokens of an input, call by call. -/
theorem tokens_eq (input : Bytes) :
    tokens input =
      if (parseToken input).type = .error then ([], .error)
      else if (parseToken input).type = .comment then tokens (parseToken input).rest
      else if (parseToken input).type = .eof then ([], .eof)
      else
        match lexeme (parseToken input).type (parseToken input).value with
        | none => ([], .error)
        | some l => (l :: (tokens (parseToken input).rest).1, (tokens (parseToken input).rest).2) := by
  conv_lhs => rw [tokens]
  simp only [tokensLoop]
  by_cases herror : (parseToken input).type = .error
  · rw [if_pos herror, if_pos herror]
  by_cases heof : (parseToken input).type = .eof
  · simp [heof]
  exact tokensLoop_of_lt (parseToken_rest_lt heof herror) ▸ rfl

theorem parseLoop_of_lt {rounds : Nat} {input : Bytes} (h : input.length < rounds) (s : ParseState) :
    parseLoop rounds s input = parseLoop (input.length + 1) s input := by
  induction rounds using Nat.strong_induction_on generalizing input s with
  | _ rounds ih =>
      obtain ⟨rounds, rfl⟩ : ∃ n, rounds = n + 1 := ⟨rounds - 1, by omega⟩
      simp only [parseLoop]
      by_cases herror : (parseToken input).type = .error
      · rw [if_pos herror, if_pos herror]
      by_cases heof : (parseToken input).type = .eof
      · simp [heof]
      have hlt := parseToken_rest_lt heof herror
      have hrest : ∀ s', parseLoop rounds s' (parseToken input).rest =
          parseLoop input.length s' (parseToken input).rest := by
        intro s'
        by_cases hrounds : rounds = input.length
        · rw [hrounds]
        · rw [ih rounds (by omega) (by omega), ih input.length (by omega) hlt]
      simp only [hrest]

/-! ### The tokens, one after the other -/

theorem tokens_spaces {gap : Bytes} (hgap : ∀ c ∈ gap, IsSpace c) (rest : Bytes) :
    tokens (gap ++ rest) = tokens rest := by
  rw [tokens_eq (gap ++ rest), tokens_eq rest, parseToken_spaces hgap]

theorem tokens_of_finish {xs : Bytes} {t : ParsedToken} (h : Finds xs t)
    (hfinish : t.type = .eof ∨ t.type = .error) : tokens xs = ([], t.type) := by
  rw [tokens_eq, parseToken_of_finds h]
  rcases hfinish with htype | htype <;> simp [htype]

theorem tokens_of_comment {xs : Bytes} {t : ParsedToken} (h : Finds xs t) (htype : t.type = .comment) :
    tokens xs = tokens t.rest := by
  rw [tokens_eq, parseToken_of_finds h]
  simp [htype]

theorem tokens_of_token {xs : Bytes} {t : ParsedToken} {l : Lexeme Bytes} (h : Finds xs t)
    (hl : lexeme t.type t.value = some l) : tokens xs = (l :: (tokens t.rest).1, (tokens t.rest).2) := by
  rw [tokens_eq, parseToken_of_finds h]
  cases htype : t.type <;> rw [htype] at hl <;> simp_all [lexeme]

theorem Finds.type_cases {xs : Bytes} {t : ParsedToken} (h : Finds xs t) :
    (t.type = .eof ∨ t.type = .error) ∨ t.type = .comment ∨ ∃ l, lexeme t.type t.value = some l := by
  cases h <;> simp [lexeme]

/-- Induction over the calls of `ParseToken` on an input. -/
theorem tokens_induct {P : Bytes → List (Lexeme Bytes) × TokenType → Prop}
    (hspaces : ∀ gap xs, (∀ c ∈ gap, IsSpace c) → P xs (tokens xs) → P (gap ++ xs) (tokens xs))
    (hfinish : ∀ xs t, Finds xs t → t.type = .eof ∨ t.type = .error → P xs ([], t.type))
    (hcomment : ∀ xs t, Finds xs t → t.type = .comment → P t.rest (tokens t.rest) → P xs (tokens t.rest))
    (htoken : ∀ xs t l, Finds xs t → lexeme t.type t.value = some l → P t.rest (tokens t.rest) →
      P xs (l :: (tokens t.rest).1, (tokens t.rest).2))
    (input : Bytes) : P input (tokens input) := by
  induction hn : input.length using Nat.strong_induction_on generalizing input with
  | _ n ih =>
      obtain ⟨gap, xs, rfl, hgap, hfinds⟩ := parseToken_finds input
      generalize parseToken (gap ++ xs) = t at hfinds
      rw [tokens_spaces hgap]
      refine hspaces gap xs hgap ?_
      have hrest : t.type ≠ .eof → t.type ≠ .error → P t.rest (tokens t.rest) := by
        intro heof herror
        have hlt := hfinds.rest_lt heof herror
        rw [List.length_append] at hn
        exact ih t.rest.length (by omega) t.rest rfl
      rcases hfinds.type_cases with hend | htype | ⟨l, hl⟩
      · rw [tokens_of_finish hfinds hend]
        exact hfinish xs t hfinds hend
      · rw [tokens_of_comment hfinds htype]
        exact hcomment xs t hfinds htype (hrest (by simp [htype]) (by simp [htype]))
      · rw [tokens_of_token hfinds hl]
        refine htoken xs t l hfinds hl (hrest ?_ ?_)
        · intro heof
          rw [heof] at hl
          cases hl
        · intro herror
          rw [herror] at hl
          cases hl

/-! ### What a word is -/

/-- The texts that come back as a normal token. -/
inductive IsToken : Bytes → Prop
  | word (c : UInt8) (body : Bytes) : IsWordStart c → (∀ e ∈ body, ¬ IsDelimiter e) → IsToken (c :: body)
  | quoted (q : UInt8) (body : Bytes) : IsQuote q → q ∉ body → IsToken (q :: (body ++ [q]))

theorem IsToken.ne_nil {v : Bytes} (h : IsToken v) : v ≠ [] := by
  cases h <;> simp

theorem Finds.isToken {xs : Bytes} {t : ParsedToken} {v : Bytes} (h : Finds xs t)
    (hl : lexeme t.type t.value = some (.word v)) : IsToken v := by
  cases h with
  | quoted q body rest hq hbody =>
      obtain rfl : q :: (body ++ [q]) = v := by simpa [lexeme] using hl
      exact .quoted q body hq hbody
  | word c body d rest hc hbody hd =>
      obtain rfl : c :: body = v := by simpa [lexeme] using hl
      exact .word c body hc hbody
  | _ => simp [lexeme] at hl

theorem isToken_of_mem_tokens (input : Bytes) : ∀ v, .word v ∈ (tokens input).1 → IsToken v := by
  refine tokens_induct (P := fun _ ts => ∀ v, .word v ∈ ts.1 → IsToken v) ?_ ?_ ?_ ?_ input
  · exact fun gap xs _ h => h
  · intro xs t _ _ v hv
    simp at hv
  · exact fun xs t _ _ h => h
  · intro xs t l hfinds hl h v hv
    rcases List.mem_cons.mp hv with rfl | hv
    · exact hfinds.isToken hl
    · exact h v hv

end NginxConfigParser

end WebServer
