import WebServer.Config.Lex

/-!
# Printing a config and parsing it again

The text that `ToString` writes has the tokens of the tree, at every depth: a token is followed by a space or
a mark, either of which ends it, and the rest is white space (`tokens_toText`). So `Parse` builds the tree
again.
-/

namespace WebServer

open Lib

namespace NginxConfigParser

variable {depth : Nat} {rest : Bytes}

theorem isSpace_indent : ∀ c ∈ indent depth, IsSpace c := by
  intro c hc
  obtain ⟨piece, hpiece, hmem⟩ := List.mem_flatten.mp hc
  rw [List.eq_of_mem_replicate hpiece, show bytes "  " = [sp, sp] from rfl] at hmem
  obtain rfl : c = sp := by simpa using hmem
  exact Or.inl rfl

/-! ### Marks and white space -/

theorem tokens_stop (rest : Bytes) : tokens (semicolon :: rest) = (.stop :: (tokens rest).1, (tokens rest).2) :=
  tokens_of_token (.stop rest) rfl

theorem tokens_opening (rest : Bytes) :
    tokens (openBrace :: rest) = (.opening :: (tokens rest).1, (tokens rest).2) :=
  tokens_of_token (.opening rest) rfl

theorem tokens_closing (rest : Bytes) :
    tokens (closeBrace :: rest) = (.closing :: (tokens rest).1, (tokens rest).2) :=
  tokens_of_token (.closing rest) rfl

theorem tokens_lf (rest : Bytes) : tokens (lf :: rest) = tokens rest :=
  tokens_spaces (by simp [IsSpace] : ∀ c ∈ [lf], IsSpace c) rest

theorem tokens_sp (rest : Bytes) : tokens (sp :: rest) = tokens rest :=
  tokens_spaces (by simp [IsSpace] : ∀ c ∈ [sp], IsSpace c) rest

/-! ### Tokens in front of a delimiter -/

theorem tokens_isToken {v : Bytes} (hv : IsToken v) {d : UInt8} (hd : IsDelimiter d) (rest : Bytes) :
    tokens (v ++ d :: rest) = (.word v :: (tokens (d :: rest)).1, (tokens (d :: rest)).2) := by
  cases hv with
  | word c body hc hbody => exact tokens_of_token (.word c body d rest hc hbody hd) rfl
  | quoted q body hq hbody =>
      have hfinds := Finds.quoted q body (d :: rest) hq hbody
      rw [List.cons_append, List.append_assoc, List.singleton_append]
      exact tokens_of_token hfinds rfl

/-- The tokens of a statement, with a space between them and a delimiter behind. -/
theorem tokens_joinTokens {d : UInt8} (hd : IsDelimiter d) (rest : Bytes) (vs : List Bytes)
    (hvs : ∀ v ∈ vs, IsToken v) :
    tokens (joinTokens vs ++ d :: rest) =
      (vs.map .word ++ (tokens (d :: rest)).1, (tokens (d :: rest)).2) := by
  cases vs with
  | nil => rfl
  | cons v vs =>
      have hv := hvs v (by simp)
      induction vs generalizing v with
      | nil =>
          rw [joinTokens, List.flatMap_nil, List.append_nil]
          exact tokens_isToken hv hd rest
      | cons w vs ih =>
          have htail := ih w (fun u hu => hvs u (by simp_all)) (hvs w (by simp))
          have hspace : tokens (sp :: (joinTokens (w :: vs) ++ d :: rest)) = _ :=
            tokens_sp (joinTokens (w :: vs) ++ d :: rest)
          have hjoin : joinTokens (v :: w :: vs) ++ d :: rest =
              v ++ sp :: (joinTokens (w :: vs) ++ d :: rest) := by
            simp [joinTokens]
          rw [hjoin, tokens_isToken hv (Or.inl rfl), hspace, htail]
          rfl

/-! ### Whole trees -/

/-- The text of a tree has the tokens of the tree, whatever follows it. -/
theorem tokens_toText {config : NginxConfig} (hproper : Proper config)
    (hwords : ∀ v, .word v ∈ configLexemes config → IsToken v) (depth : Nat) (rest : Bytes) :
    tokens (NginxConfig.toText config depth ++ rest) =
      (configLexemes config ++ (tokens rest).1, (tokens rest).2) := by
  induction hproper generalizing depth rest with
  | nil => rfl
  | simple vs config hne hproper ih =>
      rw [configLexemes_cons, lexemes_simple] at hwords
      have hvs : ∀ v ∈ vs, IsToken v := fun v hv => hwords v (by simp [hv])
      have htail := ih (fun v hv => hwords v (by simp [hv])) depth rest
      have htext : NginxConfig.toText (⟨vs, none⟩ :: config) depth ++ rest =
          indent depth ++ (joinTokens vs ++ semicolon :: lf :: (NginxConfig.toText config depth ++ rest)) := by
        simp [NginxConfig.toText, NginxConfigStatement.toText, NginxConfigStatement.endText, bytes]
      rw [htext, tokens_spaces isSpace_indent, tokens_joinTokens (by simp [IsDelimiter]) _ vs hvs, tokens_stop,
        tokens_lf, htail, configLexemes_cons, lexemes_simple]
      simp
  | block vs child config hne hchild hproper ihchild ih =>
      rw [configLexemes_cons, lexemes_block] at hwords
      have hvs : ∀ v ∈ vs, IsToken v := fun v hv => hwords v (by simp [hv])
      have htail := ih (fun v hv => hwords v (by simp [hv])) depth rest
      have hinner := ihchild (fun v hv => hwords v (by simp [hv])) (depth + 1)
        (indent depth ++ (closeBrace :: lf :: (NginxConfig.toText config depth ++ rest)))
      have hopen : bytes " \x7b\n" = [sp, openBrace, lf] := rfl
      have hclose : bytes "\x7d" = [closeBrace] := rfl
      have htext : NginxConfig.toText (⟨vs, some child⟩ :: config) depth ++ rest =
          indent depth ++ (joinTokens vs ++ sp :: openBrace :: lf :: (NginxConfig.toText child (depth + 1) ++
            (indent depth ++ (closeBrace :: lf :: (NginxConfig.toText config depth ++ rest))))) := by
        simp [NginxConfig.toText, NginxConfigStatement.toText, NginxConfigStatement.endText, hopen, hclose]
      rw [htext, tokens_spaces isSpace_indent, tokens_joinTokens (by simp [IsDelimiter]) _ vs hvs, tokens_sp,
        tokens_opening, tokens_lf, hinner, tokens_spaces isSpace_indent, tokens_closing, tokens_lf, htail,
        configLexemes_cons, lexemes_block]
      simp

/-- **Parsing the text of a parsed config gives it back**, whatever the depth it is written at. -/
theorem parse_toText (input : Bytes) (config : NginxConfig) (depth : Nat)
    (h : parse input = (true, config)) : parse (NginxConfig.toText config depth) = (true, config) := by
  obtain ⟨-, hbuild⟩ := parse_eq_true.mp h
  obtain ⟨hproper, hlexemes⟩ := Builder.build_eq_some.mp hbuild
  have hwords : ∀ v, .word v ∈ configLexemes config → IsToken v := by
    rw [hlexemes]
    exact isToken_of_mem_tokens input
  have htokens := tokens_toText hproper hwords depth []
  rw [List.append_nil] at htokens
  refine parse_eq_true.mpr ⟨?_, ?_⟩
  · rw [htokens]
    rfl
  · rw [htokens, show (tokens []).1 = [] from rfl, List.append_nil]
    exact Builder.build_eq_some.mpr ⟨hproper, rfl⟩

theorem parse_toText_quoted :
    parse (NginxConfig.toText [⟨[bytes "location", bytes "'a b'"], some [⟨[bytes "root"], none⟩]⟩] 1) =
      (true, [⟨[bytes "location", bytes "'a b'"], some [⟨[bytes "root"], none⟩]⟩]) :=
  parse_toText (bytes "location 'a b'\x7broot;\x7d") _ 1 (by rfl)

end NginxConfigParser

end WebServer
