import WebServer.Config.Lex
import WebServer.Lib.BlockSearch

/-!
# The port of a config file

`GetPort` parses the file and goes on with whatever `Parse` has left, whether it has returned true or not. The config of
a file that is rejected is that of the tokens in front of the one that `Parse` breaks off at, with the open blocks closed
(`parseLoop_config`), and `GetConfig` finds the word that is behind `port` among these tokens (`getConfig_parse`). So the
server starts on some of the files that are rejected (`getPort_invalid_iff`).
-/

namespace WebServer

open Lib

/-- The loop of `GetConfig` over the segments of a statement, with `prev`; `none` if it does not return. -/
def segmentBehind (key : Bytes) : Bytes → List Bytes → Option Bytes
  | _, [] => none
  | prev, token :: rest => if prev = key then some token else segmentBehind key token rest

mutual

/-- What `GetConfig` returns in the round for a statement, if it returns. -/
def NginxConfigStatement.getConfig (key : Bytes) : NginxConfigStatement → Option Bytes
  | ⟨tokens, childBlock⟩ => (segmentBehind key [] tokens).or (NginxConfigStatement.inner key childBlock)
termination_by structural s => s

/-- `inner`, if it is not empty. -/
def NginxConfigStatement.inner (key : Bytes) : Option NginxConfig → Option Bytes
  | none => none
  | some child => if 0 < (NginxConfig.getConfig key child).length then some (NginxConfig.getConfig key child) else none
termination_by structural childBlock => childBlock

/-- `NginxConfig::GetConfig`. -/
def NginxConfig.getConfig (key : Bytes) : NginxConfig → Bytes
  | [] => []
  | statement :: rest =>
    match NginxConfigStatement.getConfig key statement with
    | some value => value
    | none => NginxConfig.getConfig key rest
termination_by structural config => config

end

/-- `Parse` of a file; `none` is one that cannot be opened. -/
def NginxConfigParser.parseFile : Option Bytes → Bool × NginxConfig
  | none => (false, [])
  | some input => parse input

/-- `NginxConfig::GetPort`. -/
def NginxConfig.getPort (file : Option Bytes) : Int16 × NginxConfig :=
  let config := (NginxConfigParser.parseFile file).2
  match stoi (NginxConfig.getConfig (bytes "port") config) with
  | none => (-1, config)
  | some portNum => (Int16.ofInt portNum, config)

/-- The test of `main` that ends in `Invalid port provided`. -/
def invalidPort (portNum : Int16) : Bool := decide (portNum.toInt < 0) || decide (65535 < portNum.toInt)

/-! ### Searching -/

theorem segmentBehind_eq {key : Bytes} (hkey : key ≠ []) (tokens : List Bytes) :
    segmentBehind key [] tokens = wordBehind key none (tokens.map .word) := by
  have hprev : ∀ prev, segmentBehind key prev tokens = wordBehind key (some prev) (tokens.map .word) := by
    intro prev
    induction tokens generalizing prev with
    | nil => rfl
    | cons token rest ih =>
        rw [segmentBehind, List.map_cons, wordBehind, ih]
        simp only [Option.some.injEq]
  rw [hprev]
  cases tokens with
  | nil => rfl
  | cons token rest => simp [wordBehind, Ne.symm hkey]

/-- `GetConfig` finds the word behind the key in the text of a config. -/
theorem getConfig_eq {key : Bytes} (hkey : key ≠ []) {config : NginxConfig} (hproper : Proper config)
    (hwords : ∀ v, .word v ∈ configLexemes config → v ≠ []) :
    NginxConfig.getConfig key config = (wordBehind key none (configLexemes config)).getD [] := by
  have hstop : IsMark (.stop : Lexeme Bytes) := by simp [IsMark]
  have hopening : IsMark (.opening : Lexeme Bytes) := by simp [IsMark]
  have hclosing : IsMark (.closing : Lexeme Bytes) := by simp [IsMark]
  induction hproper with
  | nil => rfl
  | simple tokens rest hne _ ih =>
      rw [configLexemes_cons, lexemes_simple] at hwords ⊢
      rw [List.append_assoc, List.singleton_append, wordBehind_append_mark hstop, NginxConfig.getConfig,
        NginxConfigStatement.getConfig, NginxConfigStatement.inner, segmentBehind_eq hkey, Option.or_none]
      cases wordBehind key none (tokens.map .word) with
      | some value => rfl
      | none => exact ih fun v hv => hwords v (List.mem_append_right _ hv)
  | block tokens child rest hne _ _ ihchild ih =>
      rw [configLexemes_cons, lexemes_block] at hwords ⊢
      have hchild : ∀ v, .word v ∈ configLexemes child → v ≠ [] := fun v hv => hwords v (by simp [hv])
      rw [List.append_assoc, List.cons_append, List.append_assoc, List.singleton_append,
        wordBehind_append_mark hopening, wordBehind_append_mark hclosing, NginxConfig.getConfig,
        NginxConfigStatement.getConfig, NginxConfigStatement.inner, segmentBehind_eq hkey, ihchild hchild]
      cases wordBehind key none (tokens.map .word) with
      | some value => rfl
      | none =>
          cases hfound : wordBehind key none (configLexemes child) with
          | some value =>
              have hlength : 0 < value.length := List.length_pos_iff.mpr (hchild value (mem_of_wordBehind hfound))
              simp [hlength]
          | none => simpa using ih fun v hv => hwords v (List.mem_append_right _ hv)

namespace NginxConfigParser

/-! ### The config of a file that is rejected -/

/-- What stands in front of the innermost block. -/
def frameLexemes (frames : List (NginxConfig × List Bytes)) : List (Lexeme Bytes) :=
  frames.reverse.flatMap fun f => configLexemes f.1 ++ (f.2.map .word ++ [.opening])

/-- A config with open blocks is written down as what has been read of it, and marks. -/
theorem configLexemes_plug (frames : List (NginxConfig × List Bytes)) (inner : NginxConfig) :
    ∃ marks : List (Lexeme Bytes), (∀ m ∈ marks, IsMark m) ∧
      configLexemes (plug frames inner) = frameLexemes frames ++ (configLexemes inner ++ marks) := by
  induction frames generalizing inner with
  | nil => exact ⟨[], by simp, by simp [plug, frameLexemes]⟩
  | cons f frames ih =>
      obtain ⟨before, tokens⟩ := f
      obtain ⟨marks, hmarks, htext⟩ := ih (before ++ [⟨tokens, some inner⟩])
      refine ⟨.closing :: marks, ?_, ?_⟩
      · intro m hm
        rcases List.mem_cons.mp hm with rfl | hm
        · simp [IsMark]
        · exact hmarks m hm
      · rw [plug, htext, configLexemes_append, configLexemes_singleton, lexemes_block]
        simp [frameLexemes]

theorem proper_plug {frames : List (NginxConfig × List Bytes)} {inner : NginxConfig}
    (hframes : ∀ f ∈ frames, Proper f.1 ∧ f.2 ≠ []) (hinner : Proper inner) : Proper (plug frames inner) := by
  induction frames generalizing inner with
  | nil => exact hinner
  | cons f frames ih =>
      obtain ⟨before, tokens⟩ := f
      obtain ⟨hbefore, htokens⟩ := hframes (before, tokens) List.mem_cons_self
      rw [plug]
      exact ih (fun f hf => hframes f (List.mem_cons_of_mem _ hf))
        (hbefore.append (.block tokens inner [] htokens hinner .nil))

/-- The config that has been built. -/
def builtConfig (b : Builder Bytes) : NginxConfig := plug b.frames (b.done ++ openStatement b.tokens)

theorem proper_builtConfig {b : Builder Bytes} (hb : b.Ok) : Proper (builtConfig b) := by
  refine proper_plug hb.frames (hb.done.append ?_)
  cases b.tokens with
  | nil => exact .nil
  | cons token tokens => exact .simple (token :: tokens) [] (by simp) .nil

theorem configLexemes_builtConfig (b : Builder Bytes) :
    ∃ marks : List (Lexeme Bytes), (∀ m ∈ marks, IsMark m) ∧ configLexemes (builtConfig b) = b.text ++ marks := by
  obtain ⟨marks, hmarks, htext⟩ := configLexemes_plug b.frames (b.done ++ openStatement b.tokens)
  have hopen : ∃ stops : List (Lexeme Bytes), (∀ m ∈ stops, IsMark m) ∧
      configLexemes (openStatement b.tokens) = b.tokens.map .word ++ stops := by
    cases b.tokens with
    | nil => exact ⟨[], by simp, rfl⟩
    | cons token tokens =>
        exact ⟨[.stop], by simp [IsMark], by rw [openStatement, configLexemes_singleton, lexemes_simple]⟩
  obtain ⟨stops, hstops, hstatement⟩ := hopen
  refine ⟨stops ++ marks, fun m hm => ?_, ?_⟩
  · exact (List.mem_append.mp hm).elim (hstops m) (hmarks m)
  · unfold builtConfig
    rw [htext, configLexemes_append, hstatement]
    simp [frameLexemes, Builder.text]

/-- The loop leaves the config of the tokens that it reads. -/
theorem parseLoop_config {s : ParseState} {b : Builder Bytes} (h : Simulates s b) (rounds : Nat) (input : Bytes) :
    ∃ b', b.run (b.readable (tokensLoop rounds input).1) = some b' ∧
      (parseLoop rounds s input).2 = builtConfig b' := by
  induction rounds generalizing s b input with
  | zero => exact ⟨b, rfl, h.config⟩
  | succ rounds ih =>
      simp only [parseLoop, tokensLoop]
      by_cases herror : (parseToken input).type = .error
      · rw [if_pos herror, if_pos herror]
        exact ⟨b, rfl, h.config⟩
      rw [if_neg herror, if_neg herror]
      by_cases hcomment : (parseToken input).type = .comment
      · rw [if_pos hcomment, if_pos hcomment]
        exact ih h _
      rw [if_neg hcomment, if_neg hcomment]
      by_cases heof : (parseToken input).type = .eof
      · rw [if_pos heof, if_pos heof]
        exact ⟨b, rfl, h.config⟩
      rw [if_neg heof, if_neg heof]
      cases hl : lexeme (parseToken input).type (parseToken input).value with
      | none =>
          rw [step_of_lexeme_eq_none hl]
          exact ⟨b, rfl, h.config⟩
      | some l =>
          obtain ⟨hbreak, hgoes⟩ := step_follows h hl
          dsimp only
          rw [Builder.readable]
          cases hstep : b.step l with
          | none =>
              rw [hbreak hstep]
              exact ⟨b, rfl, h.config⟩
          | some b₁ =>
              obtain ⟨s₁, hs₁, hsim⟩ := hgoes b₁ hstep
              obtain ⟨b', hrun, hconfig⟩ := ih hsim (parseToken input).rest
              rw [hs₁]
              refine ⟨b', ?_, hconfig⟩
              rw [Builder.run_cons, hstep]
              exact hrun

/-- `GetConfig` finds the word behind the key among the tokens that `Parse` reads. -/
theorem getConfig_parse {key : Bytes} (hkey : key ≠ []) (input : Bytes) :
    NginxConfig.getConfig key (parse input).2 =
      (wordBehind key none (Builder.readable .start (tokens input).1)).getD [] := by
  obtain ⟨b, hrun, hconfig⟩ := parseLoop_config simulates_start (input.length + 1) input
  obtain ⟨htext, hok⟩ := Builder.run_spec hrun
  obtain ⟨marks, hmarks, hlexemes⟩ := configLexemes_builtConfig b
  have hread : b.text = Builder.readable .start (tokens input).1 := by
    rw [htext]
    rfl
  have hwords : ∀ v, .word v ∈ configLexemes (builtConfig b) → v ≠ [] := by
    intro v hv
    rw [hlexemes] at hv
    rcases List.mem_append.mp hv with hv | hv
    · rw [hread] at hv
      exact (isToken_of_mem_tokens input v (Builder.readable_subset _ _ hv)).ne_nil
    · exact absurd rfl (hmarks _ hv v)
  unfold parse
  rw [hconfig, getConfig_eq hkey (proper_builtConfig (hok Builder.ok_start)) hwords, hlexemes,
    wordBehind_append_marks hmarks, hread]

end NginxConfigParser

/-! ### The port -/

open NginxConfigParser

/-- The word behind `port` among the tokens of a file that `Parse` reads. -/
def portWord (file : Option Bytes) : Option Bytes :=
  file.bind fun input => wordBehind (bytes "port") none (Builder.readable .start (tokens input).1)

theorem toInt16_neg_iff (n : Int) : (Int16.ofInt n).toInt < 0 ↔ 2 ^ 15 ≤ n % 2 ^ 16 := by
  have hsize : (Int16.size : Int) = 2 ^ 16 := rfl
  rw [Int16.toInt_ofInt, Int.bmod_def, hsize]
  split_ifs <;> omega

theorem getPort_fst (file : Option Bytes) :
    (NginxConfig.getPort file).1 = ((portWord file).bind stoi).elim (-1) Int16.ofInt := by
  have hnil : stoi [] = none := by decide
  have hvalue : stoi (NginxConfig.getConfig (bytes "port") (parseFile file).2) = (portWord file).bind stoi := by
    cases file with
    | none => exact hnil
    | some input =>
        show stoi (NginxConfig.getConfig (bytes "port") (parse input).2) = _
        rw [getConfig_parse (by decide)]
        unfold portWord
        rw [Option.bind_some]
        cases wordBehind (bytes "port") none (Builder.readable .start (tokens input).1) with
        | none => exact hnil
        | some word => rfl
  unfold NginxConfig.getPort
  dsimp only
  rw [hvalue]
  cases (portWord file).bind stoi <;> rfl

/-- **When a config does not start the server**, whether `Parse` has rejected it or not: when the word behind `port` that
`Parse` has read, if there is one, is no number, or one that is negative as a `short`. -/
theorem getPort_invalid_iff (file : Option Bytes) :
    ((NginxConfig.getPort file).1.toInt < 0 ∧ invalidPort (NginxConfig.getPort file).1 = true) ↔
      ∀ word, portWord file = some word → ∀ n, stoi word = some n → 2 ^ 15 ≤ n % 2 ^ 16 := by
  have hinvalid : (NginxConfig.getPort file).1.toInt < 0 → invalidPort (NginxConfig.getPort file).1 = true := by
    intro hneg
    unfold invalidPort
    simp [hneg]
  rw [and_iff_left_of_imp hinvalid, getPort_fst]
  cases hword : portWord file with
  | none => simp
  | some word =>
      cases hn : stoi word with
      | none => simp [hn]
      | some n => simpa [hn] using toInt16_neg_iff n

/-- A server starts on a config that is rejected for a block that is not closed. -/
theorem getPort_rejected_starts :
    (parseFile (some (bytes "server \x7b port 80;"))).1 = false ∧
      (NginxConfig.getPort (some (bytes "server \x7b port 80;"))).1 = 80 := by
  decide +kernel

end WebServer
