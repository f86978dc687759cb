import WebServer.Config.NginxConfigParser

/-!
# The loop of `Parse`

`tokens` are the tokens `ParseToken` returns for an input. The loop of `Parse` simulates the builder of the
grammar on them (`Simulates`): the frames of the builder are the configs on the stack, each in the block of
the last statement of the one below it, and the last token type says where in a statement the builder is. So
`Parse` returns true with a tree if and only if the builder builds it (`parse_eq_true`).
-/

namespace WebServer

open Lib

namespace NginxConfigParser

/-! ### The tokens of an input -/

/-- A token that is no comment, error or end of the input. -/
def lexeme : TokenType → Bytes → Option (Lexeme Bytes)
  | .normal, value => some (.word value)
  | .statementEnd, _ => some .stop
  | .startBlock, _ => some .opening
  | .endBlock, _ => some .closing
  | _, _ => none

/-- The tokens `ParseToken` returns, without comments, up to an error or the end of the input, and which of
the two comes first. -/
def tokensLoop : Nat → Bytes → List (Lexeme Bytes) × TokenType
  | 0, _ => ([], .error)
  | rounds + 1, input =>
    let t := parseToken input
    if t.type = .error then ([], .error)
    else if t.type = .comment then tokensLoop rounds t.rest
    else if t.type = .eof then ([], .eof)
    else
      match lexeme t.type t.value with
      | none => ([], .error)
      | some l => (l :: (tokensLoop rounds t.rest).1, (tokensLoop rounds t.rest).2)

def tokens (input : Bytes) : List (Lexeme Bytes) × TokenType := tokensLoop (input.length + 1) input

/-! ### Pointers -/

theorem deref_append (p q : Pointer) (config : NginxConfig) :
    deref (p ++ q) config = (deref p config).bind (deref q) := by
  induction p generalizing config with
  | nil => rfl
  | cons i p ih =>
      rw [List.cons_append, deref, deref]
      cases config[i]? with
      | none => rfl
      | some s =>
          cases hchild : s.childBlock with
          | none => simp [hchild]
          | some child => simp [hchild, ih]

theorem modifyAt_append (p q : Pointer) (f : NginxConfig → NginxConfig) (config : NginxConfig) :
    modifyAt (p ++ q) f config = modifyAt p (modifyAt q f) config := by
  induction p generalizing config with
  | nil => rfl
  | cons i p ih =>
      have hsame : modifyAt (p ++ q) f = modifyAt p (modifyAt q f) := funext ih
      rw [List.cons_append, modifyAt, modifyAt, hsame]

/-- The last element is changed at its index. -/
theorem modify_length (config : NginxConfig) (s : NginxConfigStatement)
    (f : NginxConfigStatement → NginxConfigStatement) :
    (config ++ [s]).modify config.length f = config ++ [f s] :=
  List.modifyTailIdx_add (List.modifyHead f) 0 config [s]

theorem modifyAt_singleton (config : NginxConfig) (tokens : List Bytes) (child : NginxConfig)
    (f : NginxConfig → NginxConfig) :
    modifyAt [config.length] f (config ++ [⟨tokens, some child⟩]) = config ++ [⟨tokens, some (f child)⟩] := by
  rw [modifyAt, modify_length]
  rfl

theorem deref_singleton (config : NginxConfig) (tokens : List Bytes) (child : NginxConfig) :
    deref [config.length] (config ++ [⟨tokens, some child⟩]) = some child := by
  simp [deref]

theorem modifyBack_append (f : NginxConfigStatement → NginxConfigStatement) (config : NginxConfig)
    (s : NginxConfigStatement) : modifyBack f (config ++ [s]) = config ++ [f s] := by
  rw [modifyBack, List.length_append, List.length_singleton, Nat.add_sub_cancel, modify_length]

/-! ### Open blocks -/

/-- The block of every frame is that of its last statement. -/
def plug : List (NginxConfig × List Bytes) → NginxConfig → NginxConfig
  | [], inner => inner
  | (before, tokens) :: frames, inner => plug frames (before ++ [⟨tokens, some inner⟩])

/-- The pointer to the innermost block. -/
def path : List (NginxConfig × List Bytes) → Pointer
  | [] => []
  | (before, _) :: frames => path frames ++ [before.length]

/-- The pointers to all of them, and to the whole config. -/
def paths : List (NginxConfig × List Bytes) → List Pointer
  | [] => [[]]
  | f :: frames => path (f :: frames) :: paths frames

theorem paths_eq_cons (frames : List (NginxConfig × List Bytes)) :
    ∃ below, paths frames = path frames :: below := by
  cases frames with
  | nil => exact ⟨[], rfl⟩
  | cons f frames => exact ⟨paths frames, rfl⟩

theorem modifyAt_path (frames : List (NginxConfig × List Bytes)) (f : NginxConfig → NginxConfig)
    (inner : NginxConfig) : modifyAt (path frames) f (plug frames inner) = plug frames (f inner) := by
  induction frames generalizing f inner with
  | nil => rfl
  | cons frame frames ih =>
      obtain ⟨before, tokens⟩ := frame
      rw [path, plug, plug, modifyAt_append, ih, modifyAt_singleton]

theorem deref_path (frames : List (NginxConfig × List Bytes)) (inner : NginxConfig) :
    deref (path frames) (plug frames inner) = some inner := by
  induction frames generalizing inner with
  | nil => rfl
  | cons frame frames ih =>
      obtain ⟨before, tokens⟩ := frame
      rw [path, plug, deref_append, ih, Option.bind_some, deref_singleton]

/-! ### The simulation -/

/-- The statement the tokens behind the last closed statement are in, if there are any. -/
def openStatement : List Bytes → NginxConfig
  | [] => []
  | token :: tokens => [⟨token :: tokens, none⟩]

/-- Where a token of the type leaves the builder. -/
def TokenType.Leaves : TokenType → Builder Bytes → Prop
  | .start, b => b.tokens = [] ∧ b.frames = []
  | .normal, b => b.tokens ≠ []
  | .startBlock, b => b.tokens = [] ∧ b.frames ≠ []
  | .endBlock, b => b.tokens = []
  | .statementEnd, b => b.tokens = []
  | _, _ => False

theorem TokenType.Leaves.ne_normal {last : TokenType} {frames : List (NginxConfig × List Bytes)}
    {done : NginxConfig} (h : last.Leaves ⟨frames, done, []⟩) : last ≠ .normal := by
  rintro rfl
  exact h rfl

theorem TokenType.Leaves.eq_normal {last : TokenType} {frames : List (NginxConfig × List Bytes)}
    {done : NginxConfig} {token : Bytes} {tokens : List Bytes} (h : last.Leaves ⟨frames, done, token :: tokens⟩) :
    last = .normal := by
  cases last <;> simp_all [TokenType.Leaves]

/-- The loop of `Parse` has come as far as the builder. -/
structure Simulates (s : ParseState) (b : Builder Bytes) : Prop where
  config : s.config = plug b.frames (b.done ++ openStatement b.tokens)
  stack : s.configStack = paths b.frames
  counter : s.blockCounter = b.frames.length
  last : s.lastTokenType.Leaves b

theorem simulates_start : Simulates .start .start := ⟨rfl, rfl, rfl, rfl, rfl⟩

/-- A word opens a statement or goes on with it. -/
theorem step_normal {s : ParseState} {b : Builder Bytes} (h : Simulates s b) (token : Bytes) :
    ∃ s', s.step .normal token = some s' ∧ Simulates s' ⟨b.frames, b.done, b.tokens ++ [token]⟩ := by
  obtain ⟨config, stack, last, counter⟩ := s
  obtain ⟨frames, done, tokens⟩ := b
  obtain ⟨hconfig, hstack, hcounter, hlast⟩ := h
  dsimp only at hconfig hstack hcounter hlast
  obtain ⟨below, hbelow⟩ := paths_eq_cons frames
  have hgoes : last = .start ∨ last = .statementEnd ∨ last = .startBlock ∨ last = .endBlock ∨
      last = .normal := by
    cases last <;> simp_all [TokenType.Leaves]
  rcases tokens with _ | ⟨first, tokens⟩
  · refine ⟨⟨plug frames (done ++ [⟨[token], none⟩]), paths frames, .normal, counter⟩, ?_,
      ⟨rfl, rfl, hcounter, by simp [TokenType.Leaves]⟩⟩
    simp only [ParseState.step, hstack, hbelow, if_pos hgoes, if_pos hlast.ne_normal, hconfig, openStatement,
      List.append_nil, modifyAt_path, modifyBack_append, List.nil_append]
  · refine ⟨⟨plug frames (done ++ [⟨first :: tokens ++ [token], none⟩]), paths frames, .normal, counter⟩, ?_,
      ⟨rfl, rfl, hcounter, by simp [TokenType.Leaves]⟩⟩
    simp only [ParseState.step, hstack, hbelow, if_pos hgoes, if_neg (not_not_intro hlast.eq_normal), hconfig,
      openStatement, modifyAt_path, modifyBack_append]

/-- The loop goes on with a mark, or breaks at it, as the builder does. -/
def Follows (s : ParseState) (b : Builder Bytes) (type : TokenType) (token : Bytes) (mark : Lexeme Bytes) : Prop :=
  (b.step mark = none → s.step type token = none) ∧
    ∀ b', b.step mark = some b' → ∃ s', s.step type token = some s' ∧ Simulates s' b'

theorem step_statementEnd {s : ParseState} {b : Builder Bytes} (h : Simulates s b) (token : Bytes) :
    Follows s b .statementEnd token .stop := by
  obtain ⟨config, stack, last, counter⟩ := s
  obtain ⟨frames, done, tokens⟩ := b
  obtain ⟨hconfig, hstack, hcounter, hlast⟩ := h
  dsimp only at hconfig hstack hcounter hlast
  obtain ⟨below, hbelow⟩ := paths_eq_cons frames
  rcases tokens with _ | ⟨first, tokens⟩
  · refine ⟨fun _ => ?_, fun b' hb' => by cases hb'⟩
    simp only [ParseState.step, hstack, hbelow, if_pos hlast.ne_normal]
  · refine ⟨fun hnone => (by cases hnone), fun b' hb' => ?_⟩
    obtain rfl := Option.some.inj hb'
    refine ⟨⟨plug frames (done ++ [⟨first :: tokens, none⟩]), paths frames, .statementEnd, counter⟩, ?_,
      ⟨by simp [openStatement], rfl, hcounter, rfl⟩⟩
    simp only [ParseState.step, hstack, hbelow, if_neg (not_not_intro hlast.eq_normal), hconfig, openStatement]

theorem step_startBlock {s : ParseState} {b : Builder Bytes} (h : Simulates s b) (token : Bytes) :
    Follows s b .startBlock token .opening := by
  obtain ⟨config, stack, last, counter⟩ := s
  obtain ⟨frames, done, tokens⟩ := b
  obtain ⟨hconfig, hstack, hcounter, hlast⟩ := h
  dsimp only at hconfig hstack hcounter hlast
  obtain ⟨below, hbelow⟩ := paths_eq_cons frames
  rcases tokens with _ | ⟨first, tokens⟩
  · refine ⟨fun _ => ?_, fun b' hb' => by cases hb'⟩
    simp only [ParseState.step, hstack, hbelow, if_pos hlast.ne_normal]
  · refine ⟨fun hnone => (by cases hnone), fun b' hb' => ?_⟩
    obtain rfl := Option.some.inj hb'
    refine ⟨⟨plug frames (done ++ [⟨first :: tokens, some []⟩]), paths ((done, first :: tokens) :: frames),
      .startBlock, counter + 1⟩, ?_, ⟨by simp [plug, openStatement], rfl, ?_, by simp [TokenType.Leaves]⟩⟩
    · -- the new block belongs to the last statement of the config on top
      simp only [ParseState.step, hstack, hbelow, if_neg (not_not_intro hlast.eq_normal), hconfig, openStatement,
        modifyAt_path, modifyBack_append, deref_path, Option.getD_some, List.length_append,
        List.length_singleton, Nat.add_sub_cancel, paths, path]
    · simp [hcounter]

theorem step_endBlock {s : ParseState} {b : Builder Bytes} (h : Simulates s b) (token : Bytes) :
    Follows s b .endBlock token .closing := by
  obtain ⟨config, stack, last, counter⟩ := s
  obtain ⟨frames, done, tokens⟩ := b
  obtain ⟨hconfig, hstack, hcounter, hlast⟩ := h
  dsimp only at hconfig hstack hcounter hlast
  obtain ⟨below, hbelow⟩ := paths_eq_cons frames
  rcases tokens with _ | ⟨first, tokens⟩
  · rcases frames with _ | ⟨⟨before, opened⟩, frames⟩
    · -- no block is open
      have hbreak : (last ≠ .statementEnd ∧ last ≠ .startBlock ∧ last ≠ .endBlock) ∨ counter ≤ 0 :=
        Or.inr (by simp [hcounter])
      refine ⟨fun _ => ?_, fun b' hb' => by cases hb'⟩
      simp only [ParseState.step, hstack, hbelow, if_pos hbreak]
    · have hgoesOn : ¬ ((last ≠ .statementEnd ∧ last ≠ .startBlock ∧ last ≠ .endBlock) ∨ counter ≤ 0) := by
        have hpos : ¬ counter ≤ 0 := by
          rw [hcounter, List.length_cons]
          omega
        have htype : last = .statementEnd ∨ last = .startBlock ∨ last = .endBlock := by
          cases last <;> simp_all [TokenType.Leaves]
        tauto
      refine ⟨fun hnone => (by cases hnone), fun b' hb' => ?_⟩
      obtain rfl := Option.some.inj hb'
      have hpaths : below = paths frames := (List.cons.inj hbelow).2.symm
      refine ⟨⟨plug frames (before ++ [⟨opened, some done⟩]), paths frames, .endBlock, counter - 1⟩, ?_,
        ⟨by simp [openStatement], rfl, ?_, rfl⟩⟩
      · simp only [ParseState.step, hstack, hbelow, if_neg hgoesOn, hconfig, hpaths, openStatement, plug,
          List.append_nil]
      · simp [hcounter]
  · have hbreak : (last ≠ .statementEnd ∧ last ≠ .startBlock ∧ last ≠ .endBlock) ∨ counter ≤ 0 := by
      rw [hlast.eq_normal]
      exact Or.inl (by decide)
    refine ⟨fun _ => ?_, fun b' hb' => by cases frames <;> cases hb'⟩
    simp only [ParseState.step, hstack, hbelow, if_pos hbreak]

/-- Each token takes the loop where it takes the builder. -/
theorem step_follows {s : ParseState} {b : Builder Bytes} (h : Simulates s b) {type : TokenType}
    {token : Bytes} {l : Lexeme Bytes} (hl : lexeme type token = some l) : Follows s b type token l := by
  cases type with
  | normal =>
      obtain rfl := Option.some.inj hl
      obtain ⟨s', hstep, hsim⟩ := step_normal h token
      refine ⟨fun hnone => (by cases hnone), fun b' hb' => ?_⟩
      obtain rfl := Option.some.inj hb'
      exact ⟨s', hstep, hsim⟩
  | statementEnd => obtain rfl := Option.some.inj hl; exact step_statementEnd h token
  | startBlock => obtain rfl := Option.some.inj hl; exact step_startBlock h token
  | endBlock => obtain rfl := Option.some.inj hl; exact step_endBlock h token
  | start => cases hl
  | comment => cases hl
  | eof => cases hl
  | error => cases hl

theorem step_of_lexeme_eq_none {s : ParseState} {type : TokenType} {token : Bytes}
    (hl : lexeme type token = none) : s.step type token = none := by
  obtain ⟨config, stack, last, counter⟩ := s
  cases type <;> cases stack <;> first | rfl | cases hl

/-- At the end of the input the loop accepts if no statement and no block is open. -/
theorem complete_iff {s : ParseState} {b : Builder Bytes} (h : Simulates s b) (config : NginxConfig) :
    (s.complete, s.config) = (true, config) ↔ b.finish = some config := by
  obtain ⟨config', stack, last, counter⟩ := s
  obtain ⟨frames, done, tokens⟩ := b
  obtain ⟨rfl, -, rfl, hlast⟩ := h
  dsimp only at hlast ⊢
  rw [Prod.mk.injEq, ParseState.complete, decide_eq_true_iff]
  rcases tokens with _ | ⟨token, tokens⟩
  · rcases frames with _ | ⟨f, frames⟩
    · have htype : last = .statementEnd ∨ last = .endBlock ∨ last = .start := by
        cases last <;> simp_all [TokenType.Leaves]
      simp [Builder.finish, htype, plug, openStatement]
    · simp only [Builder.finish, List.length_cons, reduceCtorEq, iff_false]
      rintro ⟨⟨-, hcounter⟩, -⟩
      omega
  · have hnormal := hlast.eq_normal
    cases frames <;> simp [Builder.finish, hnormal]

theorem parseLoop_eq_true {s : ParseState} {b : Builder Bytes} (h : Simulates s b) (rounds : Nat)
    (input : Bytes) (config : NginxConfig) :
    parseLoop rounds s input = (true, config) ↔
      (tokensLoop rounds input).2 = .eof ∧
        (b.run (tokensLoop rounds input).1).bind Builder.finish = some config := by
  induction rounds generalizing s b input with
  | zero => simp [parseLoop, tokensLoop]
  | succ rounds ih =>
      simp only [parseLoop, tokensLoop]
      by_cases herror : (parseToken input).type = .error
      · simp [herror]
      rw [if_neg herror, if_neg herror]
      by_cases hcomment : (parseToken input).type = .comment
      · rw [if_pos hcomment, if_pos hcomment]
        exact ih h _
      rw [if_neg hcomment, if_neg hcomment]
      by_cases heof : (parseToken input).type = .eof
      · rw [if_pos heof, if_pos heof]
        simpa using complete_iff h config
      rw [if_neg heof, if_neg heof]
      rcases hl : lexeme (parseToken input).type (parseToken input).value with _ | l
      · simp [step_of_lexeme_eq_none hl]
      · obtain ⟨hbreak, hgoes⟩ := step_follows h hl
        simp only [Builder.run_cons]
        rcases hstep : b.step l with _ | b'
        · simp [hbreak hstep]
        · obtain ⟨s', hs', hsim⟩ := hgoes b' hstep
          simp only [hs', Option.bind_some]
          exact ih hsim _

/-- **`Parse` returns true with a tree** if and only if the tokens end with the input and the builder builds
the tree from them. -/
theorem parse_eq_true {input : Bytes} {config : NginxConfig} :
    parse input = (true, config) ↔
      (tokens input).2 = .eof ∧ Builder.build (tokens input).1 = some config :=
  parseLoop_eq_true simulates_start _ input config

/-- **`Parse` accepts its token grammar and builds the right tree**: it returns true if and only if the
tokens end with the input and derive from the grammar, and then the tree, written back, is the tokens. -/
theorem parse_grammar_iff (input : Bytes) :
    ((parse input).1 = true ↔ (tokens input).2 = .eof ∧ IsConfig (tokens input).1) ∧
      ((parse input).1 = true → configLexemes (parse input).2 = (tokens input).1) := by
  refine ⟨?_, fun h => ?_⟩
  · rw [isConfig_iff_build]
    constructor
    · intro h
      obtain ⟨heof, hbuild⟩ := parse_eq_true.mp (Prod.ext h rfl : parse input = (true, (parse input).2))
      exact ⟨heof, _, hbuild⟩
    · rintro ⟨heof, config, hbuild⟩
      rw [parse_eq_true.mpr ⟨heof, hbuild⟩]
  · obtain ⟨-, hbuild⟩ := parse_eq_true.mp (Prod.ext h rfl : parse input = (true, (parse input).2))
    exact (Builder.build_eq_some.mp hbuild).2

end NginxConfigParser

end WebServer
