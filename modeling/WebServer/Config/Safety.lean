import WebServer.Config.Lex
import WebServer.Lib.Runs

/-!
# The containers of `Parse`

C++ leaves `top`, `pop` and `back` of an empty container undefined. `checkedStep` is the body of the loop of `Parse` with
these calls made one by one, each of which fails on an empty container. In the states the loop comes to, none of them fails
(`checkedStep_eq`): the stack has a pointer for every open block and one for the whole config, and a statement has been put
into the config on top when the last token was a word. Every round takes a byte off the input, so the loop ends
(`checkedLoop_of_lt`). The states it comes to are those of the runs of `Round` (`checkedLoop_of_run`).
-/

namespace WebServer

open Lib

namespace NginxConfigParser

/-- What is undefined in C++. -/
inductive Undefined
  | top | pop | back | pointer
  deriving DecidableEq, Repr

namespace ParseState

/-- In front of the loop of `Parse`. -/
def startOn (config : NginxConfig) : ParseState := ⟨config, [[]], .start, 0⟩

/-- `config_stack.top()`, and its `statements_`. -/
def topStatements (s : ParseState) : Except Undefined (Pointer × NginxConfig) :=
  match s.configStack with
  | [] => .error .top
  | top :: _ =>
    match deref top s.config with
    | none => .error .pointer
    | some statements => .ok (top, statements)

/-- `config_stack.top()->statements_.emplace_back(new NginxConfigStatement)`. -/
def emplaceBack (s : ParseState) : Except Undefined ParseState :=
  s.topStatements.map fun t => { s with config := modifyAt t.1 (fun c => c ++ [⟨[], none⟩]) s.config }

/-- A change of `config_stack.top()->statements_.back()`. -/
def changeBack (f : NginxConfigStatement → NginxConfigStatement) (s : ParseState) : Except Undefined ParseState :=
  s.topStatements.bind fun t =>
    if t.2.isEmpty then .error .back else .ok { s with config := modifyAt t.1 (modifyBack f) s.config }

/-- `config_stack.top()->statements_.back()->child_block_.reset(new_config)`, and `config_stack.push(new_config)`. -/
def openBlock (s : ParseState) : Except Undefined ParseState :=
  s.topStatements.bind fun t =>
    if t.2.isEmpty then .error .back
    else
      .ok { s with
        config := modifyAt t.1 (modifyBack fun st => { st with childBlock := some [] }) s.config
        configStack := (t.1 ++ [t.2.length - 1]) :: s.configStack }

/-- `config_stack.pop()`. -/
def popBlock (s : ParseState) : Except Undefined ParseState :=
  match s.configStack with
  | [] => .error .pop
  | _ :: below => .ok { s with configStack := below }

/-- The body of the loop of `Parse` for a token that is no comment, error or end of the input; `none` is a
`break`. -/
def checkedStep (s : ParseState) (type : TokenType) (token : Bytes) : Except Undefined (Option ParseState) :=
  match type with
  | .normal =>
    if s.lastTokenType = .start ∨ s.lastTokenType = .statementEnd ∨ s.lastTokenType = .startBlock ∨
        s.lastTokenType = .endBlock ∨ s.lastTokenType = .normal then
      ((if s.lastTokenType ≠ .normal then s.emplaceBack else .ok s).bind
        (changeBack fun st => { st with tokens := st.tokens ++ [token] })).map fun s' =>
          some { s' with lastTokenType := .normal }
    else .ok none
  | .statementEnd =>
    if s.lastTokenType ≠ .normal then .ok none else .ok (some { s with lastTokenType := .statementEnd })
  | .startBlock =>
    if s.lastTokenType ≠ .normal then .ok none
    else
      s.openBlock.map fun s' => some { s' with lastTokenType := .startBlock, blockCounter := s'.blockCounter + 1 }
  | .endBlock =>
    if (s.lastTokenType ≠ .statementEnd ∧ s.lastTokenType ≠ .startBlock ∧ s.lastTokenType ≠ .endBlock) ∨
        s.blockCounter ≤ 0 then .ok none
    else
      s.popBlock.map fun s' => some { s' with lastTokenType := .endBlock, blockCounter := s'.blockCounter - 1 }
  | _ => .ok none

end ParseState

/-- The loop of `Parse` with this body: what it returns, and the config; `none` if it has not come to its end. -/
def checkedLoop : Nat → ParseState → Bytes → Option (Except Undefined (Bool × NginxConfig))
  | 0, _, _ => none
  | rounds + 1, s, input =>
    let t := parseToken input
    if t.type = .error then some (.ok (false, s.config))
    else if t.type = .comment then checkedLoop rounds s t.rest
    else if t.type = .eof then some (.ok (s.complete, s.config))
    else
      match s.checkedStep t.type t.value with
      | .error u => some (.error u)
      | .ok none => some (.ok (false, s.config))
      | .ok (some s') => checkedLoop rounds s' t.rest

/-- `Parse` into a config, which may have statements already. -/
def parseInto (config : NginxConfig) (input : Bytes) : Bool × NginxConfig :=
  parseLoop (input.length + 1) (.startOn config) input

theorem parseInto_nil (input : Bytes) : parseInto [] input = parse input := rfl

/-! ### No call fails -/

theorem simulates_startOn (config : NginxConfig) : Simulates (.startOn config) ⟨[], config, []⟩ :=
  ⟨(List.append_nil config).symm, rfl, rfl, rfl, rfl⟩

section

variable {s : ParseState} {frames : List (NginxConfig × List Bytes)} {inner : NginxConfig}

/-- The config on top is that of the innermost block. -/
theorem topStatements_eq (hstack : s.configStack = paths frames) (hconfig : s.config = plug frames inner) :
    s.topStatements = .ok (path frames, inner) := by
  obtain ⟨below, hbelow⟩ := paths_eq_cons frames
  unfold ParseState.topStatements
  rw [hstack, hbelow, hconfig]
  dsimp only
  rw [deref_path]

theorem emplaceBack_eq (hstack : s.configStack = paths frames) (hconfig : s.config = plug frames inner) :
    s.emplaceBack = .ok { s with config := plug frames (inner ++ [⟨[], none⟩]) } := by
  unfold ParseState.emplaceBack
  rw [topStatements_eq hstack hconfig, hconfig, Except.map, modifyAt_path]

theorem changeBack_eq (f : NginxConfigStatement → NginxConfigStatement) (hstack : s.configStack = paths frames)
    (hconfig : s.config = plug frames inner) (hne : inner ≠ []) :
    s.changeBack f = .ok { s with config := plug frames (modifyBack f inner) } := by
  unfold ParseState.changeBack
  rw [topStatements_eq hstack hconfig, hconfig, Except.bind, modifyAt_path]
  simp [hne]

theorem openBlock_eq (hstack : s.configStack = paths frames) (hconfig : s.config = plug frames inner)
    (hne : inner ≠ []) :
    s.openBlock = .ok { s with
      config := plug frames (modifyBack (fun st => { st with childBlock := some [] }) inner)
      configStack := (path frames ++ [inner.length - 1]) :: s.configStack } := by
  unfold ParseState.openBlock
  rw [topStatements_eq hstack hconfig, hconfig, Except.bind, modifyAt_path]
  simp [hne]

end

section

variable {s : ParseState} {b : Builder Bytes}

/-- Behind a word, the config on top has the statement of the word. -/
theorem Simulates.statements_ne_nil (h : Simulates s b) (hlast : s.lastTokenType = .normal) :
    b.done ++ openStatement b.tokens ≠ [] := by
  have htokens : b.tokens ≠ [] := by simpa [hlast, TokenType.Leaves] using h.last
  obtain ⟨token, tokens, hb⟩ := List.exists_cons_of_ne_nil htokens
  simp [hb, openStatement]

/-- A word is put into the statement that is there, or into a new one. -/
theorem checkedStep_normal (h : Simulates s b) (token : Bytes) :
    s.checkedStep .normal token = .ok (s.step .normal token) := by
  obtain ⟨below, hbelow⟩ := paths_eq_cons b.frames
  have hstack : s.configStack = path b.frames :: below := h.stack.trans hbelow
  unfold ParseState.checkedStep ParseState.step
  rw [hstack]
  dsimp only
  split_ifs with hgoes hlast
  · rw [emplaceBack_eq h.stack h.config, Except.bind, changeBack_eq _ (s := { s with config := plug b.frames _ }) h.stack
      rfl (by simp), h.config, modifyAt_path, modifyAt_path, hstack]
    rfl
  · rw [Except.bind, changeBack_eq _ h.stack h.config (h.statements_ne_nil (not_not.mp hlast)), h.config, modifyAt_path,
      hstack]
    rfl
  · rfl

/-- A block is that of the statement behind whose words it opens. -/
theorem checkedStep_startBlock (h : Simulates s b) (token : Bytes) :
    s.checkedStep .startBlock token = .ok (s.step .startBlock token) := by
  obtain ⟨below, hbelow⟩ := paths_eq_cons b.frames
  have hstack : s.configStack = path b.frames :: below := h.stack.trans hbelow
  unfold ParseState.checkedStep ParseState.step
  rw [hstack]
  dsimp only
  split_ifs with hlast
  · rfl
  · rw [openBlock_eq h.stack h.config (h.statements_ne_nil (not_not.mp hlast)), h.config, modifyAt_path, deref_path, hstack]
    rfl

/-- **No call in the body of the loop fails**: it does what the loop of `Parse` does. -/
theorem checkedStep_eq (h : Simulates s b) (type : TokenType) (token : Bytes) :
    s.checkedStep type token = .ok (s.step type token) := by
  obtain ⟨below, hbelow⟩ := paths_eq_cons b.frames
  have hstack : s.configStack = path b.frames :: below := h.stack.trans hbelow
  cases type with
  | normal => exact checkedStep_normal h token
  | startBlock => exact checkedStep_startBlock h token
  | statementEnd =>
      unfold ParseState.checkedStep ParseState.step
      rw [hstack]
      dsimp only
      split_ifs <;> rfl
  | endBlock =>
      unfold ParseState.checkedStep ParseState.step ParseState.popBlock
      rw [hstack]
      dsimp only
      split_ifs <;> rfl
  | start | comment | eof | error =>
      unfold ParseState.checkedStep ParseState.step
      rw [hstack]

end

/-- A step that does not leave the loop is one of the builder. -/
theorem Simulates.step {s s' : ParseState} {b : Builder Bytes} {type : TokenType} {token : Bytes} (h : Simulates s b)
    (hstep : s.step type token = some s') : ∃ l b', b.step l = some b' ∧ Simulates s' b' := by
  cases hl : lexeme type token with
  | none =>
      rw [step_of_lexeme_eq_none hl] at hstep
      cases hstep
  | some l =>
      obtain ⟨hbreak, hgoes⟩ := step_follows h hl
      cases hb : b.step l with
      | none =>
          rw [hbreak hb] at hstep
          cases hstep
      | some b' =>
          obtain ⟨s'', hs'', hsim⟩ := hgoes b' hb
          obtain rfl : s'' = s' := Option.some.inj (hs''.symm.trans hstep)
          exact ⟨l, b', hb, hsim⟩

/-! ### The loop ends -/

/-- More rounds than the input has bytes are enough, and no call fails in them. -/
theorem checkedLoop_of_lt {rounds : Nat} {s : ParseState} {b : Builder Bytes} {input : Bytes} (h : Simulates s b)
    (hrounds : input.length < rounds) : checkedLoop rounds s input = some (.ok (parseLoop rounds s input)) := by
  induction rounds generalizing s b input with
  | zero => exact absurd hrounds (Nat.not_lt_zero _)
  | succ rounds ih =>
      simp only [checkedLoop, parseLoop]
      by_cases herror : (parseToken input).type = .error
      · rw [if_pos herror, if_pos herror]
      rw [if_neg herror, if_neg herror]
      by_cases heof : (parseToken input).type = .eof
      · simp [heof]
      have hrest : (parseToken input).rest.length < rounds := by
        have hlt := parseToken_rest_lt heof herror
        omega
      by_cases hcomment : (parseToken input).type = .comment
      · rw [if_pos hcomment, if_pos hcomment]
        exact ih h hrest
      rw [if_neg hcomment, if_neg hcomment, if_neg heof, if_neg heof, checkedStep_eq h]
      cases hstep : s.step (parseToken input).type (parseToken input).value with
      | none => rfl
      | some s' =>
          obtain ⟨l, b', -, hsim⟩ := h.step hstep
          exact ih hsim hrest

/-! ### The states the loop comes to -/

/-- A round that does not leave the loop, by the token that it reads. -/
inductive Round : ParseState × Bytes → ParsedToken → ParseState × Bytes → Prop
  | comment (s : ParseState) (input : Bytes) : (parseToken input).type = .comment →
    Round (s, input) (parseToken input) (s, (parseToken input).rest)
  | token (s s' : ParseState) (input : Bytes) : (parseToken input).type ≠ .error → (parseToken input).type ≠ .comment →
    (parseToken input).type ≠ .eof → s.checkedStep (parseToken input).type (parseToken input).value = .ok (some s') →
    Round (s, input) (parseToken input) (s', (parseToken input).rest)

/-- The rounds are those of the loop. -/
theorem checkedLoop_of_run {init : ParseState × Bytes} {ts : List ParsedToken} {s : ParseState} {rest : Bytes}
    (h : Run Round init ts (s, rest)) (rounds : Nat) :
    checkedLoop (rounds + ts.length) init.1 init.2 = checkedLoop rounds s rest := by
  refine Run.invariant (I := fun ts s => ∀ rounds, checkedLoop (rounds + ts.length) init.1 init.2 =
    checkedLoop rounds s.1 s.2) (fun _ => rfl) ?_ h rounds
  intro ts s t s' ih hround rounds
  rw [List.length_append, List.length_singleton, Nat.add_comm ts.length, ← Nat.add_assoc, ih (rounds + 1)]
  cases hround with
  | comment s input hcomment => simp [checkedLoop, hcomment]
  | token s s' input herror hcomment heof hstep => simp [checkedLoop, herror, hcomment, heof, hstep]

theorem length_paths (frames : List (NginxConfig × List Bytes)) : (paths frames).length = frames.length + 1 := by
  induction frames with
  | nil => rfl
  | cons f frames ih => rw [paths, List.length_cons, ih, List.length_cons]

theorem getLast?_paths (frames : List (NginxConfig × List Bytes)) : (paths frames).getLast? = some [] := by
  induction frames with
  | nil => rfl
  | cons f frames ih =>
      obtain ⟨below, hbelow⟩ := paths_eq_cons frames
      rw [paths, hbelow, List.getLast?_cons_cons, ← hbelow, ih]

/-- A lexeme opens at most one block. -/
theorem length_frames_step {b b' : Builder Bytes} {l : Lexeme Bytes} (h : b.step l = some b') :
    b'.frames.length ≤ b.frames.length + 1 := by
  obtain ⟨frames, done, tokens⟩ := b
  cases l with
  | word a =>
      obtain rfl := Option.some.inj h
      exact Nat.le_succ _
  | stop =>
      rcases tokens with _ | ⟨token, tokens⟩
      · cases h
      · obtain rfl := Option.some.inj h
        exact Nat.le_succ _
  | opening =>
      rcases tokens with _ | ⟨token, tokens⟩
      · cases h
      · obtain rfl := Option.some.inj h
        exact Nat.le_refl _
  | closing =>
      rcases tokens with _ | ⟨token, tokens⟩
      · rcases frames with _ | ⟨f, frames⟩
        · cases h
        · obtain rfl := Option.some.inj h
          exact (Nat.le_succ _).trans (Nat.le_succ _)
      · cases frames <;> cases h

/-- Where the loop is after some rounds. -/
def AtHead (input : Bytes) (ts : List ParsedToken) (s : ParseState × Bytes) : Prop :=
  ts.length + s.2.length ≤ input.length ∧ ∃ b, Simulates s.1 b ∧ b.frames.length ≤ ts.length

theorem atHead_round {input : Bytes} {ts : List ParsedToken} {s s' : ParseState × Bytes} {t : ParsedToken}
    (h : AtHead input ts s) (hround : Round s t s') : AtHead input (ts ++ [t]) s' := by
  obtain ⟨hlength, b, hsim, hframes⟩ := h
  unfold AtHead
  rw [List.length_append, List.length_singleton]
  cases hround with
  | comment s rest hcomment =>
      have hlt : (parseToken rest).rest.length < rest.length :=
        parseToken_rest_lt (by simp [hcomment]) (by simp [hcomment])
      dsimp only at hlength ⊢
      exact ⟨by omega, b, hsim, by omega⟩
  | token s s' rest herror hcomment heof hstep =>
      have hlt := parseToken_rest_lt heof herror
      rw [checkedStep_eq hsim] at hstep
      obtain ⟨l, b', hb, hsim'⟩ := hsim.step (Except.ok.inj hstep)
      have hopened := length_frames_step hb
      dsimp only at hlength ⊢
      exact ⟨by omega, b', hsim', by omega⟩

theorem atHead_of_run {config : NginxConfig} {input : Bytes} {ts : List ParsedToken} {s : ParseState × Bytes}
    (h : Run Round (.startOn config, input) ts s) : AtHead input ts s := by
  refine Run.invariant (I := AtHead input) ?_ (fun ts s t s' => atHead_round) h
  exact ⟨by simp, _, simulates_startOn config, by simp⟩

/-- **`Parse` always ends and touches no empty container.** -/
theorem parse_defined (config : NginxConfig) (input : Bytes) :
    (∀ rounds, input.length < rounds →
        checkedLoop rounds (.startOn config) input = some (.ok (parseInto config input))) ∧
      ∀ ts s rest, Run Round (.startOn config, input) ts (s, rest) →
        ts.length ≤ input.length ∧
          ((s.configStack.length : Int) = s.blockCounter + 1 ∧ s.configStack.getLast? = some []) ∧
          (0 ≤ s.blockCounter ∧ s.blockCounter ≤ input.length) ∧
          ∀ u, s.checkedStep (parseToken rest).type (parseToken rest).value ≠ .error u := by
  constructor
  · intro rounds hrounds
    rw [checkedLoop_of_lt (simulates_startOn config) hrounds, parseLoop_of_lt hrounds]
    rfl
  · intro ts s rest hrun
    obtain ⟨hlength, b, hsim, hframes⟩ := atHead_of_run hrun
    dsimp only at hlength
    have hstack : s.configStack.length = b.frames.length + 1 := by rw [hsim.stack, length_paths]
    have hcounter : s.blockCounter = b.frames.length := hsim.counter
    refine ⟨by omega, ⟨by omega, ?_⟩, ⟨by omega, by omega⟩, fun u => ?_⟩
    · rw [hsim.stack, getLast?_paths]
    · rw [checkedStep_eq hsim]
      exact fun h => by cases h

/-- The block of `a` is open after two rounds. -/
theorem parse_defined_block :
    checkedLoop 7 (.startOn []) (bytes "a\x7bb;\x7d") = some (.ok (parseInto [] (bytes "a\x7bb;\x7d"))) ∧
      ∃ ts s, Run Round (.startOn [], bytes "a\x7bb;\x7d") ts (s, bytes "b;\x7d") ∧ s.blockCounter = 1 ∧
        (s.configStack.length : Int) = 2 ∧
        ∀ u, s.checkedStep (parseToken (bytes "b;\x7d")).type (parseToken (bytes "b;\x7d")).value ≠ .error u := by
  obtain ⟨hends, hsafe⟩ := parse_defined [] (bytes "a\x7bb;\x7d")
  have hword : Round (.startOn [], bytes "a\x7bb;\x7d") _ (⟨[⟨[bytes "a"], none⟩], [[]], .normal, 0⟩, bytes "\x7bb;\x7d") :=
    .token _ _ _ (by decide) (by decide) (by decide) rfl
  have hblock : Round (⟨[⟨[bytes "a"], none⟩], [[]], .normal, 0⟩, bytes "\x7bb;\x7d") _
      (⟨[⟨[bytes "a"], some []⟩], [[0], []], .startBlock, 1⟩, bytes "b;\x7d") :=
    .token _ _ _ (by decide) (by decide) (by decide) rfl
  have hrun := Run.snoc (Run.single hword) hblock
  obtain ⟨-, ⟨hstack, -⟩, -, hdefined⟩ := hsafe _ _ _ hrun
  exact ⟨hends 7 (by decide), _, _, hrun, rfl, hstack, hdefined⟩

end NginxConfigParser

end WebServer
