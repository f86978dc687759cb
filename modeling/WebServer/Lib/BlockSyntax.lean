import Mathlib

/-!
# Block-structured texts

A configuration is a list of statements, and a statement is a run of tokens that a stop or a block of further
statements ends. `IsConfig` is the grammar of their texts, over lexemes whose words are of any type, and
`configLexemes` writes a tree down.

A `Builder` reads a text once from left to right, with a stack of the blocks that are open. It builds exactly
the trees whose text it has read (`build_eq_some`), so a text derives from the grammar if and only if it is
built (`isConfig_iff_build`).
-/

namespace Lib

variable {α : Type}

/-- A word, or one of the marks between statements. -/
inductive Lexeme (α : Type)
  | word (a : α)
  | stop
  | opening
  | closing
  deriving DecidableEq, Repr

/-- A statement: its tokens, and the block that ends it if no stop does. -/
structure Statement (α : Type) where
  tokens : List α
  childBlock : Option (List (Statement α))

/-! ### The grammar -/

mutual

inductive IsStatement : List (Lexeme α) → Prop
  | simple (tokens : List α) : tokens ≠ [] → IsStatement (tokens.map .word ++ [.stop])
  | block (tokens : List α) (child : List (Lexeme α)) : tokens ≠ [] → IsConfig child →
    IsStatement (tokens.map .word ++ .opening :: (child ++ [.closing]))

inductive IsConfig : List (Lexeme α) → Prop
  | nil : IsConfig []
  | cons (s rest : List (Lexeme α)) : IsStatement s → IsConfig rest → IsConfig (s ++ rest)

end

/-! ### Writing a tree down -/

mutual

/-- The text of a statement. -/
def Statement.lexemes : Statement α → List (Lexeme α)
  | ⟨tokens, childBlock⟩ => tokens.map .word ++ endLexemes childBlock
termination_by structural s => s

/-- The text that ends a statement. -/
def endLexemes : Option (List (Statement α)) → List (Lexeme α)
  | none => [.stop]
  | some child => .opening :: (configLexemes child ++ [.closing])
termination_by structural childBlock => childBlock

/-- The text of a list of statements. -/
def configLexemes : List (Statement α) → List (Lexeme α)
  | [] => []
  | s :: rest => s.lexemes ++ configLexemes rest
termination_by structural config => config

end

@[simp] theorem configLexemes_nil : configLexemes ([] : List (Statement α)) = [] := rfl

theorem configLexemes_cons (s : Statement α) (rest : List (Statement α)) :
    configLexemes (s :: rest) = s.lexemes ++ configLexemes rest := rfl

theorem lexemes_simple (tokens : List α) :
    (⟨tokens, none⟩ : Statement α).lexemes = tokens.map .word ++ [.stop] := rfl

theorem lexemes_block (tokens : List α) (child : List (Statement α)) :
    (⟨tokens, some child⟩ : Statement α).lexemes =
      tokens.map .word ++ .opening :: (configLexemes child ++ [.closing]) := rfl

theorem configLexemes_append (config rest : List (Statement α)) :
    configLexemes (config ++ rest) = configLexemes config ++ configLexemes rest := by
  induction config with
  | nil => rfl
  | cons s config ih => rw [List.cons_append, configLexemes_cons, configLexemes_cons, ih, List.append_assoc]

theorem configLexemes_singleton (s : Statement α) : configLexemes [s] = s.lexemes := by
  rw [configLexemes_cons, configLexemes_nil, List.append_nil]

/-- No statement of the tree is empty. -/
inductive Proper : List (Statement α) → Prop
  | nil : Proper []
  | simple (tokens : List α) (rest : List (Statement α)) : tokens ≠ [] → Proper rest →
    Proper (⟨tokens, none⟩ :: rest)
  | block (tokens : List α) (child rest : List (Statement α)) : tokens ≠ [] → Proper child → Proper rest →
    Proper (⟨tokens, some child⟩ :: rest)

theorem Proper.append {config rest : List (Statement α)} (h : Proper config) (hrest : Proper rest) :
    Proper (config ++ rest) := by
  induction h with
  | nil => exact hrest
  | simple tokens config hne _ ih => exact .simple tokens _ hne ih
  | block tokens child config hne hchild _ _ ih => exact .block tokens child _ hne hchild ih

/-! ### Reading a text -/

/-- What has been read: the statements and the tokens in front of every open block, the innermost first, and
the statements and the tokens behind the last of them. -/
structure Builder (α : Type) where
  frames : List (List (Statement α) × List α)
  done : List (Statement α)
  tokens : List α

namespace Builder

def start : Builder α := ⟨[], [], []⟩

def step : Builder α → Lexeme α → Option (Builder α)
  | ⟨frames, done, tokens⟩, .word a => some ⟨frames, done, tokens ++ [a]⟩
  | ⟨_, _, []⟩, .stop => none
  | ⟨frames, done, a :: tokens⟩, .stop => some ⟨frames, done ++ [⟨a :: tokens, none⟩], []⟩
  | ⟨_, _, []⟩, .opening => none
  | ⟨frames, done, a :: tokens⟩, .opening => some ⟨(done, a :: tokens) :: frames, [], []⟩
  | ⟨(before, tokens) :: frames, done, []⟩, .closing => some ⟨frames, before ++ [⟨tokens, some done⟩], []⟩
  | ⟨_, _, _⟩, .closing => none

def run (b : Builder α) (text : List (Lexeme α)) : Option (Builder α) := text.foldlM step b

/-- The tree, if all blocks and statements are closed. -/
def finish : Builder α → Option (List (Statement α))
  | ⟨[], done, []⟩ => some done
  | _ => none

/-- The tree of a text. -/
def build (text : List (Lexeme α)) : Option (List (Statement α)) := (run start text).bind finish

@[simp] theorem run_nil (b : Builder α) : b.run [] = some b := rfl

theorem run_cons (b : Builder α) (t : Lexeme α) (rest : List (Lexeme α)) :
    b.run (t :: rest) = (b.step t).bind fun b' => b'.run rest := rfl

theorem run_append (b : Builder α) (text rest : List (Lexeme α)) :
    b.run (text ++ rest) = (b.run text).bind fun b' => b'.run rest := List.foldlM_append

/-! ### What is built has been read -/

/-- The text that has been read. -/
def text (b : Builder α) : List (Lexeme α) :=
  (b.frames.reverse.flatMap fun f => configLexemes f.1 ++ (f.2.map .word ++ [.opening])) ++
    (configLexemes b.done ++ b.tokens.map .word)

structure Ok (b : Builder α) : Prop where
  done : Proper b.done
  frames : ∀ f ∈ b.frames, Proper f.1 ∧ f.2 ≠ []

theorem ok_start : Ok (start : Builder α) := ⟨.nil, by simp [start]⟩

/-- A step reads one lexeme and keeps the statements proper. -/
theorem step_spec {b b' : Builder α} {t : Lexeme α} (h : b.step t = some b') :
    b'.text = b.text ++ [t] ∧ (b.Ok → b'.Ok) := by
  obtain ⟨frames, done, tokens⟩ := b
  cases t with
  | word a =>
      obtain rfl := Option.some.inj h
      exact ⟨by simp [text], fun hok => ⟨hok.done, hok.frames⟩⟩
  | stop =>
      rcases tokens with _ | ⟨a, tokens⟩
      · cases h
      obtain rfl := Option.some.inj h
      refine ⟨by simp [text, configLexemes_append, configLexemes_singleton, lexemes_simple], fun hok => ?_⟩
      exact ⟨hok.done.append (.simple _ _ (by simp) .nil), hok.frames⟩
  | opening =>
      rcases tokens with _ | ⟨a, tokens⟩
      · cases h
      obtain rfl := Option.some.inj h
      refine ⟨by simp [text], fun hok => ⟨.nil, fun f hf => ?_⟩⟩
      rcases List.mem_cons.mp hf with rfl | hf
      · exact ⟨hok.done, by simp⟩
      · exact hok.frames f hf
  | closing =>
      rcases tokens with _ | ⟨a, tokens⟩
      · rcases frames with _ | ⟨⟨before, opened⟩, frames⟩
        · cases h
        obtain rfl := Option.some.inj h
        refine ⟨by simp [text, configLexemes_append, configLexemes_singleton, lexemes_block], fun hok => ?_⟩
        obtain ⟨hbefore, hopened⟩ := hok.frames _ (List.mem_cons_self)
        exact ⟨hbefore.append (.block _ _ _ hopened hok.done .nil), fun f hf => hok.frames f (by simp [hf])⟩
      · cases frames <;> cases h

theorem run_spec {b b' : Builder α} {text : List (Lexeme α)} (h : b.run text = some b') :
    b'.text = b.text ++ text ∧ (b.Ok → b'.Ok) := by
  induction text generalizing b with
  | nil =>
      obtain rfl := Option.some.inj h
      exact ⟨by simp, id⟩
  | cons t rest ih =>
      rw [run_cons, Option.bind_eq_some_iff] at h
      obtain ⟨b₁, hstep, hrest⟩ := h
      obtain ⟨htext, hok⟩ := step_spec hstep
      obtain ⟨htext', hok'⟩ := ih hrest
      exact ⟨by rw [htext', htext, List.append_assoc, List.singleton_append], fun hb => hok' (hok hb)⟩

/-! ### What has been written is built -/

theorem run_words (frames : List (List (Statement α) × List α)) (done : List (Statement α))
    (tokens more : List α) :
    run ⟨frames, done, tokens⟩ (more.map .word) = some ⟨frames, done, tokens ++ more⟩ := by
  induction more generalizing tokens with
  | nil => simp
  | cons a more ih =>
      rw [List.map_cons, run_cons]
      show run ⟨frames, done, tokens ++ [a]⟩ (more.map .word) = _
      rw [ih, List.append_assoc, List.singleton_append]

theorem run_configLexemes {config : List (Statement α)} (h : Proper config)
    (frames : List (List (Statement α) × List α)) (done : List (Statement α)) :
    run ⟨frames, done, []⟩ (configLexemes config) = some ⟨frames, done ++ config, []⟩ := by
  induction h generalizing frames done with
  | nil => simp
  | simple tokens rest hne _ ih =>
      obtain ⟨a, tokens, rfl⟩ := List.exists_cons_of_ne_nil hne
      rw [configLexemes_cons, lexemes_simple, run_append, run_append, run_words]
      show run ⟨frames, done ++ [⟨a :: tokens, none⟩], []⟩ (configLexemes rest) = _
      rw [ih, List.append_assoc, List.singleton_append]
  | block tokens child rest hne _ _ ihchild ih =>
      obtain ⟨a, tokens, rfl⟩ := List.exists_cons_of_ne_nil hne
      rw [configLexemes_cons, lexemes_block, run_append, run_append, run_words]
      show ((run ⟨(done, a :: tokens) :: frames, [], []⟩ (configLexemes child ++ [.closing])).bind
        fun b' => b'.run (configLexemes rest)) = _
      rw [run_append, ihchild]
      show run ⟨frames, done ++ [⟨a :: tokens, some child⟩], []⟩ (configLexemes rest) = _
      rw [ih, List.append_assoc, List.singleton_append]

/-- The builder builds the proper tree whose text it reads, and no other. -/
theorem build_eq_some {text : List (Lexeme α)} {config : List (Statement α)} :
    build text = some config ↔ Proper config ∧ configLexemes config = text := by
  constructor
  · intro h
    obtain ⟨b, hrun, hfinish⟩ := Option.bind_eq_some_iff.mp h
    obtain ⟨htext, hok⟩ := run_spec hrun
    obtain ⟨_ | ⟨f, frames⟩, done, _ | ⟨a, tokens⟩⟩ := b
    · obtain rfl := Option.some.inj hfinish
      refine ⟨(hok ok_start).done, ?_⟩
      simpa [Builder.text, start] using htext
    all_goals cases hfinish
  · rintro ⟨hproper, rfl⟩
    rw [build, start, run_configLexemes hproper]
    rfl

end Builder

/-! ### The grammar and the trees -/

theorem isConfig_configLexemes {config : List (Statement α)} (h : Proper config) :
    IsConfig (configLexemes config) := by
  induction h with
  | nil => exact .nil
  | simple tokens rest hne _ ih => exact .cons _ _ (.simple tokens hne) ih
  | block tokens child rest hne _ _ ihchild ih => exact .cons _ _ (.block tokens _ hne ihchild) ih

mutual

theorem IsStatement.exists_statement {text : List (Lexeme α)} :
    IsStatement text → ∃ s : Statement α, s.lexemes = text ∧ Proper [s]
  | .simple tokens hne => ⟨⟨tokens, none⟩, rfl, .simple _ _ hne .nil⟩
  | .block tokens _ hne hchild =>
    let ⟨config, hconfig, hproper⟩ := hchild.exists_config
    ⟨⟨tokens, some config⟩, by rw [lexemes_block, hconfig], .block _ _ _ hne hproper .nil⟩

theorem IsConfig.exists_config {text : List (Lexeme α)} :
    IsConfig text → ∃ config : List (Statement α), configLexemes config = text ∧ Proper config
  | .nil => ⟨[], rfl, .nil⟩
  | .cons _ _ hs hrest =>
    let ⟨s, hlex, hsproper⟩ := hs.exists_statement
    let ⟨config, hconfig, hproper⟩ := hrest.exists_config
    ⟨s :: config, by rw [configLexemes_cons, hlex, hconfig], hsproper.append hproper⟩

end

/-- A text derives from the grammar if and only if it is built. -/
theorem isConfig_iff_build {text : List (Lexeme α)} :
    IsConfig text ↔ ∃ config, Builder.build text = some config := by
  constructor
  · intro h
    obtain ⟨config, hconfig, hproper⟩ := h.exists_config
    exact ⟨config, Builder.build_eq_some.mpr ⟨hproper, hconfig⟩⟩
  · rintro ⟨config, hbuild⟩
    obtain ⟨hproper, rfl⟩ := Builder.build_eq_some.mp hbuild
    exact isConfig_configLexemes hproper

end Lib
