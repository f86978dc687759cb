import WebServer.Config.Lex
import WebServer.Dispatcher.Locations
import WebServer.Lib.BlockSearch

/-!
# Loading a config that is accepted

The tokens of a config that `Parse` accepts are not empty, and a token in quotes has both of them, so that the constructor
reads a location off every statement and `Init` finds a root. What the grammar does not promise is a block: the
constructor comes to an end if and only if the servers and the admitted locations have one (`create_loads_iff`).
-/

namespace WebServer

open Lib NginxConfigParser

/-! ### Accepted configs -/

section accepted

variable {input : Bytes} {config : NginxConfig} {s : NginxConfigStatement}

theorem proper_of_parse (h : parse input = (true, config)) : Proper config :=
  (Builder.build_eq_some.mp (parse_eq_true.mp h).2).1

/-- The tokens of a statement are tokens of the input. -/
theorem isToken_of_parse (h : parse input = (true, config)) (hs : Occurs s config) : ∀ v ∈ s.tokens, IsToken v := by
  intro v hv
  have hlexemes := (Builder.build_eq_some.mp (parse_eq_true.mp h).2).2
  have hmem := hs.word_mem hv
  rw [hlexemes] at hmem
  exact isToken_of_mem_tokens input v hmem

end accepted

namespace RequestHandlerDispatcher

/-! ### Reading a location -/

theorem unquote_cons_cons (c d : UInt8) (rest : Bytes) :
    unquote (c :: d :: rest) = .ok (if c = doubleQuote ∧ (d :: rest).getLast? = some doubleQuote then
      some (d :: rest).dropLast else none) := by
  rw [unquote]
  split_ifs <;> rfl

theorem unquote_of_ne {c : UInt8} (hc : c ≠ doubleQuote) (body : Bytes) : unquote (c :: body) = .ok none := by
  cases body with
  | nil => exact if_neg hc
  | cons d body => exact if_neg fun hand => hc hand.1

/-- Between the quotes of a token there are no others. -/
theorem unquote_isToken {token : Bytes} (h : IsToken token) :
    ∃ quoted, unquote token = .ok quoted ∧ ∀ path, quoted = some path → doubleQuote ∉ path := by
  cases h with
  | word c body hc _ => exact ⟨none, unquote_of_ne (fun heq => hc.2.1 (Or.inl heq)) body, by simp⟩
  | quoted q body _ hbody =>
      obtain ⟨d, rest, hrest⟩ : ∃ d rest, body ++ [q] = d :: rest := List.exists_cons_of_ne_nil (by simp)
      refine ⟨_, by rw [hrest, unquote_cons_cons], fun path hpath => ?_⟩
      split_ifs at hpath with hquotes
      obtain rfl := Option.some.inj hpath
      rw [← hrest, List.dropLast_concat, ← hquotes.1]
      exact hbody

/-- What a location has of its statement. -/
theorem location?_eq_some {s : NginxConfigStatement} {l : Location} (h : location? s = .ok (some l)) :
    ∃ token path, token ∈ s.tokens ∧ unquote token = .ok (some path) ∧ l.path = stripSlashes path ∧
      l.block = s.childBlock := by
  unfold location? at h
  cases htype : s.tokens[2]?.bind HandlerType.ofToken with
  | none =>
      rw [htype] at h
      cases h
  | some type =>
      rw [htype] at h
      dsimp only at h
      rw [bind_eq_ok] at h
      obtain ⟨first, -, h⟩ := h
      split_ifs at h
      · cases h
      rw [bind_eq_ok] at h
      obtain ⟨token, htoken, h⟩ := h
      rw [bind_eq_ok] at h
      obtain ⟨quoted, hquoted, h⟩ := h
      rw [pure_eq_ok, Option.map_eq_some_iff] at h
      obtain ⟨path, rfl, rfl⟩ := h
      exact ⟨token, path, List.mem_of_getElem? (tokenAt_eq_ok.mp htoken), hquoted, rfl, rfl⟩

/-- A statement whose tokens are well formed can be read. -/
theorem exists_location? {s : NginxConfigStatement} (h : ∀ v ∈ s.tokens, IsToken v) : ∃ l, location? s = .ok l := by
  obtain ⟨tokens, childBlock⟩ := s
  unfold location?
  rcases tokens with _ | ⟨first, _ | ⟨token, _ | ⟨name, more⟩⟩⟩
  · exact ⟨none, rfl⟩
  · exact ⟨none, rfl⟩
  · exact ⟨none, rfl⟩
  obtain ⟨quoted, hquoted, -⟩ := unquote_isToken (h token (by simp))
  simp only [tokenAt, List.getElem?_cons_zero, List.getElem?_cons_succ, Option.bind_some, bind, Except.bind, hquoted]
  cases HandlerType.ofToken name with
  | none => exact ⟨none, rfl⟩
  | some type =>
      dsimp only
      split_ifs
      · exact ⟨none, rfl⟩
      · exact ⟨_, rfl⟩

theorem mem_visited {config : NginxConfig} {s : NginxConfigStatement} (h : s ∈ visited config) :
    ∃ server ∈ config, ∃ child, server.childBlock = some child ∧ s ∈ child := by
  induction config with
  | nil => cases h
  | cons t rest ih =>
      have hrest : s ∈ visited rest → ∃ server ∈ t :: rest, ∃ child, server.childBlock = some child ∧ s ∈ child := by
        intro h
        obtain ⟨server, hserver, hchild⟩ := ih h
        exact ⟨server, List.mem_cons_of_mem t hserver, hchild⟩
      rw [visited] at h
      split_ifs at h
      · cases hblock : t.childBlock with
        | none =>
            rw [hblock] at h
            cases h
        | some child =>
            rw [hblock] at h
            rcases List.mem_append.mp h with h | h
            · exact ⟨t, List.mem_cons_self, child, hblock, h⟩
            · exact hrest h
      · cases h
      · exact hrest h

theorem occurs_of_mem_visited {config : NginxConfig} {s : NginxConfigStatement} (h : s ∈ visited config) :
    Occurs s config := by
  obtain ⟨server, hserver, child, hchild, hs⟩ := mem_visited h
  exact .inside config server child hserver hchild (.here child hs)

/-- A location is read off a statement. -/
theorem exists_of_mem_named {statements : NginxConfig} {l : Location} (h : l ∈ named statements) :
    ∃ s ∈ statements, location? s = .ok (some l) := by
  obtain ⟨s, hs, hl⟩ := List.mem_filterMap.mp h
  refine ⟨s, hs, ?_⟩
  cases hlocation : location? s with
  | error e =>
      rw [hlocation] at hl
      cases hl
  | ok l' =>
      rw [hlocation] at hl
      exact congrArg Except.ok hl

/-! ### Creating a handler -/

/-- A root is the value of a statement, or a slash. -/
theorem configuredRoot_ne_nil {child : NginxConfig} (h : ∀ s ∈ child, ∀ v ∈ s.tokens, v ≠ []) :
    StaticRequestHandler.configuredRoot child ≠ [] := by
  unfold StaticRequestHandler.configuredRoot
  induction child using List.reverseRecOn with
  | nil => decide
  | append_singleton child s ih =>
      have hroot := ih fun t ht => h t (List.mem_append_left _ ht)
      rw [List.foldl_append, List.foldl_cons, List.foldl_nil]
      split
      · rename_i name value htokens
        split_ifs
        · exact h s (by simp) value (by simp [htokens])
        · exact hroot
      · exact hroot

theorem exists_create {l : Location} {child : NginxConfig} (hblock : l.block = some child)
    (h : ∀ s ∈ child, ∀ v ∈ s.tokens, v ≠ []) : ∃ handler, l.create = .ok handler := by
  unfold Location.create
  rw [hblock]
  dsimp only
  cases l.type with
  | static =>
      obtain ⟨c, hc⟩ := Option.isSome_iff_exists.mp (List.getLast?_isSome.mpr (configuredRoot_ne_nil h))
      dsimp only [HandlerType.init]
      unfold StaticRequestHandler.init
      dsimp only
      rw [hc]
      exact ⟨_, rfl⟩
  | _ => exact ⟨_, rfl⟩

/-- **When an accepted config can be loaded**: when the servers have blocks, and the locations that are admitted. -/
theorem create_loads_iff (input : Bytes) (config : NginxConfig) (hparse : parse input = (true, config)) (st : Statics) :
    (∃ ds, create config st = .ok ds) ↔
      (∀ s ∈ config, s.tokens = [bytes "server"] → s.childBlock ≠ none) ∧
        ∀ l ∈ registrations config, l.block ≠ none := by
  simp only [create_eq_ok]
  constructor
  · rintro ⟨ds, hcomplete, -, hcreate, -⟩
    refine ⟨fun s hs => (hcomplete s hs).2, fun l hl hblock => ?_⟩
    obtain ⟨handler, hhandler⟩ := hcreate l hl
    unfold Location.create at hhandler
    rw [hblock] at hhandler
    cases hhandler
  · rintro ⟨hservers, hblocks⟩
    refine ⟨_, ?_, ?_, ?_, rfl⟩
    · intro s hs
      exact ⟨(Occurs.here config hs).tokens_ne_nil (proper_of_parse hparse), hservers s hs⟩
    · intro s hs
      exact exists_location? (isToken_of_parse hparse (occurs_of_mem_visited hs))
    · intro l hl
      obtain ⟨child, hchild⟩ := Option.ne_none_iff_exists'.mp (hblocks l hl)
      obtain ⟨s, hs, hlocation⟩ := exists_of_mem_named (mem_of_mem_admitted hl)
      obtain ⟨-, -, -, -, -, hblock⟩ := location?_eq_some hlocation
      rw [hblock] at hchild
      obtain ⟨server, hserver, inner, hinner, hs⟩ := mem_visited hs
      refine exists_create (hblock.trans hchild) fun t ht v hv => ?_
      have hoccurs : Occurs t config :=
        .inside config server inner hserver hinner (.inside inner s child hs hchild (.here child ht))
      exact (isToken_of_parse hparse hoccurs v hv).ne_nil

/-- A config with an echo location. -/
def echoText : Bytes := bytes "server \x7b location \"/x\" EchoHandler \x7b\x7d \x7d"

theorem create_loads_echo :
    (∃ ds, create (parse echoText).2 .initial = .ok ds) ↔
      (∀ s ∈ (parse echoText).2, s.tokens = [bytes "server"] → s.childBlock ≠ none) ∧
        ∀ l ∈ registrations (parse echoText).2, l.block ≠ none :=
  create_loads_iff echoText (parse echoText).2 (by rfl) .initial

/-- A location that ends in a semicolon. -/
def openText : Bytes := bytes "server \x7b location \"/x\" EchoHandler; \x7d"

/-- It is accepted, and its block is dereferenced. -/
theorem openText_fails :
    (parse openText).1 = true ∧ create (parse openText).2 .initial = .error .nullPointer :=
  ⟨by rfl, by rfl⟩

end RequestHandlerDispatcher

end WebServer
