import WebServer.Dispatcher.Create
import WebServer.Lib.FirstCome

/-!
# The locations of a config

The constructor visits the statements in the blocks of the servers (`visited`), and a call of `createHandler` reads a
location off a statement (`location?`) and registers it if its path is new (`createLocation_eq`). So construction comes to
an end if and only if no statement is malformed and every location that is admitted has a handler, and then the handlers
and the statics are those of the admitted locations, one after the other (`create_eq_ok`).
-/

namespace WebServer

open Lib

/-- What `createHandler` reads of a statement. -/
structure Location where
  type : HandlerType
  path : Bytes
  block : Option NginxConfig

namespace Location

/-- The key that the handler is stored under. -/
def key (l : Location) : Bytes := l.type.key l.path

/-- The handler that is created. -/
def create (l : Location) : Except Fault (Option Handler) :=
  match l.block with
  | none => .error .nullPointer
  | some child => l.type.init child l.path

theorem create_eq_ok {l : Location} {handler : Option Handler} (h : l.create = .ok handler) :
    ∃ child, l.block = some child ∧ l.type.init child l.path = .ok handler := by
  unfold create at h
  cases hblock : l.block with
  | none =>
      rw [hblock] at h
      cases h
  | some child =>
      rw [hblock] at h
      exact ⟨child, rfl, h⟩

/-- The handler, where one is created. -/
def handler (l : Location) : Option Handler := l.create.toOption.bind id

end Location

namespace RequestHandlerDispatcher

/-! ### One statement -/

/-- The location of a statement, if the constructor calls `createHandler` for it and it names one. -/
def location? (s : NginxConfigStatement) : Except Fault (Option Location) :=
  match s.tokens[2]?.bind HandlerType.ofToken with
  | none => .ok none
  | some type => do
    if (← tokenAt s 0) ≠ bytes "location" then return none
    let quoted ← unquote (← tokenAt s 1)
    return quoted.map fun path => ⟨type, stripSlashes path, s.childBlock⟩

/-- A location is registered, if its path is new. -/
def register (ds : RequestHandlerDispatcher × Statics) (l : Location) :
    Except Fault (RequestHandlerDispatcher × Statics) :=
  if ds.1.handlers.find? l.path ≠ none then .ok ds
  else l.create.map fun handler => ds.1.add ds.2 l.type l.path handler

theorem register_of_taken {ds : RequestHandlerDispatcher × Statics} {l : Location}
    (h : ds.1.handlers.find? l.path ≠ none) : register ds l = .ok ds := if_pos h

theorem register_of_new {ds : RequestHandlerDispatcher × Statics} {l : Location}
    (h : ds.1.handlers.find? l.path = none) :
    register ds l = l.create.map fun handler => ds.1.add ds.2 l.type l.path handler := if_neg (not_not_intro h)

theorem createLocation_eq (ds : RequestHandlerDispatcher × Statics) (s : NginxConfigStatement) :
    createLocation ds s = location? s >>= fun l => l.elim (.ok ds) (register ds) := by
  unfold createLocation location?
  cases s.tokens[2]?.bind HandlerType.ofToken with
  | none => rfl
  | some type =>
      dsimp only
      unfold createHandler
      cases hfirst : tokenAt s 0 with
      | error e => rfl
      | ok first =>
          simp only [bind, Except.bind]
          by_cases hlocation : first = bytes "location"
          swap
          · simp only [if_pos hlocation, pure, Except.pure]
            rfl
          simp only [if_neg (not_not_intro hlocation)]
          cases htoken : tokenAt s 1 with
          | error e => rfl
          | ok token =>
              dsimp only
              cases hquoted : unquote token with
              | error e => rfl
              | ok quoted? =>
                  cases quoted? with
                  | none => rfl
                  | some quoted =>
                      simp only [pure, Except.pure, Option.map_some, Option.elim_some]
                      unfold register
                      dsimp only
                      split_ifs with hnew
                      · rfl
                      · unfold Location.create
                        cases s.childBlock with
                        | none => rfl
                        | some child =>
                            dsimp only
                            cases type.init child (stripSlashes quoted) <;> rfl

/-! ### The statements that are visited -/

/-- The statements that the constructor's inner loop comes to, up to a server without a block or a statement without
tokens. -/
def visited : NginxConfig → NginxConfig
  | [] => []
  | s :: rest =>
    if s.tokens = [bytes "server"] then s.childBlock.elim [] fun child => child ++ visited rest
    else if s.tokens = [] then []
    else visited rest

/-- Every statement has tokens, and every server has a block. -/
def Complete (config : NginxConfig) : Prop :=
  ∀ s ∈ config, s.tokens ≠ [] ∧ (s.tokens = [bytes "server"] → s.childBlock ≠ none)

theorem createServer_of_server {s : NginxConfigStatement} (h : s.tokens = [bytes "server"])
    (ds : RequestHandlerDispatcher × Statics) :
    createServer ds s = s.childBlock.elim (.error .nullPointer) fun child => child.foldlM createLocation ds := by
  unfold createServer tokenAt
  rw [h]
  cases s.childBlock <;> rfl

theorem createServer_of_other {s : NginxConfigStatement} (h : s.tokens ≠ [bytes "server"]) (hne : s.tokens ≠ [])
    (ds : RequestHandlerDispatcher × Statics) : createServer ds s = .ok ds := by
  obtain ⟨first, rest, htokens⟩ := List.exists_cons_of_ne_nil hne
  have hserver : ¬ (first = bytes "server" ∧ (first :: rest).length = 1) := by
    rintro ⟨rfl, hlength⟩
    have hrest : rest = [] := List.eq_nil_of_length_eq_zero (Nat.succ.inj hlength)
    exact h (by rw [htokens, hrest])
  unfold createServer tokenAt
  rw [htokens]
  simp only [bind, Except.bind, List.getElem?_cons_zero, if_neg hserver]
  rfl

theorem createServer_of_nil {s : NginxConfigStatement} (h : s.tokens = []) (ds : RequestHandlerDispatcher × Statics) :
    createServer ds s = .error .indexOutOfBounds := by
  unfold createServer tokenAt
  rw [h]
  rfl

theorem foldlM_createServer_eq_ok {config : NginxConfig} {ds ds' : RequestHandlerDispatcher × Statics} :
    config.foldlM createServer ds = .ok ds' ↔
      Complete config ∧ (visited config).foldlM createLocation ds = .ok ds' := by
  induction config generalizing ds with
  | nil => exact ⟨fun h => ⟨by simp [Complete], h⟩, fun h => h.2⟩
  | cons s rest ih =>
      have hcomplete : Complete (s :: rest) ↔
          (s.tokens ≠ [] ∧ (s.tokens = [bytes "server"] → s.childBlock ≠ none)) ∧ Complete rest := List.forall_mem_cons
      rw [List.foldlM_cons, bind_eq_ok, hcomplete, visited]
      by_cases hserver : s.tokens = [bytes "server"]
      · have hne : s.tokens ≠ [] := by simp [hserver]
        rw [createServer_of_server hserver, if_pos hserver]
        cases s.childBlock with
        | none => simp [hserver]
        | some child =>
            simp only [Option.elim_some, ih, List.foldlM_append, bind_eq_ok]
            constructor
            · rintro ⟨mid, hchild, hrest, hvisited⟩
              exact ⟨⟨⟨hne, by simp⟩, hrest⟩, mid, hchild, hvisited⟩
            · rintro ⟨⟨-, hrest⟩, mid, hchild, hvisited⟩
              exact ⟨mid, hchild, hrest, hvisited⟩
      · rw [if_neg hserver]
        by_cases hnil : s.tokens = []
        · simp [createServer_of_nil hnil, hnil]
        · rw [createServer_of_other hserver hnil, if_neg hnil]
          simp [ih, hserver, hnil]

/-- The locations that statements name, in their order. -/
def named (statements : NginxConfig) : List Location := statements.filterMap fun s => (location? s).toOption.bind id

theorem foldlM_createLocation_eq_ok {statements : NginxConfig} {ds ds' : RequestHandlerDispatcher × Statics} :
    statements.foldlM createLocation ds = .ok ds' ↔
      (∀ s ∈ statements, ∃ l, location? s = .ok l) ∧
        (named statements).foldlM register ds = .ok ds' := by
  unfold named
  induction statements generalizing ds with
  | nil => simp
  | cons s rest ih =>
      rw [List.foldlM_cons, createLocation_eq, List.forall_mem_cons]
      cases hlocation : location? s with
      | error e =>
          have hfails : ¬ ∃ l, (Except.error e : Except Fault (Option Location)) = .ok l := by simp
          exact iff_of_false (by simp [bind, Except.bind]) fun h => hfails h.1.1
      | ok l =>
          cases l with
          | none =>
              rw [List.filterMap_cons_none (by rw [hlocation]; rfl)]
              simpa [bind, Except.bind] using ih
          | some l =>
              rw [List.filterMap_cons_some (by rw [hlocation]; rfl), List.foldlM_cons, bind_eq_ok, bind_eq_ok]
              constructor
              · rintro ⟨mid, hfirst, hrest⟩
                obtain ⟨hall, hfold⟩ := ih.mp hrest
                exact ⟨⟨⟨_, rfl⟩, hall⟩, mid, hfirst, hfold⟩
              · rintro ⟨⟨-, hall⟩, mid, hfirst, hfold⟩
                exact ⟨mid, hfirst, ih.mpr ⟨hall, hfold⟩⟩

/-! ### The locations that are registered -/

/-- What registering a location that is admitted leaves. -/
def store (ds : RequestHandlerDispatcher × Statics) (l : Location) : RequestHandlerDispatcher × Statics :=
  ds.1.add ds.2 l.type l.path l.handler

/-- The keys of the handlers are those that are taken. -/
def Taken (d : RequestHandlerDispatcher) (taken : List Bytes) : Prop :=
  ∀ k, k ∈ taken ↔ d.handlers.find? k ≠ none

theorem taken_store {ds : RequestHandlerDispatcher × Statics} {taken : List Bytes} (h : Taken ds.1 taken)
    (l : Location) : Taken (store ds l).1 (l.key :: taken) := by
  intro k
  show k ∈ l.key :: taken ↔ (ds.1.handlers.insert l.key l.handler).find? k ≠ none
  rw [List.mem_cons, h k, OrdMap.find?_insert]
  by_cases hk : k = l.key
  · simp [hk]
  · simp [hk, Ne.symm hk]

/-- The locations are registered one after the other. -/
theorem foldlM_register_eq_ok {ls : List Location} {taken : List Bytes} {ds ds' : RequestHandlerDispatcher × Statics}
    (htaken : Taken ds.1 taken) :
    ls.foldlM register ds = .ok ds' ↔
      (∀ l ∈ admitted Location.path Location.key taken ls, ∃ handler, l.create = .ok handler) ∧
        (admitted Location.path Location.key taken ls).foldl store ds = ds' := by
  induction ls generalizing taken ds with
  | nil => simp [admitted, pure_eq_ok]
  | cons l ls ih =>
      rw [List.foldlM_cons, bind_eq_ok]
      by_cases hold : l.path ∈ taken
      · rw [register_of_taken ((htaken l.path).mp hold), admitted_cons_of_mem hold, ← ih htaken]
        simp
      · have hnew : ds.1.handlers.find? l.path = none := by
          by_contra h
          exact hold ((htaken l.path).mpr h)
        rw [register_of_new hnew, admitted_cons_of_notMem hold, List.forall_mem_cons, List.foldl_cons, and_assoc,
          ← ih (taken_store htaken l)]
        unfold store Location.handler
        cases l.create with
        | error e => simp [Except.map]
        | ok handler => simp [Except.map, Except.toOption]

/-- The locations that are registered when statements are visited from the start. -/
def registered (statements : NginxConfig) : List Location :=
  admitted Location.path Location.key [] (named statements)

/-- What visiting statements leaves, if it comes to an end. -/
theorem foldlM_start_eq_ok {statements : NginxConfig} {st : Statics} {ds : RequestHandlerDispatcher × Statics} :
    statements.foldlM createLocation (⟨OrdMap.empty⟩, st) = .ok ds ↔
      (∀ s ∈ statements, ∃ l, location? s = .ok l) ∧
        (∀ l ∈ registered statements, ∃ handler, l.create = .ok handler) ∧
        (registered statements).foldl store (⟨OrdMap.empty⟩, st) = ds := by
  have htaken : Taken ⟨OrdMap.empty⟩ [] := by
    intro k
    show k ∈ [] ↔ (OrdMap.empty : OrdMap Bytes (Option Handler)).find? k ≠ none
    simp
  rw [foldlM_createLocation_eq_ok]
  exact and_congr_right fun _ => foldlM_register_eq_ok htaken

/-- The locations that the constructor registers. -/
def registrations (config : NginxConfig) : List Location := registered (visited config)

/-- What the constructor leaves, if it comes to an end. -/
theorem create_eq_ok {config : NginxConfig} {st : Statics} {ds : RequestHandlerDispatcher × Statics} :
    create config st = .ok ds ↔
      Complete config ∧ (∀ s ∈ visited config, ∃ l, location? s = .ok l) ∧
        (∀ l ∈ registrations config, ∃ handler, l.create = .ok handler) ∧
        (registrations config).foldl store (⟨OrdMap.empty⟩, st) = ds := by
  unfold create
  rw [foldlM_createServer_eq_ok]
  exact and_congr_right fun _ => foldlM_start_eq_ok

/-- The handlers are a table of the registered locations. -/
theorem foldl_store (ls : List Location) (st : Statics) :
    (ls.foldl store (⟨OrdMap.empty⟩, st)).1.handlers = table (ls.map fun l => (l.key, l.handler)) := by
  induction ls using List.reverseRecOn with
  | nil => rfl
  | append_singleton ls l ih =>
      rw [List.foldl_append, List.map_append, List.map_singleton, table_concat, ← ih]
      rfl

end RequestHandlerDispatcher

end WebServer
