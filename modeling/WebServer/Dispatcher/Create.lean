import WebServer.Dispatcher.RequestHandlerDispatcher

/-!
# What the constructor registers

A call of `createHandler` leaves the dispatcher as it is or adds one handler (`createHandler_cases`), so in a
dispatcher that a config has made every entry is what `Init` returned for a location of the config
(`create_registered`). The key of a static handler is its location path (`create_static`), and a null
pointer stands for a proxy whose `proxy_port` is no number (`create_null`).
-/

namespace WebServer

namespace RequestHandlerDispatcher

variable {d d' : RequestHandlerDispatcher} {st st' : Statics} {s : NginxConfigStatement} {type : HandlerType}

/-! ### One location -/

theorem tokenAt_eq_ok {i : Nat} {token : Bytes} : tokenAt s i = .ok token ↔ s.tokens[i]? = some token := by
  rw [tokenAt]
  cases s.tokens[i]? <;> simp

/-- `createHandler` returns without a handler, or adds the one it creates. -/
theorem createHandler_cases (h : createHandler d st s type = .ok (d', st')) :
    (d', st') = (d, st) ∨
      ∃ token quoted child handler, s.tokens[0]? = some (bytes "location") ∧ s.tokens[1]? = some token ∧
        unquote token = .ok (some quoted) ∧ d.handlers.find? (stripSlashes quoted) = none ∧
        s.childBlock = some child ∧ type.init child (stripSlashes quoted) = .ok handler ∧
        (d', st') = d.add st type (stripSlashes quoted) handler := by
  rw [createHandler, Lib.bind_eq_ok] at h
  obtain ⟨first, hfirst, h⟩ := h
  by_cases hlocation : first = bytes "location"
  swap
  · rw [if_pos hlocation, Lib.pure_eq_ok] at h
    exact Or.inl h.symm
  rw [if_neg (not_not_intro hlocation), Lib.bind_eq_ok] at h
  obtain ⟨token, htoken, h⟩ := h
  rw [Lib.bind_eq_ok] at h
  obtain ⟨quoted?, hquoted, h⟩ := h
  rcases quoted? with _ | quoted
  · rw [Lib.pure_eq_ok] at h
    exact Or.inl h.symm
  dsimp only at h
  by_cases hnew : d.handlers.find? (stripSlashes quoted) = none
  swap
  · rw [if_pos hnew, Lib.pure_eq_ok] at h
    exact Or.inl h.symm
  rw [if_neg (not_not_intro hnew)] at h
  rcases hchild : s.childBlock with _ | child
  · rw [hchild] at h
    cases h
  rw [hchild, Lib.bind_eq_ok] at h
  obtain ⟨handler, hinit, h⟩ := h
  rw [Lib.pure_eq_ok] at h
  refine Or.inr ⟨token, quoted, child, handler, ?_, tokenAt_eq_ok.mp htoken, hquoted, hnew, rfl, hinit, h.symm⟩
  rw [← hlocation]
  exact tokenAt_eq_ok.mp hfirst

/-- The locations that a config declares, with their types. -/
def Declares (config : NginxConfig) (s : NginxConfigStatement) (type : HandlerType) : Prop :=
  ∃ server ∈ config, ∃ child, server.childBlock = some child ∧ s ∈ child ∧
    s.tokens[2]?.bind HandlerType.ofToken = some type

/-- An entry of `handlers_` that a location of the config has brought about. -/
def Registered (config : NginxConfig) (e : Bytes × Option Handler) : Prop :=
  ∃ s type child path, Declares config s type ∧ s.childBlock = some child ∧
    type.init child path = .ok e.2 ∧ e.1 = type.key path

/-- A path in quotes. -/
def quoted (path : Bytes) : Bytes := NginxConfigParser.doubleQuote :: (path ++ [NginxConfigParser.doubleQuote])

theorem unquote_quoted {path : Bytes} (hne : path ≠ []) : unquote (quoted path) = .ok (some path) := by
  obtain ⟨c, rest, rfl⟩ := List.exists_cons_of_ne_nil hne
  have hlast : (c :: (rest ++ [NginxConfigParser.doubleQuote])).getLast? = some NginxConfigParser.doubleQuote := by
    rw [← List.cons_append, List.getLast?_concat]
  have hbody : (c :: (rest ++ [NginxConfigParser.doubleQuote])).dropLast = c :: rest := by
    rw [← List.cons_append, List.dropLast_concat]
  rw [quoted, List.cons_append, unquote, if_pos ⟨rfl, hlast⟩, hbody]

/-- A location whose path is new is registered. -/
theorem createLocation_new (d : RequestHandlerDispatcher) (st : Statics) {name path : Bytes}
    {child : NginxConfig} {handler : Option Handler} (htype : HandlerType.ofToken name = some type)
    (hne : path ≠ []) (hstrip : stripSlashes path = path) (hnew : d.handlers.find? path = none)
    (hinit : type.init child path = .ok handler) :
    createLocation (d, st) ⟨[bytes "location", quoted path, name], some child⟩ =
      .ok (d.add st type path handler) := by
  have hname : ([bytes "location", quoted path, name] : List Bytes)[2]?.bind HandlerType.ofToken = some type := htype
  have hquoted : unquote (quoted path) = .ok (some path) := unquote_quoted hne
  rw [createLocation, hname]
  dsimp only
  rw [createHandler]
  simp [tokenAt, bind, Except.bind, pure, Except.pure, hquoted, hstrip, hnew, hinit]

/-! ### The whole config -/

theorem createLocation_keeps {config : NginxConfig} (P : RequestHandlerDispatcher × Statics → Prop)
    (hadd : ∀ d st s type block path handler, Declares config s type → s.childBlock = some block →
      d.handlers.find? path = none → type.init block path = .ok handler → P (d, st) →
      P (d.add st type path handler))
    (hs : ∀ type, s.tokens[2]?.bind HandlerType.ofToken = some type → Declares config s type)
    {ds ds' : RequestHandlerDispatcher × Statics} (hds : P ds) (h : createLocation ds s = .ok ds') : P ds' := by
  rw [createLocation] at h
  rcases htype : s.tokens[2]?.bind HandlerType.ofToken with _ | type
  · rw [htype] at h
    exact Except.ok.inj h ▸ hds
  rw [htype] at h
  have hcases : createHandler ds.1 ds.2 s type = .ok (ds'.1, ds'.2) := h
  show P (ds'.1, ds'.2)
  rcases createHandler_cases hcases with hsame | ⟨_, quoted, block, handler, -, -, -, hnew, hblock, hinit, hadded⟩
  · exact hsame ▸ hds
  · rw [hadded]
    exact hadd ds.1 ds.2 s type block _ handler (hs type htype) hblock hnew hinit hds

/-- What holds before the constructor, and is kept when a handler is added for a location of the config under
a new path, holds behind it. -/
theorem create_invariant {config : NginxConfig} (P : RequestHandlerDispatcher × Statics → Prop)
    (hadd : ∀ d st s type block path handler, Declares config s type → s.childBlock = some block →
      d.handlers.find? path = none → type.init block path = .ok handler → P (d, st) →
      P (d.add st type path handler))
    (hstart : P (⟨Lib.OrdMap.empty⟩, st)) (h : create config st = .ok (d, st')) : P (d, st') := by
  refine Lib.foldlM_invariant P ?_ hstart h
  intro server hserver ds ds' hds hstep
  rw [createServer, Lib.bind_eq_ok] at hstep
  obtain ⟨first, -, hstep⟩ := hstep
  split_ifs at hstep
  swap
  · rw [Lib.pure_eq_ok] at hstep
    exact hstep ▸ hds
  rcases hchild : server.childBlock with _ | child
  · rw [hchild] at hstep
    cases hstep
  rw [hchild] at hstep
  refine Lib.foldlM_invariant P ?_ hds hstep
  intro s hs ds ds' hds hstep
  exact createLocation_keeps P hadd (fun type htype => ⟨server, hserver, child, hchild, hs, htype⟩) hds hstep

/-- **Every handler comes from a location**: what a dispatcher holds after its construction is what `Init`
returned for the locations of the config. -/
theorem create_registered {config : NginxConfig} (h : create config st = .ok (d, st')) :
    ∀ e ∈ d.handlers.entries, Registered config e := by
  refine create_invariant
    (fun ds : RequestHandlerDispatcher × Statics => ∀ e ∈ ds.1.handlers.entries, Registered config e)
    ?_ (by simp [Lib.OrdMap.empty]) h
  intro d st s type block path handler hdeclares hblock _ hinit hd e he
  rcases Lib.OrdMap.mem_entries_insert he with rfl | he
  · exact ⟨s, type, block, path, hdeclares, hblock, hinit, rfl⟩
  · exact hd e he

theorem create_server (child : NginxConfig) (st : Statics) :
    create [⟨[bytes "server"], some child⟩] st = child.foldlM createLocation (⟨Lib.OrdMap.empty⟩, st) := by
  have hserver : createServer (⟨Lib.OrdMap.empty⟩, st) ⟨[bytes "server"], some child⟩ =
      child.foldlM createLocation (⟨Lib.OrdMap.empty⟩, st) := rfl
  rw [create, List.foldlM_cons, hserver]
  exact bind_pure _

theorem init_eq_static {child : NginxConfig} {path : Bytes} {h : StaticRequestHandler}
    (hinit : type.init child path = .ok (some (.static h))) :
    type = .static ∧ StaticRequestHandler.init child path = .ok h := by
  cases type <;> simp only [HandlerType.init, Except.ok.injEq, Option.some.injEq, reduceCtorEq] at hinit
  · simp at hinit
  · rw [Lib.map_eq_ok] at hinit
    obtain ⟨h', hinit, hsame⟩ := hinit
    simp only [Option.some.injEq, Handler.static.injEq] at hsame
    exact ⟨rfl, hsame ▸ hinit⟩

theorem init_eq_null {child : NginxConfig} {path : Bytes} (hinit : type.init child path = .ok none) :
    type = .reverse ∧ ReverseProxyHandler.init child path = none := by
  cases type <;> simp only [HandlerType.init, Except.ok.injEq, reduceCtorEq] at hinit
  · exact ⟨rfl, Option.map_eq_none_iff.mp hinit⟩
  · rw [Lib.map_eq_ok] at hinit
    obtain ⟨h', -, hsame⟩ := hinit
    cases hsame

/-- A static handler is stored under its location path. -/
theorem create_static {config : NginxConfig} (h : create config st = .ok (d, st')) {key : Bytes}
    {handler : StaticRequestHandler} (hmem : (key, some (.static handler)) ∈ d.handlers.entries) :
    handler.locationPath = key := by
  obtain ⟨s, type, child, path, -, -, hinit, hkey⟩ := create_registered h _ hmem
  obtain ⟨rfl, hstatic⟩ := init_eq_static hinit
  obtain rfl : key = path := hkey
  exact StaticRequestHandler.locationPath_of_init hstatic

/-- A null pointer is stored for a proxy whose port is no number. -/
theorem create_null {config : NginxConfig} (h : create config st = .ok (d, st')) {key : Bytes}
    (hmem : (key, none) ∈ d.handlers.entries) :
    ∃ s child, Declares config s .reverse ∧ s.childBlock = some child ∧
      ∃ t ∈ child, ∃ value, t.tokens = [bytes "proxy_port", value] ∧ stoi value = none := by
  obtain ⟨s, type, child, path, hdeclares, hchild, hinit, -⟩ := create_registered h _ hmem
  obtain ⟨rfl, hproxy⟩ := init_eq_null hinit
  exact ⟨s, child, hdeclares, hchild, (ReverseProxyHandler.init_eq_none_iff child path).mp hproxy⟩

end RequestHandlerDispatcher

end WebServer
