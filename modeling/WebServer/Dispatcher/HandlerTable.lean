import WebServer.Dispatcher.Loading
import WebServer.Dispatcher.Registrations

/-!
# The published table of handlers

`createHandler` writes to `handlers_`, `request_handler_uri` and `num_handlers`, one after the other. In the end they
tell the same if no handler has replaced another, a handler of bad requests is at its key, and every proxy has a port
that is a number (`create_published_iff`).
-/

namespace WebServer

open Lib

/-- The type that a handler is of. -/
def Handler.type : Handler → HandlerType
  | .badRequest => .bad
  | .echo => .echo
  | .health => .health
  | .markdown => .markdown
  | .notFound => .missing
  | .redirect _ => .redirect
  | .reverseProxy _ => .reverse
  | .static _ => .static
  | .status => .status

/-- `Init` makes a handler of its type. -/
theorem HandlerType.type_of_init {type : HandlerType} {child : NginxConfig} {path : Bytes} {h : Handler}
    (hinit : type.init child path = .ok (some h)) : h.type = type := by
  cases type with
  | reverse =>
      obtain ⟨proxy, -, rfl⟩ := Option.map_eq_some_iff.mp (Except.ok.inj hinit)
      rfl
  | static =>
      obtain ⟨handler, -, hsame⟩ := map_eq_ok.mp hinit
      obtain rfl := Option.some.inj hsame
      rfl
  | _ =>
      obtain rfl := Option.some.inj (Except.ok.inj hinit)
      rfl

namespace Location

/-- The key of its label. -/
def uriKey (l : Location) : Bytes := l.type.uriKey l.path

/-- The ports of a proxy are numbers. -/
def PortsRead (l : Location) : Prop :=
  l.type = .reverse → ∀ child, l.block = some child → ∀ s ∈ child, ∀ value,
    s.tokens = [bytes "proxy_port", value] → stoi value ≠ none

variable {l : Location}

theorem uriKey_eq_key (h : l.type = .bad → l.path = bytes "/badrequest") : l.uriKey = l.key := by
  unfold uriKey key
  cases htype : l.type with
  | bad => exact h htype
  | _ => rfl

theorem key_of_bad (h : l.type = .bad) : l.key = bytes "/badrequest" := by
  unfold key
  rw [h]
  rfl

/-- A label under the key of bad requests is that of a location there. -/
theorem path_of_uriKey (h : l.uriKey = bytes "/badrequest") :
    l.key = bytes "/badrequest" ∧ l.path = bytes "/badrequest" := by
  unfold uriKey at h
  unfold key
  cases htype : l.type with
  | missing =>
      rw [htype] at h
      have hroot : bytes "/" = bytes "/badrequest" := h
      exact absurd hroot (by decide)
  | bad =>
      rw [htype] at h
      exact ⟨rfl, h⟩
  | _ =>
      rw [htype] at h
      exact ⟨h, h⟩

/-- A null pointer is stored for a proxy without a port. -/
theorem handler_ne_none_iff (h : l.create = .ok l.handler) : l.handler ≠ none ↔ l.PortsRead := by
  obtain ⟨child, hblock, hinit⟩ := create_eq_ok h
  constructor
  · intro hne htype child' hblock' s hs value htokens hport
    obtain rfl : child' = child := Option.some.inj (hblock'.symm.trans hblock)
    have hnull : ReverseProxyHandler.init child' l.path = none :=
      (ReverseProxyHandler.init_eq_none_iff child' l.path).mpr ⟨s, hs, value, htokens, hport⟩
    rw [htype] at hinit
    have hhandler : (ReverseProxyHandler.init child' l.path).map Handler.reverseProxy = l.handler := Except.ok.inj hinit
    rw [hnull] at hhandler
    exact hne hhandler.symm
  · intro hports hnull
    rw [hnull] at hinit
    obtain ⟨htype, hproxy⟩ := RequestHandlerDispatcher.init_eq_null hinit
    obtain ⟨s, hs, value, htokens, hport⟩ := (ReverseProxyHandler.init_eq_none_iff child l.path).mp hproxy
    exact hports htype child hblock s hs value htokens hport

end Location

namespace RequestHandlerDispatcher

/-- `request_handler_uri` and `num_handlers` tell what is in `handlers_`. -/
structure Published (d : RequestHandlerDispatcher) (st : Statics) : Prop where
  keys : st.requestHandlerUri.keys = d.handlers.keys
  labels : ∀ k handler label, d.handlers.find? k = some handler → st.requestHandlerUri.find? k = some label →
    handler.map (fun h => h.type.label) = some label
  count : st.numHandlers = d.handlers.size

/-! ### What is published -/

theorem requestHandlerUri_foldl_store {st : Statics} (h : st.requestHandlerUri = OrdMap.empty) (ls : List Location) :
    (ls.foldl store (⟨OrdMap.empty⟩, st)).2.requestHandlerUri = table (ls.map fun l => (l.uriKey, l.type.label)) := by
  induction ls using List.reverseRecOn with
  | nil => exact h
  | append_singleton ls l ih =>
      rw [List.foldl_append, List.map_append, List.map_singleton, table_concat, ← ih]
      rfl

theorem numHandlers_foldl_store (ls : List Location) (ds : RequestHandlerDispatcher × Statics) :
    (ls.foldl store ds).2.numHandlers = ds.2.numHandlers + ls.length := by
  induction ls generalizing ds with
  | nil => rfl
  | cons l ls ih =>
      rw [List.foldl_cons, ih, List.length_cons]
      show ds.2.numHandlers + 1 + ls.length = _
      omega

section tables

variable {ls : List Location} {d : RequestHandlerDispatcher} {st : Statics}
  (hhandlers : d.handlers = table (ls.map fun l => (l.key, l.handler)))
  (huri : st.requestHandlerUri = table (ls.map fun l => (l.uriKey, l.type.label)))
  (hcount : st.numHandlers = ls.length)

include hhandlers

theorem mem_keys_handlers {k : Bytes} : k ∈ d.handlers.keys ↔ k ∈ ls.map Location.key := by
  rw [hhandlers, mem_keys_table, List.map_map]
  rfl

theorem find?_handlers (hnodup : (ls.map Location.key).Nodup) {l : Location} (hl : l ∈ ls) :
    d.handlers.find? l.key = some l.handler := by
  have hkeys : ((ls.map fun l => (l.key, l.handler)).map Prod.fst).Nodup := by rwa [List.map_map]
  rw [hhandlers]
  exact find?_table_of_nodup hkeys (List.mem_map_of_mem hl)

include hcount in
/-- The count is right if no handler has replaced another. -/
theorem count_iff : st.numHandlers = d.handlers.size ↔ (ls.map Location.key).Nodup := by
  have hsize := size_table_iff (ls.map fun l => (l.key, l.handler))
  rw [← hhandlers, List.length_map, List.map_map] at hsize
  rw [hcount, eq_comm]
  exact hsize

omit hhandlers in
include huri in
theorem mem_keys_uri {k : Bytes} : k ∈ st.requestHandlerUri.keys ↔ k ∈ ls.map Location.uriKey := by
  rw [huri, mem_keys_table, List.map_map]
  rfl

include huri hcount

/-- A label that is published tells of a location. -/
theorem Published.of_tables (h : Published d st) :
    (ls.map Location.key).Nodup ∧
      ∀ l ∈ ls, (l.type = .bad → l.path = bytes "/badrequest") ∧ l.handler ≠ none := by
  have hnodup : (ls.map Location.key).Nodup := (count_iff hhandlers hcount).mp h.count
  have hkey : ∀ l ∈ ls, l.key ∈ st.requestHandlerUri.keys := by
    intro l hl
    rw [h.keys, mem_keys_handlers hhandlers]
    exact List.mem_map_of_mem hl
  refine ⟨hnodup, fun l hl => ⟨fun hbad => ?_, ?_⟩⟩
  · -- the label under its key is that of a location with the same key
    have hlabel := hkey l hl
    rw [Location.key_of_bad hbad, mem_keys_uri huri] at hlabel
    obtain ⟨l', hl', huriKey⟩ := List.mem_map.mp hlabel
    obtain ⟨hkey', hpath⟩ := Location.path_of_uriKey huriKey
    have hsame : l' = l := List.inj_on_of_nodup_map hnodup hl' hl (hkey'.trans (Location.key_of_bad hbad).symm)
    rwa [← hsame]
  · intro hnull
    obtain ⟨label, hlabel⟩ := Option.ne_none_iff_exists'.mp (OrdMap.mem_keys.mp (hkey l hl))
    have hmap := h.labels l.key l.handler label (find?_handlers hhandlers hnodup hl) hlabel
    rw [hnull] at hmap
    cases hmap

/-- What is stored at keys of its own is published. -/
theorem published_of_tables (hnodup : (ls.map Location.key).Nodup)
    (hls : ∀ l ∈ ls, (l.type = .bad → l.path = bytes "/badrequest") ∧ l.handler ≠ none ∧ l.create = .ok l.handler) :
    Published d st := by
  have hsame : ls.map Location.uriKey = ls.map Location.key :=
    List.map_congr_left fun l hl => Location.uriKey_eq_key (hls l hl).1
  refine ⟨OrdMap.keys_ext fun k => ?_, fun k handler label hfind hlabel => ?_, (count_iff hhandlers hcount).mpr hnodup⟩
  · rw [mem_keys_uri huri, mem_keys_handlers hhandlers, hsame]
  · rw [huri] at hlabel
    obtain ⟨l, hl, hentry⟩ := List.mem_map.mp (mem_of_find?_table hlabel)
    obtain ⟨rfl, rfl⟩ := Prod.mk.inj hentry
    obtain ⟨hbad, hne, hcreate⟩ := hls l hl
    rw [Location.uriKey_eq_key hbad, find?_handlers hhandlers hnodup hl] at hfind
    obtain ⟨h, hhandler⟩ := Option.ne_none_iff_exists'.mp hne
    obtain ⟨child, -, hinit⟩ := Location.create_eq_ok hcreate
    rw [hhandler] at hinit
    rw [← Option.some.inj hfind, hhandler, Option.map_some, HandlerType.type_of_init hinit]

end tables

/-- **When the published table is that of the handlers**, for a dispatcher whose construction has come to an end: when no
two of the registered locations go under one key, bad requests have their handler at `/badrequest`, and the ports of
proxies are numbers. -/
theorem create_published_iff (config : NginxConfig) (st st' : Statics) (d : RequestHandlerDispatcher)
    (hempty : st.requestHandlerUri = OrdMap.empty) (hzero : st.numHandlers = 0)
    (hd : create config st = .ok (d, st')) :
    Published d st' ↔
      ((registrations config).map Location.key).Nodup ∧
        ∀ l ∈ registrations config, (l.type = .bad → l.path = bytes "/badrequest") ∧ l.PortsRead := by
  obtain ⟨-, -, -, hstore⟩ := create_eq_ok.mp hd
  have hreached := reached_of_create hd
  have hhandlers : d.handlers = table ((registrations config).map fun l => (l.key, l.handler)) :=
    handlers_of_reached hreached
  have huri : st'.requestHandlerUri = table ((registrations config).map fun l => (l.uriKey, l.type.label)) := by
    rw [← requestHandlerUri_foldl_store hempty, hstore]
  have hcount : st'.numHandlers = (registrations config).length := by
    have hlength := numHandlers_foldl_store (registrations config) (⟨OrdMap.empty⟩, st)
    rw [hstore, hzero, Nat.zero_add] at hlength
    exact hlength
  have hcreate : ∀ l ∈ registrations config, l.create = .ok l.handler := fun l => create_of_reached hreached
  constructor
  · intro hpublished
    obtain ⟨hnodup, hls⟩ := hpublished.of_tables hhandlers huri hcount
    exact ⟨hnodup, fun l hl => ⟨(hls l hl).1, (Location.handler_ne_none_iff (hcreate l hl)).mp (hls l hl).2⟩⟩
  · rintro ⟨hnodup, hls⟩
    refine published_of_tables hhandlers huri hcount hnodup fun l hl => ?_
    exact ⟨(hls l hl).1, (Location.handler_ne_none_iff (hcreate l hl)).mpr (hls l hl).2, hcreate l hl⟩

/-- The blocks of a config with locations of special types, one of them twice, and a proxy. -/
def tableLocations : NginxConfig :=
  [⟨[bytes "location", quoted (bytes "/nf"), bytes "NotFoundHandler"], some []⟩,
    ⟨[bytes "location", quoted (bytes "/badrequest"), bytes "BadRequestHandler"], some []⟩,
    ⟨[bytes "location", quoted (bytes "/echo"), bytes "EchoHandler"], some []⟩,
    ⟨[bytes "location", quoted (bytes "/echo/"), bytes "StatusHandler"], some []⟩,
    ⟨[bytes "location", quoted (bytes "/proxy"), bytes "ReverseProxyHandler"],
      some [⟨[bytes "proxy_dest", bytes "up"], none⟩, ⟨[bytes "proxy_port", bytes "80"], none⟩]⟩]

/-- The second location for `/echo` is passed over. -/
theorem registrations_tableLocations :
    registrations [⟨[bytes "server"], some tableLocations⟩] =
      [⟨.missing, bytes "/nf", some []⟩, ⟨.bad, bytes "/badrequest", some []⟩, ⟨.echo, bytes "/echo", some []⟩,
        ⟨.reverse, bytes "/proxy", some [⟨[bytes "proxy_dest", bytes "up"], none⟩, ⟨[bytes "proxy_port", bytes "80"], none⟩]⟩] :=
  rfl

/-- What `create` makes of them. -/
def tableDispatcher : RequestHandlerDispatcher :=
  ⟨(((OrdMap.empty.insert (bytes "/") (some .notFound)).insert (bytes "/badrequest") (some .badRequest)).insert
    (bytes "/echo") (some .echo)).insert (bytes "/proxy") (some (.reverseProxy ⟨bytes "/proxy", bytes "up", 80⟩))⟩

theorem create_published_locations :
    ∃ st', create [⟨[bytes "server"], some tableLocations⟩] .initial = .ok (tableDispatcher, st') ∧
      Published tableDispatcher st' := by
  obtain ⟨st', hd⟩ : ∃ st', create [⟨[bytes "server"], some tableLocations⟩] .initial = .ok (tableDispatcher, st') :=
    ⟨_, rfl⟩
  refine ⟨st', hd, (create_published_iff _ .initial st' tableDispatcher rfl rfl hd).mpr ?_⟩
  rw [registrations_tableLocations]
  refine ⟨by decide, ?_⟩
  have hport : stoi (bytes "80") ≠ none := by decide
  have hdest : bytes "proxy_dest" ≠ bytes "proxy_port" := by decide
  simp [Location.PortsRead, hport, hdest]

/-- A config with the handler of bad requests elsewhere. -/
def badText : Bytes := bytes "server \x7b location \"/bad\" BadRequestHandler \x7b\x7d \x7d"

/-- Its label is not where the handler is. -/
theorem badText_misplaced :
    ∃ config d st', NginxConfigParser.parse badText = (true, config) ∧ create config .initial = .ok (d, st') ∧
      d.handlers.keys = [bytes "/badrequest"] ∧ st'.requestHandlerUri.keys = [bytes "/bad"] ∧ ¬ Published d st' := by
  refine ⟨_, _, _, rfl, rfl, rfl, rfl, fun h => ?_⟩
  exact absurd (h.keys.symm.trans (by rfl)) (by decide : [bytes "/badrequest"] ≠ [bytes "/bad"])

end RequestHandlerDispatcher

end WebServer
