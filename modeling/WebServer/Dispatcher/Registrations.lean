import WebServer.Dispatcher.Locations

/-!
# The order of registrations

`createHandler` passes over a location whose path is a key of `handlers_`, but two types of handlers are stored under
keys of their own. If every location that is registered goes under its path, the first location that names a path is the
one whose handler stays there; if one does not, nothing is stored under the path it names
(`first_registration_wins_iff`).
-/

namespace WebServer

open Lib

namespace RequestHandlerDispatcher

variable {config : NginxConfig} {st : Statics} {done done' : NginxConfig}
  {ds ds' : RequestHandlerDispatcher × Statics}

/-- What the constructor has when it has visited some of the statements. -/
structure Reached (config : NginxConfig) (st : Statics) (done : NginxConfig)
    (ds : RequestHandlerDispatcher × Statics) : Prop where
  isPrefix : done <+: visited config
  run : done.foldlM createLocation (⟨OrdMap.empty⟩, st) = .ok ds

/-- When the constructor is through, it has visited all of them. -/
theorem reached_of_create (h : create config st = .ok ds) : Reached config st (visited config) ds :=
  ⟨List.prefix_rfl, (foldlM_createServer_eq_ok.mp h).2⟩

/-- One statement less. -/
theorem Reached.of_concat {s : NginxConfigStatement} (h : Reached config st (done ++ [s]) ds) :
    ∃ mid, Reached config st done mid ∧ createLocation mid s = .ok ds := by
  have hrun := h.run
  rw [List.foldlM_append, bind_eq_ok] at hrun
  obtain ⟨mid, hmid, hlast⟩ := hrun
  rw [List.foldlM_cons, bind_eq_ok] at hlast
  obtain ⟨ds', hstep, hnil⟩ := hlast
  rw [List.foldlM_nil, pure_eq_ok] at hnil
  exact ⟨mid, ⟨(List.prefix_append done [s]).trans h.isPrefix, hmid⟩, hnil ▸ hstep⟩

/-! ### What is stored -/

theorem handlers_of_reached (h : Reached config st done ds) :
    ds.1.handlers = table ((registered done).map fun l => (l.key, l.handler)) := by
  obtain ⟨-, -, hstore⟩ := foldlM_start_eq_ok.mp h.run
  rw [← hstore, foldl_store]

theorem create_of_reached (h : Reached config st done ds) {l : Location} (hl : l ∈ registered done) :
    l.create = .ok l.handler := by
  obtain ⟨-, hcreate, -⟩ := foldlM_start_eq_ok.mp h.run
  obtain ⟨handler, hhandler⟩ := hcreate l hl
  unfold Location.handler
  rw [hhandler]
  rfl

/-- A key is that of a registered location. -/
theorem find?_ne_none_of_reached (h : Reached config st done ds) {k : Bytes} :
    ds.1.handlers.find? k ≠ none ↔ k ∈ (registered done).map Location.key := by
  rw [handlers_of_reached h, find?_table_ne_none, List.map_map]
  rfl

theorem registered_mono (h : done <+: done') : registered done <+: registered done' := by
  obtain ⟨more, rfl⟩ := h
  unfold registered named
  rw [List.filterMap_append, admitted_append]
  exact List.prefix_append _ _

/-! ### Under their own paths -/

section ownPaths

variable (hown : ∀ l ∈ registered done, l.key = l.path)

include hown

theorem nodup_keys_registered : ((registered done).map fun l => (l.key, l.handler)).map Prod.fst |>.Nodup := by
  rw [List.map_map]
  exact nodup_keys_of_forall_eq hown

/-- The first location that names a path is the one that is registered. -/
theorem find?_registered (k : Bytes) :
    (registered done).find? (fun l => decide (l.path = k)) = (named done).find? fun l => decide (l.path = k) :=
  find?_admitted hown (by simp)

/-- A path that is no key has not been named. -/
theorem find?_named_of_new {k : Bytes} (hnew : k ∉ (registered done).map Location.key) :
    (named done).find? (fun l => decide (l.path = k)) = none := by
  rw [← find?_registered hown, List.find?_eq_none]
  intro l hl hsame
  refine hnew (List.mem_map.mpr ⟨l, hl, ?_⟩)
  rw [hown l hl]
  simpa using hsame

/-- It is stored under the path. -/
theorem find?_of_named (h : Reached config st done ds) {k : Bytes} {l : Location}
    (hl : (named done).find? (fun l => decide (l.path = k)) = some l) :
    l.create = .ok l.handler ∧ ds.1.handlers.find? k = some l.handler := by
  rw [← find?_registered hown] at hl
  have hmem : l ∈ registered done := List.mem_of_find?_eq_some hl
  have hpath : l.path = k := by simpa using List.find?_some hl
  have hentry : (k, l.handler) ∈ (registered done).map fun l => (l.key, l.handler) := by
    rw [← hpath, ← hown l hmem]
    exact List.mem_map_of_mem hmem
  refine ⟨create_of_reached h hmem, ?_⟩
  rw [handlers_of_reached h]
  exact find?_table_of_nodup (nodup_keys_registered hown) hentry

/-- Nothing that is stored is replaced. -/
theorem find?_of_earlier (h : Reached config st done ds) {earlier : NginxConfig}
    (hearlier : Reached config st earlier ds') (hbefore : earlier <+: done) {k : Bytes} {handler : Option Handler}
    (hfind : ds'.1.handlers.find? k = some handler) : ds.1.handlers.find? k = some handler := by
  rw [handlers_of_reached hearlier] at hfind
  rw [handlers_of_reached h]
  refine find?_table_of_nodup (nodup_keys_registered hown) ?_
  exact ((registered_mono hbefore).map _).subset (mem_of_find?_table hfind)

end ownPaths

theorem named_concat (done : NginxConfig) (s : NginxConfigStatement) :
    named (done ++ [s]) = named done ++ ((location? s).toOption.bind id).toList := by
  unfold named
  rw [List.filterMap_append]
  rfl

/-- If the first location that names a path is always the one stored there, all are stored under their paths. -/
theorem key_eq_path (hfirst : ∀ done ds, Reached config st done ds → ∀ k l,
      (named done).find? (fun l => decide (l.path = k)) = some l → ds.1.handlers.find? k ≠ none)
    (h : Reached config st done ds) : ∀ l ∈ registered done, l.key = l.path := by
  induction done using List.reverseRecOn generalizing ds with
  | nil => simp [registered, named, admitted]
  | append_singleton done s ih =>
      obtain ⟨mid, hmid, -⟩ := h.of_concat
      have hold := ih hmid
      have hnamed := named_concat done s
      unfold registered at hold ⊢
      cases hs : (location? s).toOption.bind id with
      | none =>
          rw [hs, Option.toList_none, List.append_nil] at hnamed
          rwa [hnamed]
      | some l =>
          rw [hs, Option.toList_some] at hnamed
          rw [hnamed]
          by_cases hnew : l.path ∈ (registered done).map Location.key
          · rwa [admitted_concat_of_mem hnew]
          -- the first location that names its path, so something is stored there
          have hfind : (named (done ++ [s])).find? (fun l' => decide (l'.path = l.path)) = some l := by
            rw [hnamed, List.find?_append, find?_named_of_new hold hnew]
            simp
          have hkey := (find?_ne_none_of_reached h).mp (hfirst _ _ h _ _ hfind)
          unfold registered at hkey
          rw [hnamed, admitted_concat_of_notMem hnew, List.map_append, List.mem_append] at hkey
          rw [admitted_concat_of_notMem hnew]
          intro l' hl'
          rcases List.mem_append.mp hl' with hl' | hl'
          · exact hold l' hl'
          · obtain rfl := List.mem_singleton.mp hl'
            rcases hkey with hkey | hkey
            · exact absurd hkey hnew
            · exact (List.mem_singleton.mp hkey).symm

/-- **When the first registration wins**: when every location that is registered goes under its path. In every state that
the constructor reaches, what is stored then stays, and under a path is the handler of the first location that names
it. -/
theorem first_registration_wins_iff (config : NginxConfig) (st : Statics) :
    (∀ done ds, Reached config st done ds →
        (∀ earlier ds', Reached config st earlier ds' → earlier <+: done → ∀ k handler,
          ds'.1.handlers.find? k = some handler → ds.1.handlers.find? k = some handler) ∧
        ∀ k l, (named done).find? (fun l => decide (l.path = k)) = some l →
          ∃ handler, l.create = .ok handler ∧ ds.1.handlers.find? k = some handler) ↔
      ∀ done ds, Reached config st done ds → ∀ l ∈ registered done, l.key = l.path := by
  constructor
  · intro hwins done ds h
    refine key_eq_path (fun done ds h k l hl => ?_) h
    obtain ⟨handler, -, hfind⟩ := (hwins done ds h).2 k l hl
    rw [hfind]
    exact Option.some_ne_none handler
  · intro hkeys done ds h
    have hown := hkeys done ds h
    refine ⟨fun earlier ds' hearlier hbefore k handler => find?_of_earlier hown h hearlier hbefore, fun k l hl => ?_⟩
    exact ⟨l.handler, find?_of_named hown h hl⟩

/-- A config with an echo handler at the root, and the handler of missing pages elsewhere. -/
def overwritingText : Bytes :=
  bytes "server \x7b location \"/\" EchoHandler \x7b\x7d location \"/nf\" NotFoundHandler \x7b\x7d \x7d"

/-- The second location replaces the handler of the first. -/
theorem overwritingText_replaces :
    ∃ config earlier ds' ds, NginxConfigParser.parse overwritingText = (true, config) ∧
      Reached config .initial earlier ds' ∧ Reached config .initial (visited config) ds ∧
      ds'.1.handlers.find? (bytes "/") = some (some .echo) ∧ ds.1.handlers.find? (bytes "/") = some (some .notFound) := by
  refine ⟨_, (visited (NginxConfigParser.parse overwritingText).2).take 1, _, _, rfl,
    ⟨List.take_prefix _ _, rfl⟩, ⟨List.prefix_rfl, rfl⟩, by rfl, by rfl⟩

end RequestHandlerDispatcher

end WebServer
