import WebServer.Dispatcher.Dispatch
import WebServer.Dispatcher.Loading
import WebServer.Handler.LocalLinks

/-!
# The targets of proxied requests

A request that is dispatched to a proxy has the location path in front of its URI, and what is behind the path is
forwarded. It starts with a slash if the URI goes on with one behind the path, and the links of the proxied pages lead
back to where they have led unless the path is a slash itself (`dispatch_targets_iff`).
-/

namespace WebServer

open Lib NginxConfigParser

/-! ### Location paths -/

theorem popSlashes_eq_cons {xs ys : Bytes} (h : popSlashes xs = slash :: ys) : ys = [] := by
  induction xs with
  | nil => cases h
  | cons c rest ih =>
      rcases rest with _ | ⟨d, rest⟩
      · exact (List.cons.inj h).2.symm
      · rw [popSlashes] at h
        split_ifs at h with hc
        · exact ih h
        · exact absurd (List.cons.inj h).1 hc

/-- A path without trailing slashes ends in a slash only if it is one. -/
theorem stripSlashes_of_getLast? {path : Bytes} (h : (stripSlashes path).getLast? = some slash) :
    stripSlashes path = [slash] := by
  unfold stripSlashes at h ⊢
  rw [List.getLast?_reverse] at h
  obtain ⟨ys, hys⟩ := List.head?_eq_some_iff.mp h
  rw [hys, popSlashes_eq_cons hys]
  rfl

namespace RequestHandlerDispatcher

variable {config : NginxConfig} {d : RequestHandlerDispatcher} {st st' : Statics} {h : ReverseProxyHandler}

theorem init_eq_reverseProxy {type : HandlerType} {child : NginxConfig} {path : Bytes}
    (hinit : type.init child path = .ok (some (.reverseProxy h))) : type = .reverse ∧ h.locationPath = path := by
  cases type with
  | reverse =>
      refine ⟨rfl, ?_⟩
      have hproxy : (ReverseProxyHandler.init child path).map Handler.reverseProxy = some (.reverseProxy h) :=
        Except.ok.inj hinit
      obtain ⟨h', hh', hsame⟩ := Option.map_eq_some_iff.mp hproxy
      obtain rfl : h' = h := Handler.reverseProxy.inj hsame
      obtain ⟨out, -, rfl⟩ := Option.map_eq_some_iff.mp hh'
      rfl
  | static =>
      obtain ⟨h', -, hsame⟩ := map_eq_ok.mp hinit
      cases hsame
  | _ => cases hinit

/-- A proxy is stored under its location path, which is that of a location. -/
theorem create_reverseProxy (hd : create config st = .ok (d, st')) {key : Bytes}
    (hmem : (key, some (.reverseProxy h)) ∈ d.handlers.entries) :
    h.locationPath = key ∧ ∃ l ∈ registrations config, l.path = key := by
  obtain ⟨-, -, -, hstore⟩ := create_eq_ok.mp hd
  have hhandlers := foldl_store (registrations config) st
  rw [hstore] at hhandlers
  have hfind : d.handlers.find? key = some (some (.reverseProxy h)) := OrdMap.find?_iff_mem.mpr hmem
  rw [hhandlers] at hfind
  obtain ⟨l, hl, hentry⟩ := List.mem_map.mp (mem_of_find?_table hfind)
  obtain ⟨hkey, hhandler⟩ := Prod.mk.inj hentry
  obtain ⟨handler, hcreate, hsame⟩ := toOption_bind_eq_some.mp hhandler
  obtain rfl : handler = some (.reverseProxy h) := hsame
  obtain ⟨child, -, hinit⟩ := l.create_eq_ok hcreate
  obtain ⟨htype, hpath⟩ := init_eq_reverseProxy hinit
  have hplain : l.key = l.path := by
    unfold Location.key
    rw [htype]
    rfl
  exact ⟨hpath.trans (hplain.symm.trans hkey), l, hl, hplain.symm.trans hkey⟩

/-- The path of a proxy that a request is dispatched to. -/
theorem dispatch_reverseProxy {input : Bytes} (hparse : parse input = (true, config)) (hd : create config st = .ok (d, st'))
    {req : Request} (hroute : d.dispatch req = some (.reverseProxy h)) :
    h.locationPath ≠ [] ∧ h.locationPath <+: req.uri ∧ doubleQuote ∉ h.locationPath ∧
      (h.locationPath.getLast? = some slash → h.locationPath = [slash]) := by
  obtain ⟨key, hmem, hne, hpre⟩ := dispatch_mem hroute
  obtain ⟨rfl, l, hl, hpath⟩ := create_reverseProxy hd hmem
  obtain ⟨s, hs, hlocation⟩ := exists_of_mem_named (mem_of_mem_admitted hl)
  obtain ⟨token, path, htoken, hunquote, hstrip, -⟩ := location?_eq_some hlocation
  obtain ⟨quoted, hquoted, hquotes⟩ :=
    unquote_isToken (isToken_of_parse hparse (occurs_of_mem_visited hs) token htoken)
  have hpathQuotes : doubleQuote ∉ path := hquotes path (Except.ok.inj (hquoted.symm.trans hunquote))
  rw [← hpath, hstrip] at hne hpre ⊢
  exact ⟨hne, hpre, fun hmem => hpathQuotes ((stripSlashes_isPrefix path).subset hmem), stripSlashes_of_getLast?⟩

end RequestHandlerDispatcher

namespace ReverseProxyHandler

variable {h : ReverseProxyHandler}

/-- What is forwarded starts with a slash if nothing or a slash is behind the location path. -/
theorem target_head?_iff {uri : Bytes} (hpre : h.locationPath <+: uri) :
    (h.target uri).head? = some slash ↔ uri = h.locationPath ∨ h.locationPath ++ [slash] <+: uri := by
  obtain ⟨rest, rfl⟩ := hpre
  rw [target_append, List.prefix_append_right_inj]
  rcases rest with _ | ⟨c, rest⟩
  · rw [if_pos rfl, List.append_nil]
    exact iff_of_true (by decide) (Or.inl rfl)
  · rw [if_neg (List.cons_ne_nil c rest), List.head?_cons, Option.some.injEq, List.append_right_eq_self,
      List.cons_prefix_cons]
    simp [eq_comm]

/-- A link leads back if the location path is no slash. -/
theorem leadsBack_iff {lib : Libraries} (hlib : PutsPath lib h.locationPath) (hne : h.locationPath ≠ [])
    (hquote : doubleQuote ∉ h.locationPath) (hslash : h.locationPath.getLast? = some slash → h.locationPath = [slash])
    {t : Bytes} (ht : t.head? = some slash) (htQuote : doubleQuote ∉ t) :
    h.LeadsBack lib t ↔ h.locationPath ≠ [slash] ∨ t = [slash] := by
  obtain ⟨rest, rfl⟩ := List.head?_eq_some_iff.mp ht
  rw [leadsBack_iff_target hlib hne hquote fun hmem => htQuote (List.mem_cons_of_mem _ hmem)]
  unfold trimmedPath
  by_cases hroot : h.locationPath = [slash]
  · -- the slash of the target is taken for the path
    have htrimmed : (if h.locationPath.getLast? = some (ch '/') then h.locationPath.dropLast else h.locationPath) = [] := by
      rw [hroot]
      rfl
    have hsplit : ch '/' :: rest = h.locationPath ++ rest := by rw [hroot]; rfl
    rw [htrimmed, List.nil_append, hsplit, target_append, ← hsplit]
    rcases rest with _ | ⟨c, rest⟩
    · exact iff_of_true rfl (Or.inr rfl)
    · rw [if_neg (List.cons_ne_nil c rest)]
      refine iff_of_false (fun heq => ?_) ?_
      · have hlength := congrArg List.length heq
        simp at hlength
      · simp [hroot]
  · rw [if_neg fun hlast => hroot (hslash hlast), target_append, if_neg (List.cons_ne_nil _ _)]
    exact iff_of_true rfl (Or.inl hroot)

end ReverseProxyHandler

namespace RequestHandlerDispatcher

open ReverseProxyHandler

/-- **When stripping and rewriting agree**, for a proxy that a request is dispatched to: what is forwarded starts with a
slash if the URI is the location path or goes on with a slash behind it, and a link leads back to its target if the
location path is no slash or the target is one (as far as the path means itself as a format). -/
theorem dispatch_targets_iff (input : Bytes) (config : NginxConfig) (hparse : parse input = (true, config))
    (st st' : Statics) (d : RequestHandlerDispatcher) (hd : create config st = .ok (d, st')) (req : Request)
    (h : ReverseProxyHandler) (hroute : d.dispatch req = some (.reverseProxy h)) (lib : Libraries)
    (hlib : PutsFormats lib) :
    ((h.target req.uri).head? = some slash ↔ req.uri = h.locationPath ∨ h.locationPath ++ [slash] <+: req.uri) ∧
      (Plain h.locationPath → ∀ t : Bytes, t.head? = some slash → doubleQuote ∉ t →
        (h.LeadsBack lib t ↔ h.locationPath ≠ [slash] ∨ t = [slash])) := by
  obtain ⟨hne, hpre, hquote, hslash⟩ := dispatch_reverseProxy hparse hd hroute
  refine ⟨target_head?_iff hpre, fun hplain t ht htQuote => ?_⟩
  exact leadsBack_iff (hlib.putsPath hplain) hne hquote hslash ht htQuote

/-- A config with a proxy. -/
def proxyText (path : Bytes) : Bytes :=
  bytes "server \x7b location " ++ quoted path ++ bytes " ReverseProxyHandler \x7b\x7d \x7d"

def uriRequest (uri : Bytes) : Request := { Request.fresh .getReq 1 1 with uri := uri }

theorem dispatch_targets_ucla :
    let h : ReverseProxyHandler := ⟨bytes "/ucla", [], 0⟩
    ((h.target (bytes "/ucla/a")).head? = some slash ↔
        bytes "/ucla/a" = h.locationPath ∨ h.locationPath ++ [slash] <+: bytes "/ucla/a") ∧
      (Plain h.locationPath → ∀ t : Bytes, t.head? = some slash → doubleQuote ∉ t →
        (h.LeadsBack greedyLibraries t ↔ h.locationPath ≠ [slash] ∨ t = [slash])) :=
  dispatch_targets_iff (proxyText (bytes "/ucla")) _ (by rfl) .initial _ _ (by rfl) (uriRequest (bytes "/ucla/a"))
    ⟨bytes "/ucla", [], 0⟩ (by rfl) greedyLibraries putsFormats_greedyLibraries

/-- A proxy at the root loses the slash, of a target and of a link. -/
theorem rootProxy_target :
    let h : ReverseProxyHandler := ⟨bytes "/", [], 0⟩
    ∃ config ds, parse (proxyText (bytes "/")) = (true, config) ∧ create config .initial = .ok ds ∧
      ds.1.dispatch (uriRequest (bytes "/abc")) = some (.reverseProxy h) ∧
      h.target (bytes "/abc") = bytes "abc" ∧ ¬ h.LeadsBack greedyLibraries (bytes "/abc") := by
  have hplain : Plain (bytes "/") := ⟨by decide, by decide⟩
  refine ⟨_, _, rfl, rfl, by rfl, by decide, fun hback => ?_⟩
  have hroot := (leadsBack_iff (putsFormats_greedyLibraries.putsPath hplain) (by decide) (by decide) (fun _ => rfl)
    (by decide) (by decide)).mp hback
  revert hroot
  decide

end RequestHandlerDispatcher

end WebServer
