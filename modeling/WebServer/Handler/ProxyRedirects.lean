import WebServer.Handler.ProxyLocation
import WebServer.Lib.Runs

/-!
# Following redirects

A call of `HandleRequest` that follows a redirect is a call for another URI. What the proxied server answers depends on
the target alone, so whether a chain of such calls ends is a question about its targets and the locations that it
redirects them to (`handleRequest_ends_iff`). The two tests in front of the recursive call only keep it from following a
location that is not rewritten and one that leads to the target it comes from; two targets that redirect to each other go
on for ever.
-/

namespace WebServer

open Lib StateTransition

namespace ReverseProxyHandler

variable {h : ReverseProxyHandler} {lib : Libraries} {exchange : Bytes → Exchange} {req : Request} {rep : Reply}

/-! ### Faults of one call -/

/-- Not a fault of the recursion. -/
def NoOverflow {α : Type} (x : Except Fault α) : Prop := x ≠ .error .stackOverflow

theorem NoOverflow.bind {α β : Type} {x : Except Fault α} {f : α → Except Fault β} (hx : NoOverflow x)
    (hf : ∀ a, x = .ok a → NoOverflow (f a)) : NoOverflow (x >>= f) := by
  cases x with
  | error e => exact fun h => hx (congrArg Except.error (Except.error.inj h))
  | ok a => exact hf a rfl

theorem noOverflow_ok {α : Type} (a : α) : NoOverflow (.ok a) := nofun

theorem noOverflow_error {α : Type} {e : Fault} (he : e ≠ .stackOverflow) : NoOverflow (.error e : Except Fault α) :=
  fun h => he (Except.error.inj h)

theorem noOverflow_called (result : Option Bytes) : NoOverflow (called result) := by
  cases result with
  | none => exact noOverflow_error (by decide)
  | some text => exact noOverflow_ok text

theorem noOverflow_substr (text : Bytes) (pos : Nat) : NoOverflow (substr text pos) := by
  unfold substr
  split_ifs
  · exact noOverflow_error (by decide)
  · exact noOverflow_ok _

theorem noOverflow_headerLoop (headers : OrdMap Bytes Bytes) (scan : HeaderScan) (text : Bytes) :
    NoOverflow (headerLoop headers scan text) := by
  induction hn : text.length using Nat.strong_induction_on generalizing headers scan text with
  | _ n ih =>
      rcases text with _ | ⟨c, text⟩
      · rw [headerLoop]
        exact noOverflow_error (by decide)
      · rw [headerLoop]
        split_ifs with hc
        · rcases text with _ | ⟨d, rest⟩
          · exact noOverflow_error (by decide)
          · dsimp only
            split_ifs with hrest
            · exact noOverflow_ok _
            · exact ih rest.length (by simp [← hn]) _ _ rest rfl
        · exact ih text.length (by simp [← hn]) _ _ text rfl

theorem noOverflow_parseResponse (data : Bytes) : NoOverflow (parseResponse data) := by
  apply (noOverflow_substr _ _).bind
  intro behindLine _
  apply (noOverflow_substr _ _).bind
  intro body _
  apply NoOverflow.bind
  · unfold parseHeaders
    split_ifs
    · exact noOverflow_ok _
    · exact noOverflow_headerLoop _ _ _
  · exact fun _ _ => noOverflow_ok _

theorem noOverflow_redirect (h : ReverseProxyHandler) (lib : Libraries) (rep : Reply) (uri : Bytes) :
    NoOverflow (h.redirect lib rep uri) := by
  unfold redirect
  split_ifs
  · apply (noOverflow_called _).bind
    intro modified _
    split_ifs <;> exact noOverflow_ok _
  · exact noOverflow_ok _

theorem noOverflow_ifGzip (rep : Reply) (f : Bytes → Option Bytes) (body : Bytes) : NoOverflow (ifGzip rep f body) := by
  unfold ifGzip
  split_ifs
  · exact noOverflow_called _
  · exact noOverflow_ok _

theorem noOverflow_appendRelativeURI (lib : Libraries) (body append : Bytes) :
    NoOverflow (appendRelativeURI lib body append) := by
  have htrimmed : NoOverflow (trimmedAppend append) := by
    unfold trimmedAppend
    split
    · exact noOverflow_error (by decide)
    · exact noOverflow_ok _
  exact htrimmed.bind fun _ _ => (noOverflow_called _).bind fun _ _ => noOverflow_called _

theorem noOverflow_rewrite (h : ReverseProxyHandler) (lib : Libraries) (rep : Reply) :
    NoOverflow (h.rewrite lib rep) := by
  apply (noOverflow_ifGzip _ _ _).bind
  intro decompressed _
  apply (noOverflow_appendRelativeURI _ _ _).bind
  intro modified _
  apply (noOverflow_ifGzip _ _ _).bind
  exact fun _ _ => noOverflow_ok _

/-! ### The redirect -/

/-- The code of a redirect. -/
def Moved (rep : Reply) : Prop := rep.code = StatusCode.movedTemporarily ∨ rep.code = StatusCode.movedPermanently

instance (rep : Reply) : Decidable (Moved rep) := inferInstanceAs (Decidable (_ ∨ _))

def location (rep : Reply) : Bytes := (rep.headers.find? (bytes "Location")).getD []

/-- Looking up the location leaves an empty one where there is none. -/
def located (rep : Reply) : Reply :=
  if Moved rep then { rep with headers := rep.headers.insert (bytes "Location") (location rep) } else rep

theorem redirect_of_not_moved (hmoved : ¬ Moved rep) (uri : Bytes) : h.redirect lib rep uri = .ok (located rep, none) := by
  have hcode : ¬ (rep.code = StatusCode.movedTemporarily ∨ rep.code = StatusCode.movedPermanently) := hmoved
  rw [redirect, if_neg hcode, located, if_neg hmoved]

theorem redirect_of_moved (hmoved : Moved rep) (uri : Bytes) :
    h.redirect lib rep uri =
      uriReplace lib (location rep) h.proxyDest (h.locationPath ++ bytes "/") >>= fun next =>
        .ok (located rep, if next = location rep ∨ next = uri then none else some next) := by
  have hcode : rep.code = StatusCode.movedTemporarily ∨ rep.code = StatusCode.movedPermanently := hmoved
  rw [redirect, if_pos hcode, located, if_pos hmoved]
  refine congrArg (_ >>= ·) (funext fun next => ?_)
  show (if next = location rep then _ else if next ≠ uri then _ else _) = _
  by_cases hsame : next = location rep
  · rw [if_pos hsame, if_pos (.inl hsame)]
    rfl
  · by_cases huri : next = uri
    · rw [if_neg hsame, if_neg (not_not.mpr huri), if_pos (.inr huri)]
      rfl
    · rw [if_neg hsame, if_pos huri, if_neg (by simp [hsame, huri])]
      rfl

theorem redirect_eq_ok {uri : Bytes} {out : Reply × Option Bytes} (h' : h.redirect lib rep uri = .ok out) :
    out.1 = located rep ∧ ∀ next, out.2 = some next →
      Moved rep ∧ uriReplace lib (location rep) h.proxyDest (h.locationPath ++ bytes "/") = .ok next ∧
        next ≠ location rep ∧ next ≠ uri := by
  by_cases hmoved : Moved rep
  · rw [redirect_of_moved hmoved] at h'
    obtain ⟨next, hnext, hout⟩ := bind_eq_ok.mp h'
    obtain rfl := Except.ok.inj hout
    refine ⟨rfl, fun next' hnext' => ?_⟩
    dsimp only at hnext'
    split_ifs at hnext' with hsame
    obtain rfl := Option.some.inj hnext'
    exact ⟨hmoved, hnext, not_or.mp hsame⟩
  · rw [redirect_of_not_moved hmoved] at h'
    obtain rfl := Except.ok.inj h'
    exact ⟨rfl, by simp⟩

/-- A redirect goes on with the URI made of its location if that is neither the location nor the URI of the call. -/
theorem redirect_follows_iff {uri next : Bytes} :
    (∃ out, h.redirect lib rep uri = .ok out ∧ out.2 = some next) ↔
      Moved rep ∧ uriReplace lib (location rep) h.proxyDest (h.locationPath ++ bytes "/") = .ok next ∧
        next ≠ location rep ∧ next ≠ uri := by
  constructor
  · rintro ⟨out, hout, hnext⟩
    exact (redirect_eq_ok hout).2 next hnext
  · rintro ⟨hmoved, hreplace, hgoes⟩
    rw [redirect_of_moved hmoved, hreplace]
    exact ⟨_, rfl, if_neg (not_or.mpr hgoes)⟩

/-! ### The chain of calls -/

/-- The URI that a call for `uri` goes on with, if it follows a redirect. -/
def follow (h : ReverseProxyHandler) (lib : Libraries) (exchange : Bytes → Exchange) (req : Request) (uri : Bytes) :
    Option Bytes :=
  match exchange (h.httpRequest { req with uri := uri }) with
  | .response data => (parseResponse data >>= fun rep => h.redirect lib rep uri).toOption.bind Prod.snd
  | _ => none

/-- The step of the chain, spelt out. -/
theorem follow_eq_some_iff {uri next : Bytes} :
    h.follow lib exchange req uri = some next ↔
      ∃ data rep, exchange (h.requestFor req (h.target uri)) = .response data ∧ parseResponse data = .ok rep ∧
        Moved rep ∧ uriReplace lib (location rep) h.proxyDest (h.locationPath ++ bytes "/") = .ok next ∧
        next ≠ location rep ∧ next ≠ uri := by
  have htext : h.httpRequest { req with uri := uri } = h.requestFor req (h.target uri) := rfl
  unfold follow
  rw [htext]
  cases hexchange : exchange (h.requestFor req (h.target uri)) with
  | resolverError => simp
  | connectError => simp
  | writeError => simp
  | readError => simp
  | response data =>
      simp only [toOption_bind_eq_some, bind_eq_ok]
      constructor
      · rintro ⟨out, ⟨rep, hparse, hredirect⟩, hnext⟩
        exact ⟨data, rep, rfl, hparse, redirect_follows_iff.mp ⟨out, hredirect, hnext⟩⟩
      · rintro ⟨_, rep, hdata, hparse, hfollows⟩
        obtain rfl := Exchange.response.inj hdata
        obtain ⟨out, hredirect, hnext⟩ := redirect_follows_iff.mpr hfollows
        exact ⟨out, ⟨rep, hparse, hredirect⟩, hnext⟩

theorem handleRequest_of_response (depth : Nat) {data : Bytes}
    (hexchange : exchange (h.httpRequest req) = .response data) :
    h.handleRequest lib exchange (depth + 1) req =
      parseResponse data >>= fun rep => h.redirect lib rep req.uri >>= fun out =>
        match out with
        | (_, some uri) => h.handleRequest lib exchange depth { req with uri := uri }
        | (rep, none) => h.rewrite lib rep := by
  rewrite [handleRequest, hexchange]
  rfl

theorem handleRequest_of_follow {uri : Bytes} (hfollow : h.follow lib exchange req req.uri = some uri) (depth : Nat) :
    h.handleRequest lib exchange (depth + 1) req = h.handleRequest lib exchange depth { req with uri := uri } := by
  unfold follow at hfollow
  split at hfollow
  · rename_i data hexchange
    obtain ⟨⟨rep', next⟩, hout, hnext⟩ := toOption_bind_eq_some.mp hfollow
    obtain ⟨rep, hparse, hredirect⟩ := bind_eq_ok.mp hout
    obtain rfl : next = some uri := hnext
    rw [handleRequest_of_response depth hexchange, bind_eq_of_ok hparse, bind_eq_of_ok hredirect]
  · cases hfollow

theorem noOverflow_of_not_follow (hfollow : h.follow lib exchange req req.uri = none) (depth : Nat) :
    NoOverflow (h.handleRequest lib exchange (depth + 1) req) := by
  cases hexchange : exchange (h.httpRequest req) with
  | resolverError =>
      rw [handleRequest, hexchange]
      exact noOverflow_ok _
  | connectError =>
      rw [handleRequest, hexchange]
      exact noOverflow_error (by decide)
  | writeError =>
      rw [handleRequest, hexchange]
      exact noOverflow_ok _
  | readError =>
      rw [handleRequest, hexchange]
      exact noOverflow_ok _
  | response data =>
      rw [handleRequest_of_response depth hexchange]
      apply (noOverflow_parseResponse data).bind
      intro rep hparse
      apply (noOverflow_redirect h lib rep req.uri).bind
      rintro ⟨rep', next⟩ hredirect
      cases next with
      | none => exact noOverflow_rewrite h lib rep'
      | some uri =>
          have hsome : h.follow lib exchange req req.uri = some uri :=
            follow_eq_some_iff.mpr
              ⟨data, rep, hexchange, hparse, redirect_follows_iff.mp ⟨_, hredirect, rfl⟩⟩
          rw [hfollow] at hsome
          cases hsome

/-- The stack has room for the calls if the chain of URIs is shorter. -/
theorem handleRequest_noOverflow_iff (depth : Nat) (req : Request) :
    NoOverflow (h.handleRequest lib exchange depth req) ↔
      EndsWithin (h.follow lib exchange req) depth req.uri := by
  induction depth generalizing req with
  | zero => exact iff_of_false (fun hno => hno rfl) id
  | succ depth ih =>
      cases hfollow : h.follow lib exchange req req.uri with
      | none =>
          refine iff_of_true (noOverflow_of_not_follow hfollow depth) fun uri huri => ?_
          rw [hfollow] at huri
          cases huri
      | some uri =>
          rw [handleRequest_of_follow hfollow, ih]
          constructor
          · intro hends uri' huri'
            obtain rfl := Option.mem_unique hfollow huri'
            exact hends
          · exact fun hends => hends uri hfollow

/-! ### The targets -/

/-- The location in the response to the request for a target, if that is a redirect. -/
def redirectsTo (h : ReverseProxyHandler) (exchange : Bytes → Exchange) (req : Request) (target : Bytes) : Option Bytes :=
  match exchange (h.requestFor req target) with
  | .response data => (parseResponse data).toOption.bind fun rep => if Moved rep then some (location rep) else none
  | _ => none

/-- The target that a redirect of a target leads to: none if rewriting leaves its location as it is, or leads to the same
target. -/
def nextTarget (h : ReverseProxyHandler) (lib : Libraries) (exchange : Bytes → Exchange) (req : Request) (target : Bytes) :
    Option Bytes :=
  (h.redirectsTo exchange req target).bind fun location =>
    (uriReplace lib location h.proxyDest (h.locationPath ++ bytes "/")).toOption.bind fun next =>
      if next = location ∨ h.target next = target then none else some (h.target next)

/-- The same for a location that names a target on the proxied host. -/
def nextHostTarget (h : ReverseProxyHandler) (exchange : Bytes → Exchange) (req : Request) (target : Bytes) :
    Option Bytes :=
  (h.redirectsTo exchange req target).bind fun location =>
    (h.hostTarget location).filter fun next => h.locationPath ++ next ≠ location ∧ next ≠ target

theorem redirectsTo_eq_some_iff {target loc : Bytes} :
    h.redirectsTo exchange req target = some loc ↔
      ∃ data rep, exchange (h.requestFor req target) = .response data ∧ parseResponse data = .ok rep ∧ Moved rep ∧
        location rep = loc := by
  unfold redirectsTo
  cases exchange (h.requestFor req target) with
  | response data =>
      simp only [toOption_bind_eq_some]
      constructor
      · rintro ⟨rep, hparse, hloc⟩
        split_ifs at hloc with hmoved
        exact ⟨data, rep, rfl, hparse, hmoved, Option.some.inj hloc⟩
      · rintro ⟨_, rep, hdata, hparse, hmoved, rfl⟩
        obtain rfl := Exchange.response.inj hdata
        exact ⟨rep, hparse, if_pos hmoved⟩
  | _ => simp

theorem follow_iff_redirectsTo {uri next : Bytes} :
    h.follow lib exchange req uri = some next ↔
      ∃ loc, h.redirectsTo exchange req (h.target uri) = some loc ∧
        uriReplace lib loc h.proxyDest (h.locationPath ++ bytes "/") = .ok next ∧ next ≠ loc ∧ next ≠ uri := by
  rw [follow_eq_some_iff]
  constructor
  · rintro ⟨data, rep, hexchange, hparse, hmoved, hnext⟩
    exact ⟨_, redirectsTo_eq_some_iff.mpr ⟨data, rep, hexchange, hparse, hmoved, rfl⟩, hnext⟩
  · rintro ⟨loc, hloc, hnext⟩
    obtain ⟨data, rep, hexchange, hparse, hmoved, rfl⟩ := redirectsTo_eq_some_iff.mp hloc
    exact ⟨data, rep, hexchange, hparse, hmoved, hnext⟩

theorem nextTarget_eq_some_iff {target next : Bytes} :
    h.nextTarget lib exchange req target = some next ↔
      ∃ loc uri, h.redirectsTo exchange req target = some loc ∧
        uriReplace lib loc h.proxyDest (h.locationPath ++ bytes "/") = .ok uri ∧ uri ≠ loc ∧ h.target uri = next ∧
        next ≠ target := by
  rw [nextTarget, Option.bind_eq_some_iff]
  simp only [toOption_bind_eq_some]
  constructor
  · rintro ⟨loc, hloc, uri, huri, hnext⟩
    split_ifs at hnext with hstays
    obtain ⟨hrewritten, hother⟩ := not_or.mp hstays
    obtain rfl := Option.some.inj hnext
    exact ⟨loc, uri, hloc, huri, hrewritten, rfl, hother⟩
  · rintro ⟨loc, uri, hloc, huri, hrewritten, rfl, hother⟩
    exact ⟨loc, hloc, uri, huri, if_neg (not_or.mpr ⟨hrewritten, hother⟩)⟩

/-- A redirect to another target is followed to it. -/
theorem exists_follow_of_nextTarget {uri next : Bytes} (hnext : h.nextTarget lib exchange req (h.target uri) = some next) :
    ∃ uri', h.follow lib exchange req uri = some uri' ∧ h.target uri' = next := by
  obtain ⟨loc, uri', hloc, hreplace, hrewritten, rfl, hother⟩ := nextTarget_eq_some_iff.mp hnext
  exact ⟨uri', follow_iff_redirectsTo.mpr ⟨loc, hloc, hreplace, hrewritten, fun huri => hother (congrArg h.target huri)⟩, rfl⟩

/-- One to the same target is followed once: the second response is the first, and then the URI is the one that is there. -/
theorem follow_eq_none_of_nextTarget {uri uri' : Bytes} (hnext : h.nextTarget lib exchange req (h.target uri) = none)
    (hfollow : h.follow lib exchange req uri = some uri') : h.follow lib exchange req uri' = none := by
  obtain ⟨loc, hloc, hreplace, hrewritten, -⟩ := follow_iff_redirectsTo.mp hfollow
  have hsame : h.target uri' = h.target uri := by
    by_contra hother
    rw [nextTarget_eq_some_iff.mpr ⟨loc, uri', hloc, hreplace, hrewritten, rfl, hother⟩] at hnext
    cases hnext
  refine Option.eq_none_iff_forall_ne_some.mpr fun uri'' hagain => ?_
  obtain ⟨loc', hloc', hreplace', -, hother⟩ := follow_iff_redirectsTo.mp hagain
  rw [hsame, hloc] at hloc'
  obtain rfl := Option.some.inj hloc'
  rw [hreplace] at hreplace'
  exact hother (Except.ok.inj hreplace').symm

theorem nextTarget_eq (hlib : ReplacesHost lib h) (exchange : Bytes → Exchange) (req : Request) (target : Bytes) :
    h.nextTarget lib exchange req target = h.nextHostTarget exchange req target := by
  unfold nextTarget nextHostTarget
  refine congrArg (Option.bind _) (funext fun location => ?_)
  rw [uriReplace_eq hlib]
  cases hhost : h.hostTarget location with
  | none => simp [Except.toOption]
  | some next =>
      have hne : next ≠ [] := by
        obtain ⟨rest, -, rfl⟩ := Option.map_eq_some_iff.mp hhost
        exact List.cons_ne_nil _ _
      have htarget : h.target (h.locationPath ++ next) = next := by rw [target_append, if_neg hne]
      simp only [Option.elim_some, Except.toOption, Option.bind_some, htarget, Option.filter_some]
      by_cases hstays : h.locationPath ++ next = location ∨ next = target
      · rw [if_pos hstays, if_neg fun hgoes => hstays.elim (of_decide_eq_true hgoes).1 (of_decide_eq_true hgoes).2]
      · rw [if_neg hstays, if_pos (decide_eq_true (not_or.mp hstays))]

/-- **When the redirects come to an end**: when finitely many targets are reached by following the locations that the
proxied server redirects them to, and none of these is reached from itself. A location that names the host of the proxy
leads to what is behind the last place where it does. -/
theorem handleRequest_ends_iff (h : ReverseProxyHandler) (lib : Libraries) (exchange : Bytes → Exchange)
    (req : Request) :
    ((∃ depth, h.handleRequest lib exchange depth req ≠ .error .stackOverflow) ↔
        {t | Reaches (h.nextTarget lib exchange req) (h.target req.uri) t}.Finite ∧
          ∀ t, Reaches (h.nextTarget lib exchange req) (h.target req.uri) t →
            ¬ Reaches₁ (h.nextTarget lib exchange req) t t) ∧
      (ReplacesHost lib h → ∀ target, h.nextTarget lib exchange req target = h.nextHostTarget exchange req target) := by
  refine ⟨?_, fun hlib target => nextTarget_eq hlib exchange req target⟩
  have hview := exists_endsWithin_view (f := h.follow lib exchange req) (g := h.nextTarget lib exchange req)
    (a := req.uri) (fun _ _ => exists_follow_of_nextTarget) fun _ _ => follow_eq_none_of_nextTarget
  rw [← exists_endsWithin_iff, ← hview]
  exact exists_congr fun depth => handleRequest_noOverflow_iff depth req

/-! ### A cycle -/

/-- An upstream that is a function of the target. -/
def targetExchange (respond : Bytes → Bytes) (text : Bytes) : Exchange :=
  .response (respond (((text.dropWhile (· ≠ sp)).drop 1).takeWhile (· ≠ sp)))

/-- Two pages, each of which redirects to the other. -/
def twoPagesRespond (target : Bytes) : Bytes :=
  if target = bytes "/a" then bytes "HTTP/1.1 302 Found\r\nLocation: http://up/b\r\n\r\n"
  else bytes "HTTP/1.1 302 Found\r\nLocation: http://up/a\r\n\r\n"

def pageRequest (uri : Bytes) : Request := { Request.fresh .getReq 1 1 with uri := uri }

theorem follow_twoPages :
    upProxy.follow greedyLibraries (targetExchange twoPagesRespond) (pageRequest (bytes "/p/a"))
        (pageRequest (bytes "/p/a")).uri = some (bytes "/p/b") ∧
      upProxy.follow greedyLibraries (targetExchange twoPagesRespond) (pageRequest (bytes "/p/b"))
        (pageRequest (bytes "/p/b")).uri = some (bytes "/p/a") := by
  decide +kernel

/-- Two pages that redirect to each other are asked for in turn until the stack is used up. -/
theorem twoPages_not_ends :
    ¬ ∃ depth, upProxy.handleRequest greedyLibraries (targetExchange twoPagesRespond) depth
      (pageRequest (bytes "/p/a")) ≠ .error .stackOverflow := by
  obtain ⟨hab, hba⟩ := follow_twoPages
  have hboth : ∀ depth,
      upProxy.handleRequest greedyLibraries (targetExchange twoPagesRespond) depth (pageRequest (bytes "/p/a")) =
          .error .stackOverflow ∧
        upProxy.handleRequest greedyLibraries (targetExchange twoPagesRespond) depth (pageRequest (bytes "/p/b")) =
          .error .stackOverflow := by
    intro depth
    induction depth with
    | zero => exact ⟨rfl, rfl⟩
    | succ depth ih =>
        constructor
        · exact (handleRequest_of_follow hab depth).trans ih.2
        · exact (handleRequest_of_follow hba depth).trans ih.1
  rintro ⟨depth, hends⟩
  exact hends (hboth depth).1

end ReverseProxyHandler

end WebServer
