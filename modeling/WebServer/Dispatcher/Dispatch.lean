import WebServer.Dispatcher.Create
import WebServer.Lib.LongestPrefix

/-!
# Longest-prefix routing

The loop of `dispatch` keeps the longest match it has seen, as long as the `int` in which it keeps the length
of the match does not overflow (`dispatch_eq_longestMatch`). So a request is routed to what is stored under
the longest key that is a prefix of its URI without trailing slashes (`dispatch_longestPrefix`), which may be
a null pointer (`dispatch_eq_none_iff`).
-/

namespace WebServer

open Lib

/-! ### Trailing slashes -/

theorem popSlashes_suffix (xs : Bytes) : popSlashes xs <:+ xs := by
  induction xs with
  | nil => exact List.suffix_refl _
  | cons c rest ih =>
      rcases rest with _ | ⟨e, rest⟩
      · exact List.suffix_refl _
      rw [popSlashes]
      split_ifs
      · exact ih.trans (List.suffix_cons c _)
      · exact List.suffix_refl _

theorem stripSlashes_isPrefix (path : Bytes) : stripSlashes path <+: path := by
  rw [stripSlashes, ← List.reverse_suffix, List.reverse_reverse]
  exact popSlashes_suffix _

theorem popSlashes_replicate (n : Nat) {xs : Bytes} (hne : xs ≠ []) :
    popSlashes (List.replicate n slash ++ xs) = popSlashes xs := by
  induction n with
  | zero => rfl
  | succ n ih =>
      obtain ⟨c, rest, hcons⟩ : ∃ c rest, List.replicate n slash ++ xs = c :: rest :=
        List.exists_cons_of_ne_nil (by simp [hne])
      rw [List.replicate_succ, List.cons_append, hcons, popSlashes, if_pos rfl, ← hcons, ih]

/-- Slashes behind a path that is not empty are dropped. -/
theorem stripSlashes_append_replicate {path : Bytes} (hne : path ≠ []) (n : Nat) :
    stripSlashes (path ++ List.replicate n slash) = stripSlashes path := by
  rw [stripSlashes, List.reverse_append, List.reverse_replicate, popSlashes_replicate n (by simpa using hne)]
  rfl

theorem stripSlashes_concat (path : Bytes) {c : UInt8} (hc : c ≠ slash) :
    stripSlashes (path ++ [c]) = path ++ [c] := by
  have hpop : ∀ xs : Bytes, popSlashes (c :: xs) = c :: xs := by
    intro xs
    cases xs with
    | nil => rfl
    | cons e rest => exact if_neg hc
  rw [stripSlashes, List.reverse_append, List.reverse_singleton, List.singleton_append, hpop]
  simp

theorem stripSlashes_replicate (n : Nat) {c : UInt8} (hc : c ≠ slash) :
    stripSlashes (List.replicate n c) = List.replicate n c := by
  cases n with
  | zero => rfl
  | succ n =>
      rw [List.replicate_succ']
      exact stripSlashes_concat _ hc

namespace RequestHandlerDispatcher

/-! ### The loop -/

/-- The loop returns what it started with, or what an entry that matches stores. -/
theorem dispatchLoop_mem {H : Type} {path : Bytes} {entries : List (Bytes × Option H)} {reqHandler : Option H}
    {longest : Int32} {handler : H} (h : dispatchLoop path entries reqHandler longest = some handler) :
    reqHandler = some handler ∨ ∃ key, (key, some handler) ∈ entries ∧ key ≠ [] ∧ key <+: path := by
  induction entries generalizing reqHandler longest with
  | nil => exact Or.inl h
  | cons e rest ih =>
      obtain ⟨key, value⟩ := e
      have hrest : (∃ key, (key, some handler) ∈ rest ∧ key ≠ [] ∧ key <+: path) →
          ∃ k, (k, some handler) ∈ (key, value) :: rest ∧ k ≠ [] ∧ k <+: path :=
        fun ⟨k, hk, hmatch⟩ => ⟨k, List.mem_cons_of_mem _ hk, hmatch⟩
      rw [dispatchLoop] at h
      split_ifs at h with hmatch
      · have hne : key ≠ [] := List.ne_nil_of_length_pos (Nat.zero_lt_of_lt hmatch.2)
        rcases ih h with rfl | hfound
        · exact Or.inr ⟨key, by simp, hne, List.prefix_iff_eq_take.mpr hmatch.1⟩
        · exact Or.inr (hrest hfound)
      · exact (ih h).imp_right hrest

/-- The handler of a request is stored under a prefix of its URI, which is not empty. -/
theorem dispatch_mem {d : RequestHandlerDispatcher} {req : Request} {handler : Handler}
    (h : d.dispatch req = some handler) :
    ∃ key, (key, some handler) ∈ d.handlers.entries ∧ key ≠ [] ∧ key <+: req.uri := by
  rcases dispatchLoop_mem h with hnone | ⟨key, hkey, hne, hpre⟩
  · cases hnone
  · exact ⟨key, hkey, hne, hpre.trans (stripSlashes_isPrefix req.uri)⟩

/-- The length of a match, stored in an `int` and compared as a `size_t`. -/
theorem toNat_int32_ofNat {n : Nat} (h : n < 2 ^ 31) : (Int32.ofNat n).toInt64.toUInt64.toNat = n := by
  have hint : (Int32.ofNat n).toInt64.toBitVec.toInt = n := by
    have hofNat : (Int32.ofNat n).toInt = n := Int32.toInt_ofNat_of_lt h
    rw [← hofNat]
    exact Int32.toInt_toInt64 _
  have hlt := (Int32.ofNat n).toInt64.toBitVec.isLt
  rw [BitVec.toInt_eq_toNat_cond] at hint
  show (Int32.ofNat n).toInt64.toBitVec.toNat = n
  split_ifs at hint <;> omega

/-- The test of the loop, with the length of the match so far. -/
theorem longer_iff {H : Type} (path : Bytes) {best : Option (Bytes × Option H)}
    (hbest : ∀ b ∈ best, b.1 ≠ []) (e : Bytes × Option H) :
    (e.1 = path.take e.1.length ∧ best.elim 0 (fun b => b.1.length) < e.1.length) ↔
      (keyMatches path e = true ∧ ∀ b ∈ best, b.1.length < e.1.length) := by
  rw [keyMatches_iff, ← List.prefix_iff_eq_take]
  cases best with
  | none => simp [List.length_pos_iff, and_comm]
  | some b =>
      have hb : b.1 ≠ [] := hbest b rfl
      simp only [Option.elim_some, Option.mem_def, Option.some.injEq, forall_eq']
      constructor
      · rintro ⟨hpre, hlt⟩
        have hne : e.1 ≠ [] := List.ne_nil_of_length_pos (by omega)
        exact ⟨⟨hne, hpre⟩, hlt⟩
      · rintro ⟨⟨-, hpre⟩, hlt⟩
        exact ⟨hpre, hlt⟩

/-- The loop keeps the longer match, entry by entry. -/
theorem dispatchLoop_eq {H : Type} {path : Bytes} (hpath : path.length < 2 ^ 31)
    (entries : List (Bytes × Option H)) (best : Option (Bytes × Option H))
    (hbest : ∀ b ∈ best, b.1 ≠ [] ∧ b.1 <+: path) :
    dispatchLoop path entries (best.bind Prod.snd) (Int32.ofNat (best.elim 0 fun b => b.1.length)) =
      (entries.foldl (keepLonger path) best).bind Prod.snd := by
  induction entries generalizing best with
  | nil => rfl
  | cons e rest ih =>
      have hlength : best.elim 0 (fun b => b.1.length) < 2 ^ 31 := by
        cases best with
        | none => simp
        | some b => exact Nat.lt_of_le_of_lt (hbest b rfl).2.length_le hpath
      obtain ⟨key, handler⟩ := e
      rw [dispatchLoop, toNat_int32_ofNat hlength, List.foldl_cons, keepLonger]
      have hiff := longer_iff path (fun b hb => (hbest b hb).1) (key, handler)
      by_cases hlonger : keyMatches path (key, handler) = true ∧ ∀ b ∈ best, b.1.length < key.length
      · rw [if_pos hlonger, if_pos (hiff.mpr hlonger)]
        refine ih (some (key, handler)) fun b hb => ?_
        obtain rfl := Option.some.inj hb
        exact keyMatches_iff.mp hlonger.1
      · rw [if_neg hlonger, if_neg fun h => hlonger (hiff.mp h)]
        exact ih best hbest

/-- `dispatch` returns what the longest match stores. -/
theorem dispatch_eq_longestMatch (d : RequestHandlerDispatcher) {req : Request} (huri : req.uri.length < 2 ^ 31) :
    d.dispatch req = (longestMatch d.handlers.entries (stripSlashes req.uri)).bind Prod.snd := by
  have hpath : (stripSlashes req.uri).length < 2 ^ 31 :=
    Nat.lt_of_le_of_lt (stripSlashes_isPrefix req.uri).length_le huri
  rw [← foldl_keepLonger]
  exact dispatchLoop_eq hpath d.handlers.entries none (by simp)

/-! ### Two locations -/

/-- An echo location and a health location. -/
def echoHealth (path path' : Bytes) : NginxConfig :=
  [⟨[bytes "location", quoted path, bytes "EchoHandler"], some []⟩,
    ⟨[bytes "location", quoted path', bytes "HealthHandler"], some []⟩]

/-- `handlers_` for them, when the second path goes on from the first. -/
theorem create_echoHealth (path : Bytes) {c : UInt8} (hne : path ≠ []) (hstrip : stripSlashes path = path)
    (hc : c ≠ slash) :
    ∃ d st', create [⟨[bytes "server"], some (echoHealth path (path ++ [c]))⟩] .initial = .ok (d, st') ∧
      d.handlers.entries = [(path, some .echo), (path ++ [c], some .health)] := by
  have hfresh : (OrdMap.empty.insert path (some Handler.echo)).find? (path ++ [c]) = none := by
    rw [OrdMap.find?_insert_ne _ _ (by simp), OrdMap.find?_empty]
  have hfirst := createLocation_new ⟨OrdMap.empty⟩ .initial
    (rfl : HandlerType.ofToken (bytes "EchoHandler") = some .echo) hne hstrip rfl
    (rfl : HandlerType.echo.init [] path = .ok (some .echo))
  have hsecond := createLocation_new ⟨OrdMap.empty.insert path (some .echo)⟩
    (add ⟨OrdMap.empty⟩ .initial .echo path (some .echo)).2
    (rfl : HandlerType.ofToken (bytes "HealthHandler") = some .health) (by simp) (stripSlashes_concat path hc)
    hfresh (rfl : HandlerType.health.init [] (path ++ [c]) = .ok (some .health))
  have hcreate : create [⟨[bytes "server"], some (echoHealth path (path ++ [c]))⟩] .initial = .ok
      (add ⟨OrdMap.empty.insert path (some .echo)⟩ (add ⟨OrdMap.empty⟩ .initial .echo path (some .echo)).2 .health
        (path ++ [c]) (some .health)) := by
    rw [create_server, echoHealth, List.foldlM_cons, hfirst]
    exact (bind_pure _).trans hsecond
  refine ⟨_, _, hcreate, ?_⟩
  have hle : ¬ path ++ [c] < path := (List.prefix_append path [c]).le
  show OrdMap.insertEntry (path ++ [c]) (some Handler.health) [(path, some Handler.echo)] = _
  simp [OrdMap.insertEntry, hle]

/-! ### What is under the longest key -/

/-- The keys of `handlers_`. -/
def paths (d : RequestHandlerDispatcher) : Set Bytes := {key | key ∈ d.handlers.keys}

variable {d : RequestHandlerDispatcher} {req : Request}

theorem find?_of_isLongestPrefix (huri : req.uri.length < 2 ^ 31) {key : Bytes}
    (hkey : IsLongestPrefix d.paths (stripSlashes req.uri) key) :
    d.handlers.find? key = some (d.dispatch req) := by
  rw [dispatch_eq_longestMatch d huri]
  cases hmatch : longestMatch d.handlers.entries (stripSlashes req.uri) with
  | none =>
      obtain ⟨e, he, hsame⟩ := List.mem_map.mp hkey.mem
      subst hsame
      exact absurd hkey.isPrefix (longestMatch_eq_none.mp hmatch e he hkey.ne_nil)
  | some e =>
      have hsame : e.1 = key := (longestMatch_isLongestPrefix hmatch).unique hkey
      rw [← hsame]
      exact OrdMap.find?_iff_mem.mpr (longestMatch_mem hmatch)

/-- A request goes nowhere if no key matches, or if a null pointer is stored under the longest that does. -/
theorem dispatch_eq_none_iff (huri : req.uri.length < 2 ^ 31) :
    d.dispatch req = none ↔
      (∀ key ∈ d.paths, key ≠ [] → ¬ key <+: stripSlashes req.uri) ∨
        ∃ key, IsLongestPrefix d.paths (stripSlashes req.uri) key ∧ d.handlers.find? key = some none := by
  constructor
  · intro hnone
    cases hmatch : longestMatch d.handlers.entries (stripSlashes req.uri) with
    | none =>
        refine Or.inl fun key hkey hne => ?_
        obtain ⟨e, he, hsame⟩ := List.mem_map.mp hkey
        subst hsame
        exact longestMatch_eq_none.mp hmatch e he hne
    | some e =>
        have hlongest := longestMatch_isLongestPrefix hmatch
        refine Or.inr ⟨e.1, hlongest, ?_⟩
        rw [find?_of_isLongestPrefix huri hlongest, hnone]
  · rintro (hno | ⟨key, hlongest, hnull⟩)
    · have hmatch : longestMatch d.handlers.entries (stripSlashes req.uri) = none :=
        longestMatch_eq_none.mpr fun e he => hno e.1 (List.mem_map_of_mem he)
      rw [dispatch_eq_longestMatch d huri, hmatch]
      rfl
    · rw [find?_of_isLongestPrefix huri hlongest] at hnull
      exact Option.some.inj hnull

/-- **Routing is longest-prefix**: a request whose URI is shorter than two to the thirty-first is routed to
what is stored under the longest key that is a prefix of its URI without trailing slashes. It goes nowhere
only if there is no such key, or if the location of the key is a proxy whose port is no number. -/
theorem dispatch_longestPrefix (config : NginxConfig) (st st' : Statics) (d : RequestHandlerDispatcher)
    (hd : create config st = .ok (d, st')) (req : Request) (huri : req.uri.length < 2 ^ 31) :
    (∀ key, IsLongestPrefix d.paths (stripSlashes req.uri) key →
      d.handlers.find? key = some (d.dispatch req)) ∧
    (d.dispatch req = none ↔
      (∀ key ∈ d.paths, key ≠ [] → ¬ key <+: stripSlashes req.uri) ∨
        ∃ key, IsLongestPrefix d.paths (stripSlashes req.uri) key ∧ d.handlers.find? key = some none) ∧
    (∀ key, d.handlers.find? key = some none →
      ∃ s child, Declares config s .reverse ∧ s.childBlock = some child ∧
        ∃ t ∈ child, ∃ value, t.tokens = [bytes "proxy_port", value] ∧ stoi value = none) ∧
    (req.uri ≠ [] → ∀ n, d.dispatch { req with uri := req.uri ++ List.replicate n slash } = d.dispatch req) := by
  refine ⟨fun key hkey => find?_of_isLongestPrefix huri hkey, dispatch_eq_none_iff huri, ?_, ?_⟩
  · intro key hnull
    exact create_null hd (OrdMap.find?_iff_mem.mp hnull)
  · intro hne n
    show dispatchLoop (stripSlashes (req.uri ++ List.replicate n slash)) d.handlers.entries none 0 = _
    rw [stripSlashes_append_replicate hne]
    rfl

theorem dispatch_longestPrefix_echos :
    (⟨(OrdMap.empty.insert (bytes "/echo") (some .echo)).insert (bytes "/echos") (some .health)⟩ :
      RequestHandlerDispatcher).handlers.find? (bytes "/echos") =
    some (dispatch ⟨(OrdMap.empty.insert (bytes "/echo") (some .echo)).insert (bytes "/echos") (some .health)⟩
      { Request.fresh .getReq 1 0 with uri := bytes "/echos/a/" }) :=
  (dispatch_longestPrefix [⟨[bytes "server"], some (echoHealth (bytes "/echo") (bytes "/echos"))⟩] .initial _ _ rfl
    { Request.fresh .getReq 1 0 with uri := bytes "/echos/a/" } (by decide)).1 _
    (longestMatch_isLongestPrefix (e := (bytes "/echos", some .health)) rfl)

/-! ### Where it fails -/

/-- A match of two to the thirty-first bytes is kept as a negative `int`, and no longer one replaces it. -/
theorem dispatch_wraps (path : Bytes) {c : UInt8} (hlength : path.length = 2 ^ 31)
    (hstrip : stripSlashes path = path) (hc : c ≠ slash) (req : Request) (huri : req.uri = path ++ [c]) :
    ∃ d st', create [⟨[bytes "server"], some (echoHealth path (path ++ [c]))⟩] .initial = .ok (d, st') ∧
      IsLongestPrefix d.paths (stripSlashes req.uri) (path ++ [c]) ∧
      d.handlers.find? (path ++ [c]) = some (some .health) ∧ d.dispatch req = some .echo := by
  have hne : path ≠ [] := List.ne_nil_of_length_pos (by omega)
  obtain ⟨d, st', hcreate, hentries⟩ := create_echoHealth path hne hstrip hc
  have hpath : stripSlashes req.uri = path ++ [c] := by rw [huri, stripSlashes_concat path hc]
  refine ⟨d, st', hcreate, ⟨⟨?_, by simp, ?_⟩, ?_⟩, ?_, ?_⟩
  · show path ++ [c] ∈ d.handlers.entries.map Prod.fst
    simp [hentries]
  · rw [hpath]
  · intro k hk _
    rw [← hpath]
    exact hk.2.2.length_le
  · exact OrdMap.find?_iff_mem.mpr (by simp [hentries])
  · have htake : path = (path ++ [c]).take path.length := by simp
    have hwrap : ¬ (Int32.ofNat (2 ^ 31)).toInt64.toUInt64.toNat < 2 ^ 31 + 1 := by decide
    have hpos : (0 : Int32).toInt64.toUInt64.toNat < path.length := by
      rw [hlength]
      decide
    rw [dispatch, hpath, hentries, dispatchLoop, if_pos ⟨htake, hpos⟩, dispatchLoop, if_neg, dispatchLoop]
    · rintro ⟨-, hlt⟩
      rw [List.length_append, hlength] at hlt
      exact hwrap hlt

theorem dispatch_not_longestPrefix :
    (∃ d st', create [⟨[bytes "server"], some [⟨[bytes "location", quoted (bytes "/p"),
        bytes "ReverseProxyHandler"], some [⟨[bytes "proxy_port", bytes "x"], none⟩]⟩]⟩] .initial = .ok (d, st') ∧
      IsLongestPrefix d.paths (stripSlashes (bytes "/p")) (bytes "/p") ∧
      d.dispatch { Request.fresh .getReq 1 0 with uri := bytes "/p" } = none) ∧
    ∃ d st', create [⟨[bytes "server"], some (echoHealth (List.replicate (2 ^ 31) (ch 'a'))
        (List.replicate (2 ^ 31) (ch 'a') ++ [ch 'a']))⟩] .initial = .ok (d, st') ∧
      IsLongestPrefix d.paths (stripSlashes (List.replicate (2 ^ 31) (ch 'a') ++ [ch 'a']))
        (List.replicate (2 ^ 31) (ch 'a') ++ [ch 'a']) ∧
      d.handlers.find? (List.replicate (2 ^ 31) (ch 'a') ++ [ch 'a']) = some (some .health) ∧
      d.dispatch { Request.fresh .getReq 1 0 with uri := List.replicate (2 ^ 31) (ch 'a') ++ [ch 'a'] } =
        some .echo := by
  have hc : ch 'a' ≠ slash := by decide
  refine ⟨⟨⟨OrdMap.empty.insert (bytes "/p") none⟩, _, rfl, ?_, rfl⟩, ?_⟩
  · exact longestMatch_isLongestPrefix (e := (bytes "/p", (none : Option Handler))) rfl
  · generalize hpath : List.replicate (2 ^ 31) (ch 'a') = path
    have hlength : path.length = 2 ^ 31 := by rw [← hpath, List.length_replicate]
    have hstrip : stripSlashes path = path := by rw [← hpath, stripSlashes_replicate _ hc]
    exact dispatch_wraps path hlength hstrip hc { Request.fresh .getReq 1 0 with uri := path ++ [ch 'a'] } rfl

end RequestHandlerDispatcher

end WebServer
