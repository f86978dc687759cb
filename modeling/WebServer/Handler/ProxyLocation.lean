import WebServer.Handler.ProxyLinks

/-!
# The location of a redirect

`uri_replace` takes the host with all that is in front of it off a location, up to the last place in it where the name of
the host matches, its dots matching any byte. What is behind that place goes behind the location path, and it is
not always the path of the location (`uriReplace_location_iff`).
-/

namespace WebServer

namespace ReverseProxyHandler

variable {h : ReverseProxyHandler} {lib : Libraries}

/-- The name of a host: letters, digits, hyphens and dots. -/
def IsHostName (host : Bytes) : Prop :=
  host ≠ [] ∧ ∀ c ∈ host, (ch 'a' ≤ c ∧ c ≤ ch 'z') ∨ (ch 'A' ≤ c ∧ c ≤ ch 'Z') ∨ isDigit c = true ∨ c = ch '-' ∨ c = ch '.'

instance (host : Bytes) : Decidable (IsHostName host) := inferInstanceAs (Decidable (_ ∧ _))

/-- The name, as an expression, matches at the front of a text. -/
def hostMatches : Bytes → Bytes → Bool
  | [], _ => true
  | _ :: _, [] => false
  | c :: host, d :: text => (decide (c = ch '.') || decide (c = d)) && hostMatches host text

/-- What is behind the last place where the name matches. -/
def behindLast (host : Bytes) : Bytes → Option Bytes
  | [] => none
  | c :: rest => (behindLast host rest).or (if hostMatches host (c :: rest) then some ((c :: rest).drop host.length) else none)

/-- `/{0,1}` passes over a slash. -/
def dropSlash (text : Bytes) : Bytes := if text.head? = some (ch '/') then text.drop 1 else text

/-- What the expression of `uri_replace` matches, replaced: `.*` takes as much as it can. Behind the last place where the
name matches there is no other match. -/
def replaceHost (host text format : Bytes) : Bytes :=
  match behindLast host text with
  | none => text
  | some rest => format ++ dropSlash rest

/-- `regex_replace` puts a plain format in for the leftmost match, which is as long as it can be. -/
def ReplacesHosts (lib : Libraries) : Prop :=
  ∀ host, IsHostName host → ∀ text format, Plain format →
    lib.regexReplace text (bytes ".*" ++ host ++ bytes "/\x7b0,1\x7d") format = some (replaceHost host text format)

theorem hostMatches_self (host text : Bytes) : hostMatches host (host ++ text) = true := by
  induction host with
  | nil => rfl
  | cons c host ih => simp [hostMatches, ih]

/-- The name is found where it is. -/
theorem exists_behindLast {host : Bytes} (hne : host ≠ []) (before after : Bytes) :
    ∃ rest, behindLast host (before ++ (host ++ after)) = some rest := by
  induction before with
  | nil =>
      obtain ⟨c, host', hcons⟩ := List.exists_cons_of_ne_nil hne
      have hmatches := hostMatches_self host after
      rw [hcons, List.cons_append] at hmatches
      rw [List.nil_append, hcons, List.cons_append, behindLast, if_pos hmatches]
      cases behindLast (c :: host') (host' ++ after) with
      | none => exact ⟨_, rfl⟩
      | some rest => exact ⟨rest, rfl⟩
  | cons c before ih =>
      obtain ⟨rest, hrest⟩ := ih
      exact ⟨rest, by rw [List.cons_append, behindLast, hrest, Option.some_or]⟩

theorem plain_append_slash {path : Bytes} (hplain : Plain path) : Plain (path ++ bytes "/") := by
  have hslash : bytes "/" = [ch '/'] := rfl
  have hdollar : ch '$' ≠ ch '/' := by decide
  have hback : ch '\\' ≠ ch '/' := by decide
  simp [Plain, hplain.1, hplain.2, hslash, hdollar, hback]

theorem dropSlash_eq_iff {rest text : Bytes} :
    dropSlash rest = text ↔ rest = ch '/' :: text ∨ rest = text ∧ text.head? ≠ some (ch '/') := by
  unfold dropSlash
  split_ifs with hslash
  · obtain ⟨rest, rfl⟩ : ∃ rest', rest = ch '/' :: rest' := List.head?_eq_some_iff.mp hslash
    rw [List.drop_one, List.tail_cons, List.cons_inj_right]
    constructor
    · exact .inl
    · rintro (heq | ⟨rfl, hne⟩)
      · exact heq
      · exact absurd rfl hne
  · constructor
    · rintro rfl
      exact .inr ⟨rfl, hslash⟩
    · rintro (rfl | ⟨heq, -⟩)
      · exact absurd rfl hslash
      · exact heq

/-- The target that a location names on the proxied host: a slash and what is behind the last place where the name
matches. -/
def hostTarget (h : ReverseProxyHandler) (location : Bytes) : Option Bytes :=
  (behindLast h.proxyDest location).map fun rest => ch '/' :: dropSlash rest

/-- `regex_replace` does so for the host and the location path of a handler. -/
def ReplacesHost (lib : Libraries) (h : ReverseProxyHandler) : Prop :=
  ∀ text, lib.regexReplace text (bytes ".*" ++ h.proxyDest ++ bytes "/\x7b0,1\x7d") (h.locationPath ++ bytes "/") =
    some (replaceHost h.proxyDest text (h.locationPath ++ bytes "/"))

theorem ReplacesHosts.replacesHost (hlib : ReplacesHosts lib) (hdest : IsHostName h.proxyDest)
    (hplain : Plain h.locationPath) : ReplacesHost lib h :=
  fun text => hlib h.proxyDest hdest text _ (plain_append_slash hplain)

/-- What `uri_replace` makes of a location. -/
theorem uriReplace_eq (hlib : ReplacesHost lib h) (location : Bytes) :
    uriReplace lib location h.proxyDest (h.locationPath ++ bytes "/") =
      .ok ((h.hostTarget location).elim location (h.locationPath ++ ·)) := by
  unfold uriReplace hostTarget
  rw [hlib location, replaceHost, called]
  cases behindLast h.proxyDest location with
  | none => rfl
  | some rest => simp [bytes]

/-! ### A library -/

/-- `regex_replace` for the expressions of the proxy: `.*` and the name of a host match up to the last place where the name
matches, and the other expressions match their own text. -/
def greedyReplace (text expression format : Bytes) : Option Bytes :=
  if bytes ".*" <+: expression then
    some (replaceHost ((expression.drop 2).take (expression.length - 8)) text format)
  else some (replaceAll text expression format)

/-- A page of nine bytes, as zlib compresses it. -/
def page : Bytes := bytes "href=\"/a\""

def pageStream : Bytes :=
  [31, 139, 8, 0, 0, 0, 0, 0, 0, 3, 203, 40, 74, 77, 179, 85, 210, 79, 84, 2, 0, 167, 47, 249, 33, 9, 0, 0, 0]

/-- The page behind a proxy at `/p`, and its stream. -/
def proxiedPage : Bytes := bytes "href=\"/p/a\""

def proxiedPageStream : Bytes :=
  [31, 139, 8, 0, 0, 0, 0, 0, 0, 3, 203, 40, 74, 77, 179, 85, 210, 47, 208, 79, 84, 2, 0, 218, 156, 181, 66, 11, 0, 0, 0]

/-- zlib, as far as these pages show it. -/
def pageZlib : Gzip.Zlib where
  deflateInit2 := .ok
  deflate data := if data = proxiedPage then proxiedPageStream else []
  inflateInit2 := .ok
  inflate data := if data = pageStream then (page, .streamEnd) else ([], .dataError)

def greedyLibraries : Libraries := ⟨greedyReplace, pageZlib⟩

theorem regexReplace_greedyLibraries {opener : Bytes} (hopener : opener ∈ linkOpeners) (text format : Bytes) :
    greedyLibraries.regexReplace text (opener ++ bytes "/") format = some (replaceAll text (opener ++ bytes "/") format) := by
  have hliteral : ¬ bytes ".*" <+: opener ++ bytes "/" := by
    rcases List.mem_pair.mp hopener with rfl | rfl
    · decide
    · decide
  exact if_neg hliteral

theorem putsFormats_greedyLibraries : PutsFormats greedyLibraries :=
  fun _ hopener text format _ => regexReplace_greedyLibraries hopener text format

theorem replacesHosts_greedyLibraries : ReplacesHosts greedyLibraries := by
  intro host _ text format _
  have hdots : bytes ".*" <+: bytes ".*" ++ host ++ bytes "/\x7b0,1\x7d" := by
    rw [List.append_assoc]
    exact List.prefix_append _ _
  have hhost : ((bytes ".*" ++ host ++ bytes "/\x7b0,1\x7d").drop 2).take
      ((bytes ".*" ++ host ++ bytes "/\x7b0,1\x7d").length - 8) = host := by
    have hlength : (bytes ".*" ++ host ++ bytes "/\x7b0,1\x7d").length - 8 = host.length := by
      simp [bytes]
    have hdrop : (bytes ".*" ++ (host ++ bytes "/\x7b0,1\x7d")).drop 2 = host ++ bytes "/\x7b0,1\x7d" := rfl
    rw [hlength, List.append_assoc, hdrop, List.take_left]
  have hreplace : greedyLibraries.regexReplace = greedyReplace := rfl
  rw [hreplace, greedyReplace, if_pos hdots, hhost]

/-- A proxy at `/p`. -/
def upProxy : ReverseProxyHandler := ⟨bytes "/p", bytes "up", 80⟩

/-! ### The path of a location -/

/-- `std::to_string`. -/
def intText (n : Int) : Bytes := if n < 0 then ch '-' :: decimal n.natAbs else decimal n.natAbs

/-- The proxied host as a location names it. -/
def hostNames (h : ReverseProxyHandler) : List Bytes := [h.proxyDest, h.proxyDest ++ ch ':' :: intText h.proxyPort]

/-- **When a redirect to the proxied host is followed to the right place**: when the path of the location, but for a slash
in front that the expression may have passed over, is what is behind the last place in the location where the
name of the host matches. -/
theorem uriReplace_location_iff (h : ReverseProxyHandler) (lib : Libraries) (hlib : ReplacesHosts lib)
    (hdest : IsHostName h.proxyDest) (hplain : Plain h.locationPath) (scheme : Bytes) (name : Bytes)
    (hname : name ∈ h.hostNames) (rest : Bytes) :
    (uriReplace lib (scheme ++ bytes "://" ++ name ++ ch '/' :: rest) h.proxyDest (h.locationPath ++ bytes "/") =
          .ok (h.locationPath ++ ch '/' :: rest) ∧
        h.target (h.locationPath ++ ch '/' :: rest) = ch '/' :: rest) ↔
      behindLast h.proxyDest (scheme ++ bytes "://" ++ name ++ ch '/' :: rest) = some (ch '/' :: rest) ∨
        behindLast h.proxyDest (scheme ++ bytes "://" ++ name ++ ch '/' :: rest) = some rest ∧
          rest.head? ≠ some (ch '/') := by
  have htarget : h.target (h.locationPath ++ ch '/' :: rest) = ch '/' :: rest := by
    rw [target_append, if_neg (by simp)]
  obtain ⟨port, rfl⟩ : ∃ port, name = h.proxyDest ++ port := by
    rcases List.mem_pair.mp hname with rfl | rfl
    · exact ⟨[], (List.append_nil _).symm⟩
    · exact ⟨_, rfl⟩
  set text := scheme ++ bytes "://" ++ (h.proxyDest ++ port) ++ ch '/' :: rest with htext
  obtain ⟨behind, hbehind⟩ : ∃ behind, behindLast h.proxyDest text = some behind := by
    have hfound := exists_behindLast hdest.1 (scheme ++ bytes "://") (port ++ ch '/' :: rest)
    rwa [← List.append_assoc h.proxyDest, ← List.append_assoc, ← htext] at hfound
  have hreplace : uriReplace lib text h.proxyDest (h.locationPath ++ bytes "/") =
      .ok (h.locationPath ++ ch '/' :: dropSlash behind) := by
    rw [uriReplace_eq (hlib.replacesHost hdest hplain), hostTarget, hbehind]
    rfl
  rw [hreplace, hbehind]
  simp [htarget, dropSlash_eq_iff]

theorem uriReplace_location_page :
    (uriReplace greedyLibraries (bytes "http" ++ bytes "://" ++ bytes "up" ++ ch '/' :: bytes "a") (bytes "up")
          (bytes "/p" ++ bytes "/") = .ok (bytes "/p" ++ ch '/' :: bytes "a") ∧
        upProxy.target (bytes "/p" ++ ch '/' :: bytes "a") = ch '/' :: bytes "a") ↔
      behindLast (bytes "up") (bytes "http" ++ bytes "://" ++ bytes "up" ++ ch '/' :: bytes "a") =
          some (ch '/' :: bytes "a") ∨
        behindLast (bytes "up") (bytes "http" ++ bytes "://" ++ bytes "up" ++ ch '/' :: bytes "a") = some (bytes "a") ∧
          (bytes "a").head? ≠ some (ch '/') :=
  uriReplace_location_iff upProxy greedyLibraries replacesHosts_greedyLibraries (by decide +kernel) ⟨by decide, by decide⟩
    (bytes "http") (bytes "up") (by simp [hostNames, upProxy]) (bytes "a")

/-- The port becomes a part of the path, and of a query that names the host again only the end is left. -/
theorem uriReplace_port :
    uriReplace greedyLibraries (bytes "http://up:80/a") upProxy.proxyDest (upProxy.locationPath ++ bytes "/") =
        .ok (bytes "/p/:80/a") ∧
      uriReplace greedyLibraries (bytes "http://up/a?from=up/b") upProxy.proxyDest (upProxy.locationPath ++ bytes "/") =
        .ok (bytes "/p/b") := by
  decide +kernel

end ReverseProxyHandler

end WebServer
