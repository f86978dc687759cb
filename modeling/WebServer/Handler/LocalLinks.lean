import WebServer.Handler.ProxyLocation

/-!
# Which links are rewritten

The location path is put in front of every slash behind `href="` or `src="` (`appendRelativeURI_eq_insertAt`). What is behind
the slash is not looked at, so a link to another host is rewritten like one to the proxied host
(`appendRelativeURI_local_iff`).
-/

namespace WebServer

open Lib NginxConfigParser

namespace ReverseProxyHandler

/-! ### Local links -/

/-- The page with the path put in where the rewriting is meant to: in front of the slash at the start of every link to a
path on the proxied host. Whether a link is one is told by the text up to its slash and the text behind it. -/
def withLocalLinks (isLocal : Bytes → Bytes → Bool) (path body : Bytes) : Bytes :=
  Word.insertAt (ch '/') (fun before rest => opensLink before rest && isLocal before rest) (trimmedPath path) [] body

/-- **When only local links are rewritten**: when the path has more than a slash to put in, only if all links that start
with a slash are local. -/
theorem appendRelativeURI_local_iff (lib : Libraries) (hlib : PutsFormats lib) (path : Bytes)
    (hpath : doubleQuote ∉ path) (hplain : Plain path) (isLocal : Bytes → Bytes → Bool) (body : Bytes) :
    appendRelativeURI lib body path = .ok (withLocalLinks isLocal path body) ↔
      path ≠ [] ∧ (path = bytes "/" ∨ ∀ opener ∈ linkOpeners, ∀ before rest,
        body = before ++ opener ++ ch '/' :: rest → isLocal (before ++ opener) rest = true) := by
  by_cases hne : path = []
  · refine iff_of_false ?_ fun hcond => hcond.1 hne
    rw [hne]
    exact nofun
  have htrimmed : trimmedPath path = [] ↔ path = bytes "/" := by
    obtain ⟨init, c, rfl⟩ : ∃ init c, path = init ++ [c] := ⟨_, _, (List.dropLast_concat_getLast hne).symm⟩
    have hslash : bytes "/" = [] ++ [ch '/'] := rfl
    rw [trimmedPath, List.getLast?_concat, List.dropLast_concat, hslash]
    by_cases hc : c = ch '/'
    · rw [hc, if_pos rfl, List.append_cancel_right_eq]
    · rw [if_neg (by simpa using hc)]
      refine iff_of_false (by simp) fun heq => hc ?_
      exact List.singleton_inj.mp (List.append_inj' heq rfl).2
  have hmarks : (∀ a b, body = a ++ ch '/' :: b → opensLink ([] ++ a) b = true →
      (opensLink ([] ++ a) b && isLocal ([] ++ a) b) = true) ↔
      ∀ opener ∈ linkOpeners, ∀ before rest,
        body = before ++ opener ++ ch '/' :: rest → isLocal (before ++ opener) rest = true := by
    constructor
    · intro hall opener hopener before rest hbody
      have hopens : opensLink (before ++ opener) rest = true :=
        decide_eq_true ⟨opener, hopener, List.suffix_append before opener⟩
      exact (Bool.and_eq_true_iff.mp (hall (before ++ opener) rest hbody hopens)).2
    · intro hall a rest hbody hopens
      obtain ⟨opener, hopener, before, rfl⟩ := of_decide_eq_true hopens
      exact Bool.and_eq_true_iff.mpr ⟨hopens, hall opener hopener before rest hbody⟩
  rw [appendRelativeURI_eq_insertAt (hlib.putsPath hplain) hne hpath, Except.ok.injEq, withLocalLinks,
    Word.insertAt_eq_iff (fun a b hboth => (Bool.and_eq_true_iff.mp hboth).1), hmarks, htrimmed]
  simp [hne]

/-- The link does not go on with a second slash, behind which it would name a host. -/
def staysOnHost (_ rest : Bytes) : Bool := decide (rest.head? ≠ some (ch '/'))

theorem appendRelativeURI_local_image :
    appendRelativeURI greedyLibraries (bytes "<img src=\"/a\">") (bytes "/p") =
        .ok (withLocalLinks staysOnHost (bytes "/p") (bytes "<img src=\"/a\">")) ↔
      bytes "/p" ≠ [] ∧ (bytes "/p" = bytes "/" ∨ ∀ opener ∈ linkOpeners, ∀ before rest,
        bytes "<img src=\"/a\">" = before ++ opener ++ ch '/' :: rest → staysOnHost (before ++ opener) rest = true) :=
  appendRelativeURI_local_iff greedyLibraries putsFormats_greedyLibraries (bytes "/p") (by decide) ⟨by decide, by decide⟩
    staysOnHost (bytes "<img src=\"/a\">")

/-- A link to another host is made one to the proxied host. -/
theorem otherHost_rewritten :
    appendRelativeURI greedyLibraries (bytes "href=\"//cdn/x\"") (bytes "/p") = .ok (bytes "href=\"/p//cdn/x\"") ∧
      withLocalLinks staysOnHost (bytes "/p") (bytes "href=\"//cdn/x\"") = bytes "href=\"//cdn/x\"" := by
  decide +kernel

end ReverseProxyHandler

end WebServer
