import WebServer.Dispatcher.Dispatch
import WebServer.Lib.DotPath

/-!
# The files a static handler serves

The path that `HandleRequest` tests and opens is the root with the rest of the URI behind it
(`normalize_filePath`), and nothing keeps dots out of that rest. It stays under the root if and only if the
rest, normalised on its own, goes up by names of the root only and comes down by the same names
(`dispatch_static_iff`). While it does, the reply shows files under the root only (`handleRequest_of_comesBack`).
-/

namespace WebServer

open Lib

/-- The normal form of a path of the file system. -/
def normalize (path : Bytes) : DotPath Bytes := DotPath.normalize slash dot path

/-- The directory that a root stands for: `HandleRequest` replaces its first slash by dots and a slash. -/
def rootDirectory (root : Bytes) : DotPath Bytes := normalize (bytes ".." ++ root)

namespace StaticRequestHandler

variable {config : NginxConfig} {p : Bytes} {h : StaticRequestHandler}

theorem filePath_eq (h : StaticRequestHandler) {r : Bytes} (hroot : h.root = slash :: r) (uri : Bytes) :
    h.filePath uri = bytes ".." ++ (h.root ++ uri.drop h.locationPath.length) := by
  rw [filePath, replaceFront, replaceFront, hroot]
  rfl

/-- The root of a handler ends in a slash, which does not change where it leads. -/
theorem root_of_init (hinit : init config p = .ok h) :
    ∃ front, h.root = front ++ [slash] ∧
      ∀ text, normalize (text ++ configuredRoot config) = normalize (text ++ front) := by
  rw [init] at hinit
  split at hinit
  · cases hinit
  rename_i c hlast
  obtain rfl := Except.ok.inj hinit
  obtain ⟨front, hfront⟩ := List.getLast?_eq_some_iff.mp hlast
  by_cases hc : c = slash
  · subst hc
    refine ⟨front, ?_, fun text => ?_⟩
    · dsimp only
      rw [if_neg (not_not_intro rfl), hfront]
    · rw [hfront, ← List.append_assoc]
      exact DotPath.normalize_concat_sep slash dot _
  · exact ⟨configuredRoot config, if_pos hc, fun text => rfl⟩

/-- The file is looked for at the rest of the URI, from the root on. -/
theorem normalize_filePath (hinit : init config p = .ok h) {r : Bytes}
    (hroot : configuredRoot config = slash :: r) (rest : Bytes) :
    normalize (h.filePath (p ++ rest)) = (rootDirectory (slash :: r)).join (normalize rest) := by
  obtain ⟨front, hfront, hnormalize⟩ := root_of_init hinit
  have hcons : ∃ r', h.root = slash :: r' := by
    rw [init, hroot] at hinit
    split at hinit
    · cases hinit
    · obtain rfl := Except.ok.inj hinit
      dsimp only
      split_ifs
      · exact ⟨_, rfl⟩
      · exact ⟨_, rfl⟩
  obtain ⟨r', hr'⟩ := hcons
  rw [filePath_eq h hr', locationPath_of_init hinit, List.drop_left, hfront, rootDirectory, ← hroot, hnormalize]
  have hassoc : bytes ".." ++ (front ++ [slash] ++ rest) = (bytes ".." ++ front) ++ slash :: rest := by simp
  rw [hassoc]
  exact DotPath.normalize_append_sep slash dot _ _

/-- The reply depends on nothing else in the file system. -/
theorem handleRequest_congr (h : StaticRequestHandler) {files files' : FileSystem} (parseMarkdown : Bytes → Bytes)
    (req : Request) (hregular : files.isRegularFile (h.filePath req.uri) = files'.isRegularFile (h.filePath req.uri))
    (hread : files.read (h.filePath req.uri) = files'.read (h.filePath req.uri)) :
    h.handleRequest files parseMarkdown req = h.handleRequest files' parseMarkdown req := by
  simp only [handleRequest, hregular, hread]

/-- The rest of a URI goes up by names of the root only, and comes down by the same names. -/
def ComesBack (root rest : Bytes) : Prop :=
  (normalize rest).ups ≤ (rootDirectory root).names.length ∧
    (rootDirectory root).names.drop ((rootDirectory root).names.length - (normalize rest).ups) <+:
      (normalize rest).names

instance (root rest : Bytes) : Decidable (ComesBack root rest) := inferInstanceAs (Decidable (_ ∧ _))

theorem filePath_under_iff (hinit : init config p = .ok h) {r : Bytes} (hroot : configuredRoot config = slash :: r)
    (rest : Bytes) :
    DotPath.Under (rootDirectory (slash :: r)) (normalize (h.filePath (p ++ rest))) ↔ ComesBack (slash :: r) rest := by
  rw [normalize_filePath hinit hroot]
  exact DotPath.under_join_iff _ _

/-- While the rest of the URI comes back, a reply shows files under the root only. -/
theorem handleRequest_of_comesBack (hinit : init config p = .ok h) {r : Bytes}
    (hroot : configuredRoot config = slash :: r) {files files' : FileSystem} (parseMarkdown : Bytes → Bytes)
    (hfiles : ∀ path, DotPath.Under (rootDirectory (slash :: r)) (normalize path) →
      files.isRegularFile path = files'.isRegularFile path ∧ files.read path = files'.read path)
    {req : Request} {rest : Bytes} (huri : req.uri = p ++ rest) (hrest : ComesBack (slash :: r) rest) :
    h.handleRequest files parseMarkdown req = h.handleRequest files' parseMarkdown req := by
  have hunder := (filePath_under_iff hinit hroot rest).mpr hrest
  rw [← huri] at hunder
  obtain ⟨hregular, hread⟩ := hfiles _ hunder
  exact handleRequest_congr h parseMarkdown req hregular hread

end StaticRequestHandler

namespace RequestHandlerDispatcher

open StaticRequestHandler

/-- **Which requests stay under the root**: of the requests that a dispatcher routes to a static handler,
those whose URI comes back behind the location path. -/
theorem dispatch_static_iff (config : NginxConfig) (st st' : Statics) (d : RequestHandlerDispatcher)
    (hd : create config st = .ok (d, st')) (child : NginxConfig) (p : Bytes) (h : StaticRequestHandler)
    (hinit : StaticRequestHandler.init child p = .ok h) (r : Bytes) (hroot : configuredRoot child = slash :: r)
    (req : Request) (hroute : d.dispatch req = some (.static h)) :
    ∃ rest, req.uri = p ++ rest ∧
      (DotPath.Under (rootDirectory (slash :: r)) (normalize (h.filePath req.uri)) ↔
        ComesBack (slash :: r) rest) := by
  obtain ⟨key, hkey, -, rest, hrest⟩ := dispatch_mem hroute
  have hpath : p = key := by
    rw [← locationPath_of_init hinit]
    exact create_static hd hkey
  subst hpath
  refine ⟨rest, hrest.symm, ?_⟩
  rw [← hrest]
  exact filePath_under_iff hinit hroot rest

/-- A location that serves a directory. -/
def staticConfig : NginxConfig :=
  [⟨[bytes "server"], some [⟨[bytes "location", quoted (bytes "/static"), bytes "StaticHandler"],
    some [⟨[bytes "root", bytes "/data"], none⟩]⟩]⟩]

theorem dispatch_static_page :
    DotPath.Under (rootDirectory (bytes "/data"))
      (normalize (filePath ⟨bytes "/static", bytes "/data/"⟩ (bytes "/static/../data/a"))) := by
  obtain ⟨rest, hrest, hiff⟩ := dispatch_static_iff staticConfig .initial _ _ rfl
    [⟨[bytes "root", bytes "/data"], none⟩] (bytes "/static") ⟨bytes "/static", bytes "/data/"⟩ rfl (bytes "data") rfl
    { Request.fresh .getReq 1 0 with uri := bytes "/static/../data/a" } rfl
  have hsame : rest = bytes "/../data/a" := List.append_cancel_left hrest.symm
  subst hsame
  exact hiff.mpr (by decide)

/-- A request that the parser accepts and the dispatcher routes to a static handler, for a file that is not
under its root. -/
theorem dispatch_static_leaves :
    ∃ d st', create staticConfig .initial = .ok (d, st') ∧
      ∃ req, (RequestParser.new.parse (Request.fresh .getReq 0 0)
          (bytes "GET /static/../../etc/passwd HTTP/1.0\r\n\r\n") 41).result = .good ∧
        (RequestParser.new.parse (Request.fresh .getReq 0 0)
          (bytes "GET /static/../../etc/passwd HTTP/1.0\r\n\r\n") 41).request = req ∧
        d.dispatch req = some (.static ⟨bytes "/static", bytes "/data/"⟩) ∧
        ¬ DotPath.Under (rootDirectory (bytes "/data"))
          (normalize (filePath ⟨bytes "/static", bytes "/data/"⟩ req.uri)) := by
  refine ⟨_, _, rfl, _, by decide, rfl, by decide, by decide⟩

end RequestHandlerDispatcher

end WebServer
