import WebServer.Handler.StaticRequestHandler

/-!
# The content of static files

Two tests decide what is done with a file: `setContentType` looks at what is behind the last dot of the path, and
`HandleRequest` looks for `.md` anywhere in it. A file of another kind below a directory, or with a name, that has `.md` in it
is sent through the markdown converter (`handleRequest_content_iff`).
-/

namespace WebServer

namespace StaticRequestHandler

variable {path : Bytes} {c : UInt8}

/-! ### Extensions -/

/-- The name of a file: what is behind the last slash. -/
def fileName (path : Bytes) : Bytes := (path.reverse.takeWhile (· ≠ slash)).reverse

/-- What is behind the last dot of the name, if it has one. -/
def fileExtension (path : Bytes) : Option Bytes :=
  if dot ∈ fileName path then some (extension (fileName path)) else none

/-- The content type of a file that is no text. -/
def contentTypeOf : Option Bytes → Bytes
  | none => []
  | some ext =>
    if ext = bytes "jpg" then bytes "image/jpeg"
    else if ext = bytes "zip" then bytes "application/zip"
    else if ext = bytes "gif" then bytes "image/gif"
    else if ext = bytes "png" then bytes "image/png"
    else []

/-- The extensions of texts. -/
def textExtensions : List Bytes := [bytes "html", bytes "txt", bytes "md"]

/-- What is behind the last occurrence of a byte. -/
theorem takeWhile_reverse_ne {tail : Bytes} (htail : c ∉ tail) (front : Bytes) :
    ((front ++ c :: tail).reverse.takeWhile (· ≠ c)).reverse = tail := by
  have hpass : ∀ d ∈ tail.reverse, decide (d ≠ c) = true := by
    intro d hd
    refine decide_eq_true fun he => htail ?_
    rw [← he]
    exact List.mem_reverse.mp hd
  rw [List.reverse_append, List.reverse_cons, List.append_assoc, List.takeWhile_append_of_pos hpass,
    List.singleton_append, List.takeWhile_cons_of_neg (by simp), List.append_nil, List.reverse_reverse]

theorem exists_last_of_mem {text : Bytes} (h : c ∈ text) : ∃ front tail, text = front ++ c :: tail ∧ c ∉ tail := by
  obtain ⟨after, before, hreverse, hafter⟩ := List.eq_append_cons_of_mem (List.mem_reverse.mpr h)
  refine ⟨before.reverse, after.reverse, ?_, by simpa using hafter⟩
  have htext := congrArg List.reverse hreverse
  rw [List.reverse_reverse] at htext
  simp [htext]

theorem setContentType_eq_nil (hslash : slash ∈ extension path) : setContentType path = [] := by
  have hne : ∀ ext : Bytes, slash ∉ ext → extension path ≠ ext := by
    rintro ext hext rfl
    exact hext hslash
  unfold setContentType
  rw [if_neg (hne _ (by decide)), if_neg (hne _ (by decide)), if_neg (hne _ (by decide)), if_neg (hne _ (by decide)),
    if_neg (hne _ (by decide)), if_neg (hne _ (by decide))]

/-- **The content type is the one of the extension**, for a file that is no text. -/
theorem setContentType_eq (hdot : dot ∈ path) (hslash : slash ∈ path)
    (hother : ∀ ext ∈ textExtensions, fileExtension path ≠ some ext) :
    setContentType path = contentTypeOf (fileExtension path) := by
  obtain ⟨dir, name, rfl, hname⟩ := exists_last_of_mem hslash
  have hfile : fileName (dir ++ slash :: name) = name := takeWhile_reverse_ne hname dir
  unfold fileExtension at hother ⊢
  rw [hfile] at hother ⊢
  by_cases hmem : dot ∈ name
  · rw [if_pos hmem] at hother ⊢
    obtain ⟨stem, ext, rfl, hext⟩ := exists_last_of_mem hmem
    have hlast : extension (stem ++ dot :: ext) = ext := takeWhile_reverse_ne hext stem
    have hpath : extension (dir ++ slash :: (stem ++ dot :: ext)) = ext := by
      rw [← List.cons_append, ← List.append_assoc]
      exact takeWhile_reverse_ne hext _
    rw [hlast] at hother ⊢
    have hhtml : ext ≠ bytes "html" := fun he => hother (bytes "html") (by simp [textExtensions]) (congrArg some he)
    have htxt : ext ≠ bytes "txt" := fun he => hother (bytes "txt") (by simp [textExtensions]) (congrArg some he)
    unfold setContentType
    rw [hpath, if_neg hhtml, if_neg htxt]
    rfl
  · -- the last dot is in front of the slash
    have hdir : dot ∈ dir := by
      have hne : dot ≠ slash := by decide
      simpa [hmem, hne] using hdot
    obtain ⟨stem, rest, rfl, hrest⟩ := exists_last_of_mem hdir
    have hnotMem : dot ∉ rest ++ slash :: name := by
      have hne : dot ≠ slash := by decide
      simp [hrest, hmem, hne]
    have hpath : extension (stem ++ dot :: rest ++ slash :: name) = rest ++ slash :: name := by
      rw [List.append_assoc, List.cons_append]
      exact takeWhile_reverse_ne hnotMem stem
    rw [if_neg hmem]
    exact setContentType_eq_nil (by rw [hpath]; simp)

/-! ### The reply -/

theorem mem_filePath (h : StaticRequestHandler) (uri : Bytes) : dot ∈ h.filePath uri ∧ slash ∈ h.filePath uri := by
  unfold filePath replaceFront
  have hdot : dot ∈ bytes "../" := by decide
  have hslash : slash ∈ bytes "../" := by decide
  exact ⟨List.mem_append_left _ hdot, List.mem_append_left _ hslash⟩

theorem contentTypeOf_ne_text (ext : Option Bytes) :
    contentTypeOf ext ≠ bytes "text/html" ∧ contentTypeOf ext ≠ bytes "text/plain" := by
  cases ext with
  | none => decide
  | some ext =>
      rw [contentTypeOf]
      split_ifs <;> decide

/-- The file is sent as it is, with the content type of its extension. -/
def SendsContent (rep : Reply) (path content : Bytes) : Prop :=
  rep.body = content ∧ rep.headers.find? (bytes "Content-Type") = some (contentTypeOf (fileExtension path))

/-- **When a file that is no text is sent byte for byte**: when there is no `.md` in its path. -/
theorem handleRequest_content_iff (h : StaticRequestHandler) (files : FileSystem) (parseMarkdown : Bytes → Bytes)
    (req : Request) (content : Bytes) (hfile : files.isRegularFile (h.filePath req.uri) = true)
    (hread : files.read (h.filePath req.uri) = some content)
    (hother : ∀ ext ∈ textExtensions, fileExtension (h.filePath req.uri) ≠ some ext) :
    SendsContent (h.handleRequest files parseMarkdown req) (h.filePath req.uri) content ↔
      ¬ bytes ".md" <:+: h.filePath req.uri := by
  obtain ⟨hdot, hslash⟩ := mem_filePath h req.uri
  have htype := setContentType_eq hdot hslash hother
  obtain ⟨hhtml, hplain⟩ := contentTypeOf_ne_text (fileExtension (h.filePath req.uri))
  have hreply : h.handleRequest files parseMarkdown req = fileReply parseMarkdown (h.filePath req.uri) content := by
    unfold handleRequest
    simp only [hfile, if_true, hread]
  rw [hreply]
  unfold fileReply
  simp only [htype]
  rw [if_neg (not_or.mpr ⟨hhtml, hplain⟩)]
  split_ifs with hmd
  · refine iff_of_false (fun hsends => ?_) (not_not.mpr hmd)
    have hsame := hsends.2
    rw [Reply.withBody, Lib.OrdMap.find?_insert_self] at hsame
    exact hhtml (Option.some.inj hsame).symm
  · exact iff_of_true ⟨rfl, Lib.OrdMap.find?_insert_self _ _ _⟩ hmd

/-- Files that all have the same content. -/
def sameContent (content : Bytes) : FileSystem := ⟨fun _ => true, fun _ => some content⟩

def staticRequest (uri : Bytes) : Request := { Request.fresh .getReq 1 1 with uri := uri }

def filesHandler : StaticRequestHandler := ⟨bytes "/static", bytes "/files/"⟩

theorem handleRequest_content_picture :
    SendsContent (filesHandler.handleRequest (sameContent [0, 10]) (fun _ => []) (staticRequest (bytes "/static/a.png")))
        (filesHandler.filePath (bytes "/static/a.png")) [0, 10] ↔
      ¬ bytes ".md" <:+: filesHandler.filePath (bytes "/static/a.png") :=
  handleRequest_content_iff filesHandler (sameContent [0, 10]) (fun _ => []) (staticRequest (bytes "/static/a.png"))
    [0, 10] rfl rfl (by decide +kernel)

/-- A picture in a directory of markdown files goes through the converter. -/
theorem directory_not_sendsContent :
    fileExtension (filesHandler.filePath (bytes "/static/docs.md/a.png")) = some (bytes "png") ∧
      ¬ SendsContent
        (filesHandler.handleRequest (sameContent [0, 10]) (fun _ => []) (staticRequest (bytes "/static/docs.md/a.png")))
        (filesHandler.filePath (bytes "/static/docs.md/a.png")) [0, 10] := by
  refine ⟨by decide +kernel, fun hsends => ?_⟩
  have hbody := hsends.1
  revert hbody
  decide +kernel

end StaticRequestHandler

end WebServer
