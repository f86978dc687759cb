import WebServer.Handler.ProxyRedirects
import WebServer.Handler.ProxyRequest
import WebServer.Handler.UpstreamResponse

/-!
# What the client sees of a response

A response is passed on by the call that has got it unless its code, as the proxy reads it, is one of a redirect that
leads to another target (`handles_iff`, `kept_iff_stays`), and its body can be rewritten (`sentBody_ok_iff`). Of what it
says, the code reaches the client if no digits behind it hide it and it is one that the server knows
(`passesStatus_iff`), the headers if no name is repeated (`passesHeaders_iff`).
-/

namespace WebServer

open Lib

namespace ReverseProxyHandler

variable {h : ReverseProxyHandler} {lib : Libraries} {exchange : Bytes → Exchange} {req : Request} {rep : Reply}
  {data body : Bytes} {head : ResponseHead}

/-! ### The response that is kept -/

/-- The response is not given up for another one: it is no redirect, or one to where the request has gone. -/
def Kept (h : ReverseProxyHandler) (lib : Libraries) (req : Request) (rep : Reply) : Prop :=
  Moved rep → ∃ next, uriReplace lib (location rep) h.proxyDest (h.locationPath ++ bytes "/") = .ok next ∧
    (next = location rep ∨ h.target next = h.target req.uri)

/-- A redirect stays if its location names no target on the proxied host, or the one that the request is for, or if it is
already what it would be rewritten to. -/
def Stays (h : ReverseProxyHandler) (req : Request) (rep : Reply) : Prop :=
  Moved rep → ∀ next, h.hostTarget (location rep) = some next →
    h.locationPath ++ next = location rep ∨ next = h.target req.uri

theorem kept_iff_stays (hlib : Moved rep → ReplacesHost lib h) : h.Kept lib req rep ↔ h.Stays req rep := by
  refine forall_congr' fun hmoved => ?_
  rw [uriReplace_eq (hlib hmoved)]
  cases hhost : h.hostTarget (location rep) with
  | none => simp
  | some next =>
      have hne : next ≠ [] := by
        obtain ⟨rest, -, rfl⟩ := Option.map_eq_some_iff.mp hhost
        exact List.cons_ne_nil _ _
      have htarget : h.target (h.locationPath ++ next) = next := by rw [target_append, if_neg hne]
      simp [htarget]

/-- The text of a request shows its target. -/
theorem target_eq_of_httpRequest {uri : Bytes} (heq : h.httpRequest { req with uri := uri } = h.httpRequest req) :
    h.target uri = h.target req.uri := by
  unfold httpRequest requestFor at heq
  simp only [List.append_assoc] at heq
  have htarget := List.append_cancel_left (List.append_cancel_left heq)
  exact List.append_cancel_right htarget

theorem httpRequest_eq_of_target {uri : Bytes} (heq : h.target uri = h.target req.uri) :
    h.httpRequest { req with uri := uri } = h.httpRequest req := by
  show h.requestFor req (h.target uri) = h.requestFor req (h.target req.uri)
  rw [heq]

/-- A call for a URI that a redirect has led to, and that gets the same response, makes it into its own reply. -/
theorem handleRequest_of_next {uri : Bytes} (hagain : exchange (h.httpRequest { req with uri := uri }) = .response data)
    (hparse : parseResponse data = .ok rep) (hmoved : Moved rep)
    (hnext : uriReplace lib (location rep) h.proxyDest (h.locationPath ++ bytes "/") = .ok uri) (depth : Nat) :
    h.handleRequest lib exchange (depth + 1) { req with uri := uri } = h.rewrite lib (located rep) := by
  rw [handleRequest_of_response depth hagain, bind_eq_of_ok hparse, redirect_of_moved hmoved, hnext, bind_eq_of_ok rfl,
    if_pos (.inr rfl)]
  rfl

/-- The response is passed on, at the latest by the second call. -/
theorem handleRequest_of_kept (hexchange : exchange (h.httpRequest req) = .response data)
    (hparse : parseResponse data = .ok rep) (hkept : h.Kept lib req rep) :
    h.handleRequest lib exchange 2 req = h.rewrite lib (located rep) := by
  rw [handleRequest_of_response 1 hexchange, bind_eq_of_ok hparse]
  by_cases hmoved : Moved rep
  · obtain ⟨next, hnext, hwhere⟩ := hkept hmoved
    rw [redirect_of_moved hmoved, hnext]
    by_cases hsame : next = location rep ∨ next = req.uri
    · rw [bind_eq_of_ok rfl, if_pos hsame]
      rfl
    · rw [bind_eq_of_ok rfl, if_neg hsame]
      -- the next request is the same, and so is its response
      have htarget : h.target next = h.target req.uri := hwhere.resolve_left fun heq => hsame (.inl heq)
      have hagain : exchange (h.httpRequest { req with uri := next }) = .response data := by
        rw [httpRequest_eq_of_target htarget, hexchange]
      exact handleRequest_of_next hagain hparse hmoved hnext 0
  · rw [redirect_of_not_moved hmoved]
    rfl

/-- An upstream that answers one request only. -/
def onlyAnswers (text data : Bytes) (sent : Bytes) : Exchange := if sent = text then .response data else .connectError

/-- A call that it does not answer gives no reply. -/
theorem handleRequest_of_not_answered {text : Bytes} {req' : Request} (hother : h.httpRequest req' ≠ text) {depth : Nat}
    {out : Reply} : h.handleRequest lib (onlyAnswers text data) depth req' ≠ .ok out := by
  intro hout
  rcases depth with _ | depth
  · cases hout
  · rw [handleRequest, onlyAnswers, if_neg hother] at hout
    cases hout

/-- A redirect that does not lead on is kept. -/
theorem kept_of_redirect (hredirect : h.redirect lib rep req.uri = .ok (located rep, none)) : h.Kept lib req rep := by
  intro hmoved
  rw [redirect_of_moved hmoved] at hredirect
  obtain ⟨next, hreplace, hnone⟩ := bind_eq_ok.mp hredirect
  refine ⟨next, hreplace, ?_⟩
  by_contra hother
  rw [not_or] at hother
  have hgoes : ¬ (next = location rep ∨ next = req.uri) :=
    fun hsame => hsame.elim hother.1 fun huri => hother.2 (congrArg h.target huri)
  rw [if_neg hgoes] at hnone
  cases hnone

theorem kept_of_onlyAnswers (hparse : parseResponse data = .ok rep) {depth : Nat} {out : Reply}
    (hout : h.handleRequest lib (onlyAnswers (h.httpRequest req) data) depth req = .ok out) :
    h.Kept lib req rep ∧ h.rewrite lib (located rep) = .ok out := by
  rcases depth with _ | depth
  · cases hout
  rw [handleRequest_of_response depth (if_pos rfl), bind_eq_of_ok hparse] at hout
  obtain ⟨⟨rep', next⟩, hredirect, hout⟩ := bind_eq_ok.mp hout
  obtain ⟨rfl, hnext⟩ := redirect_eq_ok hredirect
  rcases next with _ | next
  · exact ⟨kept_of_redirect hredirect, hout⟩
  · obtain ⟨hmoved, hreplace, -⟩ := hnext next rfl
    have hout' : h.handleRequest lib (onlyAnswers (h.httpRequest req) data) depth { req with uri := next } = .ok out :=
      hout
    by_cases hagain : h.httpRequest { req with uri := next } = h.httpRequest req
    · -- the second call gets the response again
      refine ⟨fun _ => ⟨next, hreplace, .inr (target_eq_of_httpRequest hagain)⟩, ?_⟩
      rcases depth with _ | depth
      · cases hout'
      · rwa [handleRequest_of_next (if_pos hagain) hparse hmoved hreplace depth] at hout'
    · exact absurd hout' (handleRequest_of_not_answered hagain)

/-- **The call that has got a response**: it makes it into its own reply, whatever else the proxied server answers, if
and only if the response stays and can be rewritten. -/
theorem handles_iff (h : ReverseProxyHandler) (lib : Libraries) (req : Request)
    (hparse : parseResponse data = .ok rep) (P : Reply → Prop) :
    (∀ exchange, exchange (h.httpRequest req) = .response data →
        ∃ depth out, h.handleRequest lib exchange depth req = .ok out ∧ P out) ↔
      h.Kept lib req rep ∧ ∃ out, h.rewrite lib (located rep) = .ok out ∧ P out := by
  constructor
  · intro hall
    obtain ⟨depth, out, hout, hP⟩ := hall (onlyAnswers (h.httpRequest req) data) (if_pos rfl)
    obtain ⟨hkept, hrewrite⟩ := kept_of_onlyAnswers hparse hout
    exact ⟨hkept, out, hrewrite, hP⟩
  · rintro ⟨hkept, out, hrewrite, hP⟩ exchange hexchange
    exact ⟨2, out, (handleRequest_of_kept hexchange hparse hkept).trans hrewrite, hP⟩

/-! ### The rewriting -/

/-- `regex_replace` returns for the expressions of links. -/
def Libraries.Returns (lib : Libraries) : Prop :=
  ∀ opener ∈ linkOpeners, ∀ text format, ∃ out, lib.regexReplace text (opener ++ bytes "/") format = some out

def Compressed (rep : Reply) : Prop := rep.headers.find? (bytes "Content-Encoding") = some (bytes "gzip")

instance (rep : Reply) : Decidable (Compressed rep) := inferInstanceAs (Decidable (_ = _))

/-- A compressed body that can be rewritten: it inflates, and with the location path in its links it can be compressed
again. -/
def Recompresses (z : Gzip.Zlib) (path body : Bytes) : Prop :=
  Gzip.Inflates z body ∧ (linkedText path (z.inflate body).1).length ≤ Gzip.maxCompress ∧ z.deflateInit2 = .ok

instance (z : Gzip.Zlib) (path body : Bytes) : Decidable (Recompresses z path body) := inferInstanceAs (Decidable (_ ∧ _))

/-- The body that the client gets. -/
def sentBody (h : ReverseProxyHandler) (lib : Libraries) (rep : Reply) : Except Fault Bytes := do
  let content ← ifGzip rep (Gzip.decompress lib.zlib) rep.body
  let content ← appendRelativeURI lib content h.locationPath
  ifGzip rep (Gzip.compress lib.zlib) content

/-- The same body, spelt out: the one of the response with the location path in its links, where it is compressed in the
text that it stands for. -/
def linkedBody (z : Gzip.Zlib) (path : Bytes) (rep : Reply) : Bytes :=
  if Compressed rep then z.deflate (linkedText path (z.inflate rep.body).1) else linkedText path rep.body

theorem rewrite_eq_ok {out : Reply} :
    h.rewrite lib rep = .ok out ↔ ∃ body, h.sentBody lib rep = .ok body ∧
      ⟨rep.code, rep.headers.insert (bytes "Content-Length") (decimal body.length), body⟩ = out := by
  simp only [rewrite, sentBody, bind_eq_ok, pure_eq_ok]
  constructor
  · rintro ⟨content, hcontent, links, hlinks, body, hbody, hout⟩
    exact ⟨body, ⟨content, hcontent, links, hlinks, hbody⟩, hout⟩
  · rintro ⟨body, ⟨content, hcontent, links, hlinks, hbody⟩, hout⟩
    exact ⟨content, hcontent, links, hlinks, body, hbody, hout⟩

theorem rewrite_ok_iff : (∃ out, h.rewrite lib rep = .ok out) ↔ ∃ body, h.sentBody lib rep = .ok body := by
  simp only [rewrite_eq_ok]
  constructor
  · rintro ⟨_, body, hbody, -⟩
    exact ⟨body, hbody⟩
  · rintro ⟨body, hbody⟩
    exact ⟨_, body, hbody, rfl⟩

theorem code_of_rewrite {out : Reply} (hout : h.rewrite lib rep = .ok out) : out.code = rep.code := by
  obtain ⟨_, -, rfl⟩ := rewrite_eq_ok.mp hout
  rfl

theorem called_eq_ok {result : Option Bytes} {text : Bytes} : called result = .ok text ↔ result = some text := by
  cases result <;> simp [called]

theorem sentBody_of_plain (hplain : ¬ Compressed rep) :
    h.sentBody lib rep = appendRelativeURI lib rep.body h.locationPath := by
  have hgzip : ∀ f body, ifGzip rep f body = .ok body := fun f body => if_neg hplain
  unfold sentBody
  simp only [hgzip]
  rw [bind_eq_of_ok rfl]
  cases appendRelativeURI lib rep.body h.locationPath <;> rfl

theorem sentBody_of_compressed (hgzip : Compressed rep) {sent : Bytes} :
    h.sentBody lib rep = .ok sent ↔ Gzip.Inflates lib.zlib rep.body ∧
      ∃ text, appendRelativeURI lib (lib.zlib.inflate rep.body).1 h.locationPath = .ok text ∧
        text.length ≤ Gzip.maxCompress ∧ lib.zlib.deflateInit2 = .ok ∧ sent = lib.zlib.deflate text := by
  have hcalled : ∀ f body, ifGzip rep f body = called (f body) := fun f body => if_pos hgzip
  unfold sentBody
  simp only [hcalled, bind_eq_ok, called_eq_ok, Gzip.decompress_eq_some_iff, Gzip.compress_eq_some_iff]
  constructor
  · rintro ⟨_, ⟨hinflates, rfl⟩, text, htext, hsent⟩
    exact ⟨hinflates, text, htext, hsent⟩
  · rintro ⟨hinflates, text, htext, hsent⟩
    exact ⟨_, ⟨hinflates, rfl⟩, text, htext, hsent⟩

theorem appendRelativeURI_ok_iff (hlib : lib.Returns) (content path : Bytes) :
    (∃ out, appendRelativeURI lib content path = .ok out) ↔ path ≠ [] := by
  have hhref : bytes "href=\"/" = bytes "href=\"" ++ bytes "/" := by decide
  have hsrc : bytes "src=\"/" = bytes "src=\"" ++ bytes "/" := by decide
  simp only [appendRelativeURI, bind_eq_ok, called_eq_ok, hhref, hsrc]
  constructor
  · rintro ⟨out, trimmed, htrimmed, -⟩ rfl
    cases htrimmed
  · intro hne
    have htrimmed : ∃ trimmed, trimmedAppend path = .ok trimmed := by
      unfold trimmedAppend
      rw [List.getLast?_eq_some_getLast hne]
      exact ⟨_, rfl⟩
    obtain ⟨trimmed, htrimmed⟩ := htrimmed
    obtain ⟨first, hfirst⟩ := hlib (bytes "href=\"") (by simp [linkOpeners]) content
      (bytes "href=\"" ++ trimmed ++ bytes "/")
    obtain ⟨out, hout⟩ := hlib (bytes "src=\"") (by simp [linkOpeners]) first
      (bytes "src=\"" ++ trimmed ++ bytes "/")
    exact ⟨out, trimmed, htrimmed, first, hfirst, hout⟩

/-- **When the body can be rewritten.** -/
theorem sentBody_ok_iff (hlib : lib.Returns) (hput : Compressed rep → PutsPath lib h.locationPath) :
    (∃ sent, h.sentBody lib rep = .ok sent) ↔
      h.locationPath ≠ [] ∧ (Compressed rep → Recompresses lib.zlib h.locationPath rep.body) := by
  by_cases hgzip : Compressed rep
  · simp only [sentBody_of_compressed hgzip, hgzip, true_implies, Recompresses]
    constructor
    · rintro ⟨sent, hinflates, text, htext, hsize, hinit, -⟩
      have hne := (appendRelativeURI_ok_iff hlib _ h.locationPath).mp ⟨text, htext⟩
      rw [appendRelativeURI_eq (hput hgzip) hne] at htext
      obtain rfl := Except.ok.inj htext
      exact ⟨hne, hinflates, hsize, hinit⟩
    · rintro ⟨hne, hinflates, hsize, hinit⟩
      exact ⟨_, hinflates, _, appendRelativeURI_eq (hput hgzip) hne _, hsize, hinit, rfl⟩
  · rw [sentBody_of_plain hgzip, appendRelativeURI_ok_iff hlib]
    simp [hgzip]

/-- What is sent, if anything is. -/
theorem sentBody_eq (hput : PutsPath lib h.locationPath) {sent : Bytes} (hsent : h.sentBody lib rep = .ok sent) :
    sent = linkedBody lib.zlib h.locationPath rep := by
  have hlinked : ∀ content text, appendRelativeURI lib content h.locationPath = .ok text →
      text = linkedText h.locationPath content := by
    intro content text htext
    by_cases hne : h.locationPath = []
    · rw [hne] at htext
      cases htext
    · rw [appendRelativeURI_eq hput hne] at htext
      exact (Except.ok.inj htext).symm
  unfold linkedBody
  by_cases hgzip : Compressed rep
  · obtain ⟨-, text, htext, -, -, rfl⟩ := (sentBody_of_compressed hgzip).mp hsent
    rw [if_pos hgzip, hlinked _ _ htext]
  · rw [sentBody_of_plain hgzip] at hsent
    rw [if_neg hgzip, hlinked _ _ hsent]

@[simp] theorem located_code (rep : Reply) : (located rep).code = rep.code := by
  unfold located
  split_ifs <;> rfl

@[simp] theorem located_body (rep : Reply) : (located rep).body = rep.body := by
  unfold located
  split_ifs <;> rfl

theorem find?_located {name : Bytes} (hname : name ≠ bytes "Location") :
    (located rep).headers.find? name = rep.headers.find? name := by
  unfold located
  split_ifs
  · exact OrdMap.find?_insert_ne _ _ (Ne.symm hname)
  · rfl

/-- A location that was there is still there. -/
theorem find?_located_of_some {name value : Bytes} (hfind : rep.headers.find? name = some value) :
    (located rep).headers.find? name = some value := by
  by_cases hname : name = bytes "Location"
  · unfold located
    split_ifs
    · rw [hname] at hfind ⊢
      rw [OrdMap.find?_insert_self, location, hfind, Option.getD_some]
    · exact hfind
  · rw [find?_located hname, hfind]

theorem sentBody_located (h : ReverseProxyHandler) (lib : Libraries) (rep : Reply) :
    h.sentBody lib (located rep) = h.sentBody lib rep := by
  have hgzip : ∀ f body, ifGzip (located rep) f body = ifGzip rep f body := by
    intro f body
    unfold ifGzip
    rw [find?_located (by decide)]
  unfold sentBody
  rw [located_body]
  simp only [hgzip]

theorem rewrite_located_ok_iff :
    (∃ out, h.rewrite lib (located rep) = .ok out) ↔ ∃ sent, h.sentBody lib rep = .ok sent := by
  rw [rewrite_ok_iff, sentBody_located]

/-! ### The status -/

/-- The client gets the status of a response. -/
def PassesStatus (h : ReverseProxyHandler) (lib : Libraries) (req : Request) (head : ResponseHead) (body : Bytes) : Prop :=
  ∀ exchange, exchange (h.httpRequest req) = .response (head.response body) →
    ∃ depth rep, h.handleRequest lib exchange depth req = .ok rep ∧ rep.code = head.code ∧
      bytes "HTTP/1.0 " ++ (decimal head.code ++ [sp]) <+: rep.toBuffers

/-- The reply with the response as it was read. -/
def ResponseHead.reply (head : ResponseHead) (body : Bytes) : Reply := ⟨head.shownCode, head.headers, body⟩

theorem ResponseHead.shownCode_eq_iff : head.shownCode = head.code ↔ ∀ run ∈ lastLongRun head.reason, runCode run = head.code := by
  unfold shownCode
  cases lastLongRun head.reason <;> simp

theorem shows_iff {code : StatusCode} (hcode : 100 ≤ code ∧ code ≤ 599) (rest : Bytes) :
    bytes "HTTP/1.0 " ++ (decimal code ++ [sp]) <+: StatusStrings.toBuffer code ++ rest ↔
      code ∈ StatusCode.enumerators := by
  constructor
  · intro hshown
    by_contra hother
    have herror : StatusStrings.toBuffer StatusCode.internalServerError =
        bytes "HTTP/1.0 " ++ (decimal StatusCode.internalServerError ++ [sp]) ++ bytes "Internal Server Error\r\n" := by
      decide +kernel
    have hlength := (decimal_code hcode).1
    rw [StatusStrings.toBuffer_of_notMem hother, herror, List.append_assoc, List.append_assoc,
      List.prefix_append_right_inj, List.append_assoc] at hshown
    have hsame : decimal code <+: decimal StatusCode.internalServerError :=
      List.prefix_of_prefix_length_le ((List.prefix_append _ _).trans hshown) (List.prefix_append _ _)
        (by rw [hlength]; decide)
    have heq := decimal_injective (hsame.eq_of_length (by rw [hlength]; decide))
    rw [heq] at hother
    exact hother (by decide)
  · intro hmem
    have hall : ∀ code ∈ StatusCode.enumerators,
        bytes "HTTP/1.0 " ++ (decimal code ++ [sp]) <+: StatusStrings.toBuffer code := by decide +kernel
    exact (hall code hmem).trans (List.prefix_append _ _)

/-- **When the upstream status reaches the client**: when the server knows the code, the last run of three or more
digits in the reason, if there is one, begins with it, and the body can be rewritten. -/
theorem passesStatus_iff (h : ReverseProxyHandler) (lib : Libraries) (hlib : lib.Returns) (req : Request)
    (head : ResponseHead) (body : Bytes) (hput : Compressed (head.reply body) → PutsPath lib h.locationPath)
    (hcode : head.code ≠ StatusCode.movedTemporarily ∧ head.code ≠ StatusCode.movedPermanently) :
    h.PassesStatus lib req head body ↔
      head.code ∈ StatusCode.enumerators ∧ (∀ run ∈ lastLongRun head.reason, runCode run = head.code) ∧
        h.locationPath ≠ [] ∧ (Compressed (head.reply body) → Recompresses lib.zlib h.locationPath body) := by
  have hhandles := handles_iff h lib req (head.parseResponse_response body) fun rep =>
    rep.code = head.code ∧ bytes "HTTP/1.0 " ++ (decimal head.code ++ [sp]) <+: rep.toBuffers
  have hshows : ∀ rep : Reply, rep.code = head.code →
      (bytes "HTTP/1.0 " ++ (decimal head.code ++ [sp]) <+: rep.toBuffers ↔ head.code ∈ StatusCode.enumerators) := by
    intro rep hrep
    rw [Reply.toBuffers, hrep, List.append_assoc, List.append_assoc]
    exact shows_iff head.code_ok _
  have hbody : (∃ sent, h.sentBody lib (head.reply body) = .ok sent) ↔
      h.locationPath ≠ [] ∧ (Compressed (head.reply body) → Recompresses lib.zlib h.locationPath body) :=
    sentBody_ok_iff hlib hput
  rw [PassesStatus, hhandles, ← hbody, ← ResponseHead.shownCode_eq_iff]
  constructor
  · rintro ⟨-, out, hout, hsame, hshown⟩
    have hmem := (hshows out hsame).mp hshown
    obtain ⟨sent, hsent⟩ := rewrite_located_ok_iff.mp ⟨out, hout⟩
    rw [code_of_rewrite hout, located_code] at hsame
    exact ⟨hmem, hsame, sent, hsent⟩
  · rintro ⟨hmem, hsame, sent, hsent⟩
    have hkept : h.Kept lib req (head.reply body) := by
      rintro (hmoved | hmoved)
      · exact absurd (hsame.symm.trans hmoved) hcode.1
      · exact absurd (hsame.symm.trans hmoved) hcode.2
    obtain ⟨out, hrewrite⟩ := rewrite_located_ok_iff.mpr ⟨sent, hsent⟩
    have hreply : out.code = head.code := (code_of_rewrite hrewrite).trans ((located_code _).trans hsame)
    exact ⟨hkept, out, hrewrite, hreply, (hshows out hreply).mpr hmem⟩

/-- A response of version 1.1. -/
def ResponseHead.ofCode (code : StatusCode) (reason : Bytes) (fields : List (Bytes × Bytes))
    (hcode : 100 ≤ code ∧ code ≤ 599) (hreason : cr ∉ reason ∧ lf ∉ reason)
    (hfields : ∀ field ∈ fields, field.1 ≠ [] ∧ (∀ c ∈ field.1, IsTokenByte c) ∧ cr ∉ field.2 ∧ lf ∉ field.2) :
    ResponseHead where
  major := ch '1'
  minor := ch '1'
  code := code
  reason := reason
  fields := fields
  major_ok := by decide
  minor_ok := by decide
  code_ok := hcode
  reason_ok := hreason
  fields_ok := hfields

theorem okCode_inRange : 100 ≤ StatusCode.ok ∧ StatusCode.ok ≤ 599 := by decide

theorem okReason_oneLine : cr ∉ bytes "OK" ∧ lf ∉ bytes "OK" := by decide

theorem greedyLibraries_returns : greedyLibraries.Returns :=
  fun _ hopener text format => ⟨_, regexReplace_greedyLibraries hopener text format⟩

theorem putsPath_upProxy : PutsPath greedyLibraries upProxy.locationPath :=
  putsFormats_greedyLibraries.putsPath ⟨by decide, by decide⟩

/-- A page that is compressed. -/
def foundHead : ResponseHead :=
  .ofCode 404 (bytes "Not Found") [(bytes "Content-Encoding", bytes " gzip")] (by decide) (by decide) (by decide +kernel)

theorem passesStatus_found : upProxy.PassesStatus greedyLibraries (pageRequest (bytes "/p/a")) foundHead pageStream :=
  (passesStatus_iff upProxy greedyLibraries greedyLibraries_returns (pageRequest (bytes "/p/a")) foundHead pageStream
    (fun _ => putsPath_upProxy) ⟨by decide, by decide⟩).mpr ⟨by decide, by decide +kernel, by decide, by decide +kernel⟩

/-- A number in the reason is taken for the code. -/
def numberedHead : ResponseHead := .ofCode 200 (bytes "OK 404") [] (by decide) (by decide) (by decide)

/-- A code that the server does not know. -/
def partialHead : ResponseHead := .ofCode 206 (bytes "Partial Content") [] (by decide) (by decide) (by decide)

theorem numbered_not_passesStatus :
    ¬ upProxy.PassesStatus greedyLibraries (pageRequest (bytes "/p/a")) numberedHead [] ∧
      ¬ upProxy.PassesStatus greedyLibraries (pageRequest (bytes "/p/a")) partialHead [] := by
  constructor
  · intro hpasses
    obtain ⟨-, out, hout, hcode, -⟩ := (handles_iff _ _ _ (numberedHead.parseResponse_response []) _).mp hpasses
    rw [code_of_rewrite hout, located_code] at hcode
    revert hcode
    decide +kernel
  · intro hpasses
    obtain ⟨-, out, hout, hcode, hshown⟩ := (handles_iff _ _ _ (partialHead.parseResponse_response []) _).mp hpasses
    rw [Reply.toBuffers, hcode, List.append_assoc, List.append_assoc] at hshown
    have hmem := (shows_iff partialHead.code_ok _).mp hshown
    revert hmem
    decide +kernel

/-! ### The headers -/

/-- The names and the trimmed values of the header lines. -/
def ResponseHead.headerList (head : ResponseHead) : List (Bytes × Bytes) :=
  head.fields.map fun field => (field.1, trim field.2)

/-- A header other than the length. -/
def NotLength (header : Bytes × Bytes) : Prop := lower header.1 ≠ lower (bytes "Content-Length")

instance (header : Bytes × Bytes) : Decidable (NotLength header) := inferInstanceAs (Decidable (_ ≠ _))

/-- Every header but for the length is among the lines that are sent, as often as in the response. -/
def ShowsHeaders (head : ResponseHead) (rep : Reply) : Prop :=
  ∃ line, rep.toBuffers = withEnds crlf (line :: rep.headers.entries.map headerLine) ++ (crlf ++ rep.body) ∧
    ∀ header ∈ head.headerList, NotLength header → rep.headers.entries.count header = head.headerList.count header

def PassesHeaders (h : ReverseProxyHandler) (lib : Libraries) (req : Request) (head : ResponseHead) (body : Bytes) : Prop :=
  ∀ exchange, exchange (h.httpRequest req) = .response (head.response body) →
    ∃ depth rep, h.handleRequest lib exchange depth req = .ok rep ∧ ShowsHeaders head rep

theorem headers_eq (head : ResponseHead) :
    head.headers = head.headerList.foldl (fun acc header => acc.insert header.1 header.2) OrdMap.empty := by
  rw [ResponseHead.headers, storeFields, ResponseHead.headerList, List.foldl_map]

theorem find?_sentHeaders {rep out : Reply} (hout : h.rewrite lib (located rep) = .ok out) {name value : Bytes}
    (hname : name ≠ bytes "Content-Length") (hfind : rep.headers.find? name = some value) :
    out.headers.find? name = some value := by
  obtain ⟨_, -, rfl⟩ := rewrite_eq_ok.mp hout
  rw [OrdMap.find?_insert_ne _ _ hname.symm]
  exact find?_located_of_some hfind

/-- Headers that are all stored, and are each there once, have different names. -/
theorem nodup_names_of_stored {headers : List (Bytes × Bytes)} {stored : OrdMap Bytes Bytes}
    (hstored : ∀ header ∈ headers, stored.find? header.1 = some header.2) (honce : ∀ header ∈ headers, headers.count header = 1) :
    (headers.map Prod.fst).Nodup := by
  apply List.Nodup.map_on
  · intro first hfirst second hsecond hname
    have hvalue : some first.2 = some second.2 := by rw [← hstored first hfirst, hname, hstored second hsecond]
    exact Prod.ext hname (Option.some.inj hvalue)
  · refine List.nodup_iff_count_le_one.mpr fun header => ?_
    by_cases hheader : header ∈ headers
    · exact (honce header hheader).le
    · rw [List.count_eq_zero.mpr hheader]
      exact Nat.zero_le 1

/-- A header whose name no other one has is the one that is stored. -/
theorem find?_headers_of_nodup {head : ResponseHead} {header : Bytes × Bytes} (hin : header ∈ head.headerList)
    (hnot : NotLength header)
    (hnodup : ((head.headerList.filter fun header => decide (NotLength header)).map Prod.fst).Nodup) :
    head.headers.find? header.1 = some header.2 := by
  have hmem : ∀ value, (header.1, value) ∈ head.headerList →
      (header.1, value) ∈ head.headerList.filter fun header => decide (NotLength header) :=
    fun value hvalue => List.mem_filter.mpr ⟨hvalue, decide_eq_true hnot⟩
  obtain ⟨value, hin', hfind⟩ := OrdMap.exists_find?_foldl_insert OrdMap.empty ⟨header.2, hin⟩
  obtain rfl : value = header.2 := congrArg Prod.snd (List.inj_on_of_nodup_map hnodup (hmem value hin') (hmem _ hin) rfl)
  rw [headers_eq]
  exact hfind

theorem counts_iff {head : ResponseHead} {out : Reply} (hout : h.rewrite lib (located (head.reply body)) = .ok out) :
    (∀ header ∈ head.headerList, NotLength header →
        out.headers.entries.count header = head.headerList.count header) ↔
      ((head.headerList.filter fun header => decide (NotLength header)).map Prod.fst).Nodup := by
  set others := head.headerList.filter fun header => decide (NotLength header) with hothers
  have hmem : ∀ header, header ∈ others ↔ header ∈ head.headerList ∧ NotLength header := by
    intro header
    rw [hothers, List.mem_filter, decide_eq_true_iff]
  have hcount : ∀ header, NotLength header → others.count header = head.headerList.count header :=
    fun header hnot => List.count_filter (by simpa using hnot)
  constructor
  · intro hcounts
    have honce : ∀ header ∈ others, out.headers.find? header.1 = some header.2 ∧ others.count header = 1 := by
      intro header hheader
      obtain ⟨hin, hnot⟩ := (hmem header).mp hheader
      have hsame := hcounts header hin hnot
      have hpos : 0 < head.headerList.count header := List.count_pos_iff.mpr hin
      rw [OrdMap.count_entries] at hsame
      rw [hcount header hnot]
      split_ifs at hsame with hfind
      · exact ⟨hfind, hsame.symm⟩
      · omega
    exact nodup_names_of_stored (fun header hheader => (honce header hheader).1) fun header hheader => (honce header hheader).2
  · intro hnodup header hin hnot
    have hname : header.1 ≠ bytes "Content-Length" := fun he => hnot (congrArg lower he)
    have hsent : out.headers.find? header.1 = some header.2 :=
      find?_sentHeaders hout hname (find?_headers_of_nodup hin hnot hnodup)
    rw [OrdMap.count_entries, if_pos hsent, ← hcount header hnot,
      List.count_eq_one_of_mem (List.Nodup.of_map Prod.fst hnodup) ((hmem header).mpr ⟨hin, hnot⟩)]

/-- **When the upstream headers reach the client**: when no name but for that of the length is repeated, the response
stays and the body can be rewritten. -/
theorem passesHeaders_iff (h : ReverseProxyHandler) (lib : Libraries) (hlib : lib.Returns) (req : Request)
    (head : ResponseHead) (body : Bytes) (hput : Compressed (head.reply body) → PutsPath lib h.locationPath)
    (hhost : Moved (head.reply body) → ReplacesHost lib h) :
    h.PassesHeaders lib req head body ↔
      ((head.headerList.filter fun header => decide (NotLength header)).map Prod.fst).Nodup ∧
        h.Stays req (head.reply body) ∧ h.locationPath ≠ [] ∧
        (Compressed (head.reply body) → Recompresses lib.zlib h.locationPath body) := by
  have hhandles := handles_iff h lib req (head.parseResponse_response body) (ShowsHeaders head)
  have hbody : (∃ sent, h.sentBody lib (head.reply body) = .ok sent) ↔
      h.locationPath ≠ [] ∧ (Compressed (head.reply body) → Recompresses lib.zlib h.locationPath body) :=
    sentBody_ok_iff hlib hput
  have hkept : h.Kept lib req (head.reply body) ↔ h.Stays req (head.reply body) := kept_iff_stays hhost
  rw [PassesHeaders, hhandles, ← hkept, ← hbody]
  constructor
  · rintro ⟨hkeeps, out, hout, line, -, hcounts⟩
    obtain ⟨sent, hsent⟩ := rewrite_located_ok_iff.mp ⟨out, hout⟩
    exact ⟨(counts_iff hout).mp hcounts, hkeeps, sent, hsent⟩
  · rintro ⟨hnodup, hkeeps, sent, hsent⟩
    obtain ⟨out, hout⟩ := rewrite_located_ok_iff.mpr ⟨sent, hsent⟩
    obtain ⟨line, hbuffer, -⟩ := exists_statusLine out.code
    exact ⟨hkeeps, out, hout, line, toBuffers_eq hbuffer, (counts_iff hout).mpr hnodup⟩

theorem replacesHost_upProxy : ReplacesHost greedyLibraries upProxy :=
  replacesHosts_greedyLibraries.replacesHost (by decide +kernel) ⟨by decide, by decide⟩

/-- Two headers, and a number in the reason that is taken for the code of a redirect without a location. -/
def taggedHead : ResponseHead :=
  .ofCode 200 (bytes "OK 302") [(bytes "ETag", bytes " x"), (bytes "Set-Cookie", bytes " a=1")] okCode_inRange
    (by decide) (by decide +kernel)

theorem stays_tagged : upProxy.Stays (pageRequest (bytes "/p/a")) (taggedHead.reply page) := by
  intro _ next hnext
  have hnone : upProxy.hostTarget (location (taggedHead.reply page)) = none := by decide +kernel
  rw [hnone] at hnext
  cases hnext

theorem passesHeaders_tagged : upProxy.PassesHeaders greedyLibraries (pageRequest (bytes "/p/a")) taggedHead page :=
  (passesHeaders_iff upProxy greedyLibraries greedyLibraries_returns (pageRequest (bytes "/p/a")) taggedHead page
    (fun _ => putsPath_upProxy) fun _ => replacesHost_upProxy).mpr
    ⟨by decide +kernel, stays_tagged, by decide, by decide +kernel⟩

/-- Two headers of the same name. -/
def cookiesHead : ResponseHead :=
  .ofCode 200 (bytes "OK") [(bytes "Set-Cookie", bytes " a=1"), (bytes "Set-Cookie", bytes " b=2")] okCode_inRange
    okReason_oneLine (by decide +kernel)

theorem cookies_not_passesHeaders :
    ¬ upProxy.PassesHeaders greedyLibraries (pageRequest (bytes "/p/a")) cookiesHead [] := by
  intro hpasses
  obtain ⟨-, out, hout, line, -, hcounts⟩ := (handles_iff _ _ _ (cookiesHead.parseResponse_response []) _).mp hpasses
  have hnodup := (counts_iff hout).mp hcounts
  revert hnodup
  decide +kernel

end ReverseProxyHandler

end WebServer
