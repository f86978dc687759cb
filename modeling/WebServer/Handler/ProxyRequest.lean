import WebServer.Handler.ReverseProxyHandler
import WebServer.Http.Decode

/-!
# The request that the proxy forwards

For a request that the parser has accepted, the proxy writes a head of the same grammar (`forwardedHead`), if the
name of the proxied server has no control bytes and no header is stored under the empty name. It drops `Host` and
`Connection`, but no other spelling of them, so the head says what the request has said if there is no such
spelling (`httpRequest_faithful_iff`).
-/

namespace WebServer

open Lib

/-! ### Accepted requests -/

/-- The URI and the headers of an accepted request are made of the bytes of the grammar. -/
structure Request.WellFormed (req : Request) : Prop where
  uri_ok : ∀ c ∈ req.uri, IsUriByte c
  keys_ok : ∀ e ∈ req.headers.entries, ∀ c ∈ e.1, IsTokenByte c
  values_ok : ∀ e ∈ req.headers.entries, ∀ c ∈ e.2, IsValueByte c

namespace HeaderLine

theorem key_ok {l : HeaderLine} (h : l.Ok) : ∀ c ∈ l.key, IsTokenByte c := by
  cases l with
  | field name value => exact h.2.1
  | continuation blank value => simp [key]

theorem value_ok {l : HeaderLine} (h : l.Ok) : ∀ c ∈ l.value, IsValueByte c := by
  cases l with
  | field name value => exact h.2.2
  | continuation blank value => exact h.2.2.1

end HeaderLine

theorem storeLines_ok {afterLine : Bool} {headers : OrdMap Bytes Bytes} {lines : List HeaderLine}
    (hlines : LinesOk afterLine lines)
    (h : ∀ e ∈ headers.entries, (∀ c ∈ e.1, IsTokenByte c) ∧ ∀ c ∈ e.2, IsValueByte c) :
    ∀ e ∈ (storeLines headers lines).entries, (∀ c ∈ e.1, IsTokenByte c) ∧ ∀ c ∈ e.2, IsValueByte c := by
  induction lines generalizing afterLine headers with
  | nil => exact h
  | cons l lines ih =>
      obtain ⟨hl, -, hrest⟩ := hlines
      apply ih hrest
      intro e he
      rcases OrdMap.mem_entries_insert he with rfl | he
      · exact ⟨HeaderLine.key_ok hl, HeaderLine.value_ok hl⟩
      · exact h e he

namespace RequestParser

variable {method : MethodType} {major minor : Int32} {xs after : Bytes}

theorem wellFormed_of_good
    (hgood : (new.parse (Request.fresh method major minor) (xs ++ after) xs.length).result = .good) :
    (new.parse (Request.fresh method major minor) (xs ++ after) xs.length).request.WellFormed := by
  obtain ⟨head, hpre⟩ := exists_head_of_good hgood
  have hstored : ∀ e ∈ (storeLines OrdMap.empty head.lines).entries, _ := storeLines_ok head.lines_ok (by
    simp [OrdMap.empty])
  rw [parse_of_head head hpre new rfl]
  exact ⟨head.uri_ok, fun e he => (hstored e he).1, fun e he => (hstored e he).2⟩

end RequestParser

namespace ReverseProxyHandler

variable {h : ReverseProxyHandler} {req : Request}

/-! ### The head -/

theorem eraseFirst_subset (text word : Bytes) : eraseFirst text word ⊆ text := by
  unfold eraseFirst
  split
  · exact List.Subset.refl _
  · intro c hc
    rcases List.mem_append.mp hc with hc | hc
    · exact List.mem_of_mem_take hc
    · exact List.mem_of_mem_drop hc

theorem target_ok (huri : ∀ c ∈ req.uri, IsUriByte c) : ∀ c ∈ h.target req.uri, IsUriByte c := by
  intro c hc
  rw [target] at hc
  split_ifs at hc
  · obtain rfl : c = ch '/' := List.mem_singleton.mp hc
    decide
  · exact huri c (eraseFirst_subset _ _ hc)

/-- The headers that the loop does not drop. -/
def kept (headers : OrdMap Bytes Bytes) : OrdMap Bytes Bytes :=
  headers.filter fun key => decide (key ≠ bytes "Host" ∧ key ≠ bytes "Connection")

/-- The header lines of the forwarded request. -/
def forwardedLines (h : ReverseProxyHandler) (req : Request) : List HeaderLine :=
  .field (bytes "Host") h.proxyDest :: .field (bytes "Connection") (bytes "close") ::
    (kept req.headers).entries.map fun e => .field e.1 e.2

theorem linesOk_fields {afterLine : Bool} {lines : List HeaderLine}
    (h : ∀ l ∈ lines, l.Ok ∧ ¬ l.IsContinuation) : LinesOk afterLine lines := by
  induction lines generalizing afterLine with
  | nil => trivial
  | cons l lines ih =>
      obtain ⟨hl, hcont⟩ := h l (by simp)
      exact ⟨hl, fun hc => absurd hc hcont, ih fun l' hl' => h l' (by simp [hl'])⟩

theorem mem_kept {headers : OrdMap Bytes Bytes} {e : Bytes × Bytes} (he : e ∈ (kept headers).entries) :
    e ∈ headers.entries := (List.mem_filter.mp he).1

/-- The header lines that are always there. -/
def ownLines (h : ReverseProxyHandler) : List HeaderLine :=
  [.field (bytes "Host") h.proxyDest, .field (bytes "Connection") (bytes "close")]

theorem ok_of_mem_ownLines (hdest : ∀ c ∈ h.proxyDest, IsValueByte c) {l : HeaderLine} (hl : l ∈ h.ownLines) :
    l.Ok ∧ ¬ l.IsContinuation := by
  rcases List.mem_cons.mp hl with rfl | hl
  · exact ⟨⟨by decide, by decide +kernel, hdest⟩, id⟩
  · obtain rfl := List.mem_singleton.mp hl
    exact ⟨⟨by decide, by decide +kernel, by decide +kernel⟩, id⟩

theorem ownLines_ok (hdest : ∀ c ∈ h.proxyDest, IsValueByte c) : LinesOk false h.ownLines :=
  linesOk_fields fun _ hl => ok_of_mem_ownLines hdest hl

theorem forwardedLines_eq (h : ReverseProxyHandler) (req : Request) :
    h.forwardedLines req = h.ownLines ++ (kept req.headers).entries.map fun e => .field e.1 e.2 := rfl

theorem forwardedLines_ok (hreq : req.WellFormed) (hdest : ∀ c ∈ h.proxyDest, IsValueByte c)
    (hkeys : ∀ e ∈ req.headers.entries, e.1 ≠ []) : LinesOk false (h.forwardedLines req) := by
  apply linesOk_fields
  intro l hl
  rw [forwardedLines_eq] at hl
  rcases List.mem_append.mp hl with hl | hl
  · exact ok_of_mem_ownLines hdest hl
  · obtain ⟨e, he, rfl⟩ := List.mem_map.mp hl
    have he := mem_kept he
    exact ⟨⟨hkeys e he, hreq.keys_ok e he, hreq.values_ok e he⟩, id⟩

/-- The request line that the proxy writes. -/
def forwardedLine (h : ReverseProxyHandler) (req : Request) (hreq : req.WellFormed) : RequestHead where
  method := requestType req.method
  uri := h.target req.uri
  major := bytes "1"
  minor := bytes "1"
  lines := []
  method_ne := by cases req.method <;> decide
  method_ok := by cases req.method <;> decide +kernel
  uri_ok := target_ok hreq.uri_ok
  major_ne := by decide
  major_ok := by decide +kernel
  minor_ne := by decide
  minor_ok := by decide +kernel
  lines_ok := trivial

/-- What the proxy writes, as a head. -/
def forwardedHead (h : ReverseProxyHandler) (req : Request) (hreq : req.WellFormed)
    (hlines : LinesOk false (h.forwardedLines req)) : RequestHead :=
  { h.forwardedLine req hreq with lines := h.forwardedLines req, lines_ok := hlines }

theorem flatMap_headerText {entries : List (Bytes × Bytes)} (hvalues : ∀ e ∈ entries, ∀ c ∈ e.2, IsValueByte c) :
    entries.flatMap headerText =
      ((entries.filter fun e => decide (e.1 ≠ bytes "Host" ∧ e.1 ≠ bytes "Connection")).map
        fun e => HeaderLine.field e.1 e.2).flatMap HeaderLine.render := by
  induction entries with
  | nil => rfl
  | cons e entries ih =>
      have hcr : cr ∉ e.2 := fun hmem => absurd (hvalues e (by simp) cr hmem) (by decide)
      have htail := ih fun e' he' => hvalues e' (by simp [he'])
      rw [List.flatMap_cons, List.filter_cons, htail, headerText]
      by_cases hdrop : e.1 ≠ bytes "Host" ∧ e.1 ≠ bytes "Connection"
      · have hblank : bytes ": " = [ch ':', sp] := rfl
        rw [if_pos hdrop, if_pos (by simpa using hdrop), List.map_cons, List.flatMap_cons, HeaderLine.render,
          replaceAll_of_notMem hcr, hblank]
        simp
      · rw [if_neg hdrop, if_neg (by simpa using hdrop)]
        rfl

/-- The text that is sent, up to the header lines. -/
def sentLine (h : ReverseProxyHandler) (req : Request) : Bytes :=
  requestType req.method ++ sp :: (h.target req.uri ++ sp :: (bytes "HTTP/1.1" ++ crlf))

theorem httpRequest_eq (hreq : req.WellFormed) :
    h.httpRequest req = h.sentLine req ++ renderLines (h.forwardedLines req) := by
  have hone : bytes " HTTP/1.1\r\n" = sp :: (bytes "HTTP/1.1" ++ crlf) := rfl
  have hhost : bytes "Host: " = bytes "Host" ++ [ch ':', sp] := rfl
  have hconnection : bytes "\r\nConnection: close\r\n" =
      crlf ++ (bytes "Connection" ++ ch ':' :: sp :: (bytes "close" ++ crlf)) := rfl
  have hsp : bytes " " = [sp] := rfl
  rw [httpRequest, requestFor, flatMap_headerText hreq.values_ok, hone, hhost, hconnection, hsp]
  simp [sentLine, renderLines, forwardedLines, kept, OrdMap.filter, HeaderLine.render]

theorem render_forwardedHead (hreq : req.WellFormed) (hlines : LinesOk false (h.forwardedLines req)) :
    (h.forwardedHead req hreq hlines).render = h.httpRequest req := by
  have hversion : bytes "HTTP/1.1" = bytes "HTTP/" ++ (bytes "1" ++ ch '.' :: bytes "1") := rfl
  rw [httpRequest_eq hreq, sentLine, hversion]
  simp [RequestHead.render, RequestHead.renderVersion, forwardedHead, forwardedLine]

/-! ### What the upstream parser makes of it -/

theorem storeLines_cons (headers : OrdMap Bytes Bytes) (l : HeaderLine) (lines : List HeaderLine) :
    storeLines headers (l :: lines) = storeLines (headers.insert l.key l.value) lines := rfl

/-- The two headers of the proxy, looked up. -/
theorem find?_ownHeaders (headers : OrdMap Bytes Bytes) (dest name : Bytes) :
    ((headers.insert (bytes "Host") dest).insert (bytes "Connection") (bytes "close")).find? name =
      if name = bytes "Connection" then some (bytes "close")
      else if name = bytes "Host" then some dest else headers.find? name := by
  rw [OrdMap.find?_insert, OrdMap.find?_insert]
  simp only [eq_comm]

/-- The stored headers, looked up. -/
theorem find?_forwarded (headers : OrdMap Bytes Bytes) (dest name : Bytes) :
    (storeLines OrdMap.empty (.field (bytes "Host") dest :: .field (bytes "Connection") (bytes "close") ::
        (kept headers).entries.map fun e => .field e.1 e.2)).find? name =
      if name = bytes "Connection" then some (bytes "close")
      else if name = bytes "Host" then some dest else headers.find? name := by
  have hstore : ∀ m : OrdMap Bytes Bytes, storeLines OrdMap.empty (m.entries.map fun e => .field e.1 e.2) = m := by
    intro m
    rw [storeLines, List.foldl_map]
    exact OrdMap.foldl_insert_entries m
  have hlast : lastValue name ((kept headers).entries.map fun e => .field e.1 e.2) = (kept headers).find? name := by
    have hfind := find?_storeLines OrdMap.empty ((kept headers).entries.map fun e => .field e.1 e.2) name
    rw [hstore, OrdMap.find?_empty, Option.or_none] at hfind
    exact hfind.symm
  rw [storeLines_cons, storeLines_cons, find?_storeLines, hlast, HeaderLine.key, HeaderLine.key, HeaderLine.value,
    HeaderLine.value, find?_ownHeaders, OrdMap.find?_empty, kept, OrdMap.find?_filter]
  by_cases hconnection : name = bytes "Connection"
  · rw [if_pos hconnection, if_pos hconnection, decide_eq_false fun h => h.2 hconnection]
    rfl
  · rw [if_neg hconnection, if_neg hconnection]
    by_cases hhost : name = bytes "Host"
    · rw [if_pos hhost, if_pos hhost, decide_eq_false fun h => h.1 hhost]
      rfl
    · rw [if_neg hhost, if_neg hhost, decide_eq_true ⟨hhost, hconnection⟩]
      exact Option.or_none

/-- A name in small letters. -/
def lower (name : Bytes) : Bytes := name.map fun c => if ch 'A' ≤ c ∧ c ≤ ch 'Z' then c + 32 else c

/-- The headers of a request with one `Host` and one `Connection` in place of all of theirs, however spelt. -/
def replacedHeaders (headers : OrdMap Bytes Bytes) (dest : Bytes) : OrdMap Bytes Bytes :=
  ((headers.filter fun key => decide (lower key ≠ bytes "host" ∧ lower key ≠ bytes "connection")).insert
    (bytes "Host") dest).insert (bytes "Connection") (bytes "close")

/-- A new parser accepts all of what is sent, as a request with the same method, the computed target, and the
headers that should be sent. -/
def Faithful (h : ReverseProxyHandler) (req : Request) : Prop :=
  ∀ (method : MethodType) (major minor : Int32) (after : Bytes),
    let text := h.httpRequest req
    let out := RequestParser.new.parse (Request.fresh method major minor) (text ++ after) text.length
    out.result = .good ∧ out.pos = text.length ∧ out.request.method = req.method ∧
      out.request.uri = h.target req.uri ∧ out.request.headers = replacedHeaders req.headers h.proxyDest

theorem find?_replacedHeaders (headers : OrdMap Bytes Bytes) (dest name : Bytes) :
    (replacedHeaders headers dest).find? name =
      if name = bytes "Connection" then some (bytes "close")
      else if name = bytes "Host" then some dest
      else if lower name = bytes "host" ∨ lower name = bytes "connection" then none else headers.find? name := by
  rw [replacedHeaders, find?_ownHeaders, OrdMap.find?_filter]
  by_cases hlower : lower name = bytes "host" ∨ lower name = bytes "connection"
  · have hkept : ¬ (lower name ≠ bytes "host" ∧ lower name ≠ bytes "connection") := by
      rintro ⟨hhost, hconnection⟩
      exact hlower.elim hhost hconnection
    rw [if_pos hlower, decide_eq_false hkept]
    rfl
  · rw [if_neg hlower, decide_eq_true (not_or.mp hlower)]
    rfl

/-- `Host` and `Connection` are spelt so wherever they are stored. -/
def PlainNames (headers : OrdMap Bytes Bytes) : Prop :=
  ∀ e ∈ headers.entries, (lower e.1 = bytes "host" → e.1 = bytes "Host") ∧
    (lower e.1 = bytes "connection" → e.1 = bytes "Connection")

/-- The headers are those that should be sent if there is no other spelling of the two names. -/
theorem forwarded_eq_replaced_iff (headers : OrdMap Bytes Bytes) (dest : Bytes) :
    storeLines OrdMap.empty (.field (bytes "Host") dest :: .field (bytes "Connection") (bytes "close") ::
        (kept headers).entries.map fun e => .field e.1 e.2) = replacedHeaders headers dest ↔ PlainNames headers := by
  constructor
  · intro heq
    rintro ⟨name, value⟩ he
    have hfound : headers.find? name = some value := OrdMap.find?_iff_mem.mpr he
    have hname := congrArg (OrdMap.find? · name) heq
    simp only [find?_forwarded, find?_replacedHeaders, hfound] at hname
    have hplain : lower name = bytes "host" ∨ lower name = bytes "connection" →
        name = bytes "Connection" ∨ name = bytes "Host" := by
      intro hlower
      by_contra hnot
      obtain ⟨hconnection, hhost⟩ := not_or.mp hnot
      rw [if_neg hconnection, if_neg hhost, if_neg hconnection, if_neg hhost, if_pos hlower] at hname
      cases hname
    constructor
    · intro hlower
      refine (hplain (Or.inl hlower)).resolve_left ?_
      rintro rfl
      exact absurd hlower (show lower (bytes "Connection") ≠ bytes "host" by decide)
    · intro hlower
      refine (hplain (Or.inr hlower)).resolve_right ?_
      rintro rfl
      exact absurd hlower (show lower (bytes "Host") ≠ bytes "connection" by decide)
  · intro hplain
    refine OrdMap.ext_find? fun name => ?_
    rw [find?_forwarded, find?_replacedHeaders]
    split_ifs with hconnection hhost hlower
    · rfl
    · rfl
    · rw [OrdMap.find?_eq_none]
      rintro e he rfl
      rcases hlower with hlower | hlower
      · exact hhost ((hplain e he).1 hlower)
      · exact hconnection ((hplain e he).2 hlower)
    · rfl

theorem methodOf_httpRequest (h : ReverseProxyHandler) (req : Request) (after : Bytes) :
    RequestParser.methodOf (h.httpRequest req ++ after) = some req.method := by
  have hlong : 3 ≤ (requestType req.method).length := by cases req.method <;> decide
  have hmethod : RequestParser.methodOf (requestType req.method) = some req.method := by
    cases req.method <;> decide
  have htake : (h.httpRequest req ++ after).take 3 = (requestType req.method).take 3 := by
    unfold httpRequest requestFor
    simp only [List.append_assoc]
    exact List.take_append_of_le_length hlong
  rw [RequestParser.methodOf, htake]
  exact hmethod

/-- What is sent is accepted, with the headers stored one after the other, if the lines are well formed. -/
theorem parse_httpRequest (hreq : req.WellFormed) (hlines : LinesOk false (h.forwardedLines req))
    (method : MethodType) (major minor : Int32) (after : Bytes) :
    let text := h.httpRequest req
    let out := RequestParser.new.parse (Request.fresh method major minor) (text ++ after) text.length
    out.result = .good ∧ out.pos = text.length ∧ out.request.method = req.method ∧
      out.request.uri = h.target req.uri ∧
      out.request.headers = storeLines OrdMap.empty (h.forwardedLines req) := by
  intro text out
  have hrender := render_forwardedHead (h := h) hreq hlines
  have hout : out = _ := RequestParser.parse_of_head (h.forwardedHead req hreq hlines)
    (by rw [hrender]) RequestParser.new rfl (Request.fresh method major minor) after
  have hmethod : RequestParser.methodOf (text ++ after) = some req.method := methodOf_httpRequest h req after
  rw [hout]
  refine ⟨rfl, by rw [hrender], ?_, rfl, rfl⟩
  simp only [RequestHead.store, RequestParser.parseMethod, hmethod, Option.getD_some]

/-! ### Where it is rejected -/

/-- An entry under the empty name is the first one. -/
theorem entries_of_emptyName {m : OrdMap Bytes Bytes} {e : Bytes × Bytes} (he : e ∈ m.entries) (hempty : e.1 = []) :
    ∃ rest, m.entries = e :: rest := by
  obtain ⟨before, rest, hentries⟩ := List.append_of_mem he
  cases before with
  | nil => exact ⟨rest, hentries⟩
  | cons b before =>
      have hsorted := m.sorted
      rw [hentries] at hsorted
      have hlt : b.1 < e.1 := (List.pairwise_append.mp hsorted).2.2 b (by simp) e (by simp)
      rw [hempty] at hlt
      exact absurd hlt (List.not_lt_nil b.1)

/-- The line of a header under the empty name starts with a colon. -/
theorem httpRequest_emptyName (hreq : req.WellFormed) {e : Bytes × Bytes} (he : e ∈ req.headers.entries)
    (hempty : e.1 = []) :
    ∃ rest, h.httpRequest req =
      h.sentLine req ++ (h.ownLines.flatMap HeaderLine.render ++ ch ':' :: rest) := by
  have hkept : e ∈ (kept req.headers).entries := by
    refine List.mem_filter.mpr ⟨he, ?_⟩
    rw [hempty]
    decide
  obtain ⟨rest, hrest⟩ := entries_of_emptyName hkept hempty
  refine ⟨sp :: (e.2 ++ crlf) ++ renderLines (rest.map fun e => .field e.1 e.2), ?_⟩
  rw [httpRequest_eq hreq, forwardedLines, hrest]
  simp [renderLines, ownLines, HeaderLine.render, hempty]

theorem advance_sentLine (hreq : req.WellFormed) (start : Request) :
    RequestParser.machine.advance (⟨.methodStart, [], []⟩, start) (h.sentLine req) =
      some (⟨.headerLineStart, [], []⟩,
        { start with uri := start.uri ++ h.target req.uri, httpVersionMajor := 1, httpVersionMinor := 1 }) :=
  RequestParser.advance_requestLine (h.forwardedLine req hreq)

/-- No header line starts with a colon. -/
theorem httpRequest_rejected (hreq : req.WellFormed) (hdest : ∀ c ∈ h.proxyDest, IsValueByte c)
    {e : Bytes × Bytes} (he : e ∈ req.headers.entries) (hempty : e.1 = []) (method : MethodType)
    (major minor : Int32) (after : Bytes) :
    (RequestParser.new.parse (Request.fresh method major minor) (h.httpRequest req ++ after)
      (h.httpRequest req).length).result = .bad := by
  obtain ⟨rest, htext⟩ := httpRequest_emptyName (h := h) hreq he hempty
  have hcolon : ∀ t : Request, RequestParser.machine.step (⟨.headerLineStart, [], []⟩, t) (ch ':') =
      (.reject, (⟨.headerLineStart, [], []⟩, t)) := by
    intro t
    simp +decide [RequestParser.machine, RequestParser.consume, ResultType.verdict]
  have hnew : RequestParser.new = ⟨.methodStart, [], []⟩ := rfl
  rw [RequestParser.parse_eq_run, List.take_left, RequestParser.ofVerdict_eq_bad, hnew, htext, Recognizer.run_append (advance_sentLine hreq _),
    Recognizer.run_append (RequestParser.advance_lines (ownLines_ok hdest) (by simp)),
    Recognizer.run_cons_stop (hcolon _) (by decide)]

theorem faithful_iff (hreq : req.WellFormed) :
    h.Faithful req ↔ (∀ c ∈ h.proxyDest, ¬ IsControl c) ∧ (∀ e ∈ req.headers.entries, e.1 ≠ []) ∧
      PlainNames req.headers := by
  constructor
  · intro hfaithful
    have hparse := hfaithful .getReq 0 0 []
    have hdest : ∀ c ∈ h.proxyDest, IsValueByte c := by
      have hwell := RequestParser.wellFormed_of_good hparse.1
      have hfound : (replacedHeaders req.headers h.proxyDest).find? (bytes "Host") = some h.proxyDest := by
        rw [find?_replacedHeaders, if_neg (by decide), if_pos rfl]
      rw [← hparse.2.2.2.2] at hfound
      exact hwell.values_ok _ (OrdMap.mem_of_find? hfound)
    have hkeys : ∀ e ∈ req.headers.entries, e.1 ≠ [] := by
      intro e he hempty
      have hbad := httpRequest_rejected hreq hdest he hempty .getReq 0 0 []
      have hgood := hparse.1
      rw [hbad] at hgood
      cases hgood
    refine ⟨hdest, hkeys, (forwarded_eq_replaced_iff req.headers h.proxyDest).mp ?_⟩
    have hstored := parse_httpRequest hreq (forwardedLines_ok hreq hdest hkeys) .getReq 0 0 []
    exact hstored.2.2.2.2.symm.trans hparse.2.2.2.2
  · rintro ⟨hdest, hkeys, hplain⟩ method major minor after
    obtain ⟨hgood, hpos, hmethod, huri, hheaders⟩ :=
      parse_httpRequest hreq (forwardedLines_ok hreq hdest hkeys) method major minor after
    exact ⟨hgood, hpos, hmethod, huri,
      hheaders.trans ((forwarded_eq_replaced_iff req.headers h.proxyDest).mpr hplain)⟩

/-- **When the forwarded request is faithful**: for an accepted request, when the name of the proxied server has no
control bytes, no header is stored under the empty name, and none under another spelling of `Host` or
`Connection`. -/
theorem httpRequest_faithful_iff (h : ReverseProxyHandler) (method : MethodType) (major minor : Int32)
    (xs after : Bytes)
    (hgood : (RequestParser.new.parse (Request.fresh method major minor) (xs ++ after) xs.length).result = .good) :
    let req := (RequestParser.new.parse (Request.fresh method major minor) (xs ++ after) xs.length).request
    h.Faithful req ↔ (∀ c ∈ h.proxyDest, ¬ IsControl c) ∧ (∀ e ∈ req.headers.entries, e.1 ≠ []) ∧
      PlainNames req.headers :=
  faithful_iff (RequestParser.wellFormed_of_good hgood)

theorem httpRequest_faithful_hostRequest :
    let xs := bytes "GET / HTTP/1.1\r\nHost: a\r\n\r\n"
    let req := (RequestParser.new.parse (Request.fresh .getReq 0 0) (xs ++ []) xs.length).request
    (⟨bytes "/p", bytes "up", 80⟩ : ReverseProxyHandler).Faithful req ↔
      (∀ c ∈ bytes "up", ¬ IsControl c) ∧ (∀ e ∈ req.headers.entries, e.1 ≠ []) ∧ PlainNames req.headers :=
  httpRequest_faithful_iff ⟨bytes "/p", bytes "up", 80⟩ .getReq 0 0 (bytes "GET / HTTP/1.1\r\nHost: a\r\n\r\n") []
    (by decide +kernel)

/-- A client that writes `host` in small letters has its own host sent along. -/
theorem smallHost_not_faithful :
    let xs := bytes "GET / HTTP/1.1\r\nhost: a\r\n\r\n"
    let out := RequestParser.new.parse (Request.fresh .getReq 0 0) (xs ++ []) xs.length
    out.result = .good ∧ RequestParser.methodOf xs = some .getReq ∧
      ¬ (⟨bytes "/p", bytes "up", 80⟩ : ReverseProxyHandler).Faithful out.request := by
  refine ⟨by decide +kernel, by decide, fun hfaithful => ?_⟩
  obtain ⟨-, -, hplain⟩ := (faithful_iff (RequestParser.wellFormed_of_good (by decide +kernel))).mp hfaithful
  have hhost := (hplain (bytes "host", bytes "a") (by decide +kernel)).1
  revert hhost
  decide

end ReverseProxyHandler

end WebServer
