import WebServer.Handler.ProxyResponse
import WebServer.Http.Decode
import WebServer.Server.Environment

/-!
# The framing of local replies

A reply that is not made from the one of another server goes out with as many bytes behind its first blank line as its
`Content-Length` says (`localReply_wellFramed`). Most handlers measure the body that they send. The echo handler takes two
from the length of the text instead, which is safe for a text that the parser has accepted: it holds a method and a space.
-/

namespace WebServer

open Lib

/-- The `Content-Length` stands in a line of the head, which the first blank line ends, and is the number of the bytes
behind it. -/
def WellFramed (rep : Reply) : Prop :=
  ∃ front n, Word.find? (crlf ++ crlf) rep.toBuffers = some front ∧
    rep.headers.find? (bytes "Content-Length") = some (decimal n) ∧
    crlf ++ bytes "Content-Length: " ++ decimal n ++ crlf <:+: rep.toBuffers.take (front + crlf.length) ∧
    (rep.toBuffers.drop (front + (crlf ++ crlf).length)).length = n

/-! ### Measured bodies -/

theorem cr_notMem_decimal (n : Nat) : cr ∉ decimal n :=
  fun hmem => absurd (decimal_digits n cr hmem) (by decide)

theorem entries_withBody (code : StatusCode) (contentType body : Bytes) (n : Nat) :
    (Reply.withBody code contentType body n).headers.entries =
      [(bytes "Content-Length", decimal n), (bytes "Content-Type", contentType)] := by
  have hlt : ¬ bytes "Content-Type" < bytes "Content-Length" := by decide
  have hne : bytes "Content-Type" ≠ bytes "Content-Length" := by decide
  show OrdMap.insertEntry (bytes "Content-Type") contentType [(bytes "Content-Length", decimal n)] = _
  rw [OrdMap.insertEntry, if_neg hlt, if_neg hne]
  rfl

/-- A reply whose length is the one of its body is framed, whatever the body holds. -/
theorem wellFramed_withBody (code : StatusCode) {contentType : Bytes} (htype : cr ∉ contentType) (body : Bytes) :
    WellFramed (Reply.withBody code contentType body body.length) := by
  obtain ⟨line, hbuffer, hline⟩ := ReverseProxyHandler.exists_statusLine code
  set length := ReverseProxyHandler.headerLine (bytes "Content-Length", decimal body.length) with hlength
  set type := ReverseProxyHandler.headerLine (bytes "Content-Type", contentType) with htypeLine
  have hstream : (Reply.withBody code contentType body body.length).toBuffers =
      withEnds crlf [line, length, type] ++ (crlf ++ body) := by
    rw [ReverseProxyHandler.toBuffers_eq hbuffer, entries_withBody]
    rfl
  have hok : ∀ l ∈ [length, type], l ≠ [] ∧ cr ∉ l := by
    have hlengthName : cr ∉ bytes "Content-Length" := by decide
    have htypeName : cr ∉ bytes "Content-Type" := by decide
    have hsep : cr ≠ ch ':' ∧ cr ≠ sp := by decide
    simp [hlength, htypeLine, ReverseProxyHandler.headerLine, hlengthName, htypeName, hsep, htype, cr_notMem_decimal]
  -- the blank line begins with the end of the last header line
  have hhead : line.length + (withEnds crlf [length, type]).length + crlf.length =
      (withEnds crlf [line, length, type]).length := by
    simp [withEnds]
    omega
  refine ⟨line.length + (withEnds crlf [length, type]).length, body.length, ?_, ?_, ?_, ?_⟩
  · rw [hstream]
    exact ReverseProxyHandler.find?_blankLine hline hok body
  · rw [OrdMap.find?_iff_mem, entries_withBody]
    simp
  · rw [hhead, hstream, List.take_left]
    refine ⟨line, withEnds crlf [type], ?_⟩
    simp [withEnds, hlength, ReverseProxyHandler.headerLine, bytes]
  · rw [List.length_append, ← Nat.add_assoc, hhead, hstream, ← List.append_assoc, ← List.length_append, List.drop_left]

theorem wellFramed_stockReply (code : StatusCode) : WellFramed (Reply.stockReply code) :=
  wellFramed_withBody code (by decide) _

/-! ### The handlers -/

/-- The lengths of the echo handler do not wrap for a text of two bytes or more. -/
theorem EchoRequestHandler.handleRequest_wellFramed {req : Request} (hbody : 2 ≤ req.body.length) :
    WellFramed (EchoRequestHandler.handleRequest req) := by
  have hle : (req.body.length + (2 ^ 64 - 2)) % 2 ^ 64 ≤ req.body.length := by omega
  have htaken := wellFramed_withBody StatusCode.ok (show cr ∉ bytes "text/plain" by decide)
    (req.body.take ((req.body.length + (2 ^ 64 - 2)) % 2 ^ 64))
  rwa [List.length_take_of_le hle] at htaken

theorem StaticRequestHandler.cr_notMem_setContentType (path : Bytes) : cr ∉ setContentType path := by
  unfold setContentType
  split_ifs <;> decide

/-- The content is measured when the line ends and the markdown have been replaced. -/
theorem StaticRequestHandler.fileReply_wellFramed (parseMarkdown : Bytes → Bytes) (path content : Bytes) :
    WellFramed (fileReply parseMarkdown path content) := by
  unfold fileReply
  dsimp only
  split_ifs
  · exact wellFramed_withBody _ (by decide) _
  · exact wellFramed_withBody _ (by decide) _
  · exact wellFramed_withBody _ (cr_notMem_setContentType path) _
  · exact wellFramed_withBody _ (cr_notMem_setContentType path) _

theorem StaticRequestHandler.handleRequest_wellFramed (h : StaticRequestHandler) (files : FileSystem)
    (parseMarkdown : Bytes → Bytes) (req : Request) : WellFramed (h.handleRequest files parseMarkdown req) := by
  unfold handleRequest
  dsimp only
  split_ifs
  · cases files.read (h.filePath req.uri) with
    | none => exact wellFramed_stockReply _
    | some content => exact fileReply_wellFramed parseMarkdown _ content
  · exact wellFramed_stockReply _

section MarkdownHandler

variable {files : FileSystem} {db : Database} {parseMarkdown : Bytes → Bytes} {req : Request} {rep : Reply}

theorem MarkdownHandler.createForm_wellFramed (hreply : createForm files db parseMarkdown = .ok rep) : WellFramed rep := by
  unfold createForm at hreply
  split_ifs at hreply with hfile
  · cases hread : files.read inputFormPath with
    | none =>
        rw [hread] at hreply
        obtain rfl := Except.ok.inj hreply
        exact wellFramed_stockReply _
    | some content =>
        rw [hread] at hreply
        cases hposts : db.dbHelper with
        | none => simp [hposts] at hreply
        | some mds =>
            rw [hposts] at hreply
            obtain rfl := Except.ok.inj hreply
            exact wellFramed_withBody _ (by decide) _
  · obtain rfl := Except.ok.inj hreply
    exact wellFramed_stockReply _

theorem MarkdownHandler.viewMarkdown_wellFramed (hreply : viewMarkdown db parseMarkdown req = .ok rep) :
    WellFramed rep := by
  unfold viewMarkdown at hreply
  split_ifs at hreply
  cases hinsert : db.insertMarkdown (cleanedInput (input req.body)) with
  | none => simp [hinsert] at hreply
  | some _ =>
      rw [hinsert] at hreply
      obtain rfl := Except.ok.inj hreply
      exact wellFramed_withBody _ (by decide) _

theorem MarkdownHandler.handleRequest_wellFramed (hreply : handleRequest files db parseMarkdown req = .ok rep) :
    WellFramed rep := by
  unfold handleRequest at hreply
  split_ifs at hreply
  · exact createForm_wellFramed hreply
  · exact viewMarkdown_wellFramed hreply
  · exact createForm_wellFramed hreply

end MarkdownHandler

namespace Handler

/-- A handler that does not send the client, or its request, to another server. -/
def IsLocal : Handler → Prop
  | .redirect _ | .reverseProxy _ => False
  | _ => True

variable {env : Environment} {h : Handler} {req : Request} {st st' : Statics} {rep : Reply}

theorem handleRequest_wellFramed (hlocal : h.IsLocal) (hbody : 2 ≤ req.body.length)
    (hreply : h.handleRequest env req st = .ok (rep, st')) : WellFramed rep := by
  have hstate : ∀ {x : Reply × Statics}, (.ok x : Except Fault _) = .ok (rep, st') → WellFramed x.1 → WellFramed rep := by
    intro x hx hframed
    rwa [Except.ok.inj hx] at hframed
  cases h with
  | badRequest => exact hstate hreply (wellFramed_withBody _ (by decide) _)
  | echo => exact hstate hreply (EchoRequestHandler.handleRequest_wellFramed hbody)
  | health => exact hstate hreply (wellFramed_withBody _ (by decide) _)
  | markdown =>
      obtain ⟨rep', hmarkdown, hpair⟩ := map_eq_ok.mp hreply
      obtain rfl := congrArg Prod.fst hpair
      exact MarkdownHandler.handleRequest_wellFramed hmarkdown
  | notFound => exact hstate hreply (wellFramed_withBody _ (by decide) _)
  | redirect _ => exact hlocal.elim
  | reverseProxy _ => exact hlocal.elim
  | static h => exact hstate hreply (h.handleRequest_wellFramed _ _ _)
  | status => exact hstate hreply (wellFramed_withBody _ (by decide) _)

end Handler

/-- The reply of a local handler, or a stock reply. -/
def LocalReply (env : Environment) (req : Request) (rep : Reply) : Prop :=
  (∃ code, rep = Reply.stockReply code) ∨
    ∃ h : Handler, h.IsLocal ∧ ∃ st st', h.handleRequest env req st = .ok (rep, st')

namespace RequestParser

variable {method : MethodType} {major minor : Int32} {xs after : Bytes}

/-- The text of an accepted request holds a method and a space at least. -/
theorem two_le_length_body
    (hgood : (new.parse (Request.fresh method major minor) (xs ++ after) xs.length).result = .good) :
    2 ≤ (new.parse (Request.fresh method major minor) (xs ++ after) xs.length).request.body.length := by
  obtain ⟨head, rest, rfl⟩ := exists_head_of_good hgood
  have hzero : 0 ∉ head.method ++ [sp] := by
    intro hmem
    rcases List.mem_append.mp hmem with hmethod | hsp
    · exact (head.method_ok 0 hmethod).2.1 (.inl (by decide))
    · exact absurd (List.mem_singleton.mp hsp) (by decide)
  have htext : head.render ++ rest ++ after = (head.method ++ [sp]) ++
      (head.uri ++ sp :: (head.renderVersion ++ renderLines head.lines) ++ rest ++ after) := by
    simp [RequestHead.render]
  have hmethod : 0 < head.method.length := List.length_pos_of_ne_nil head.method_ne
  rw [parse_body, htext, cString_append hzero]
  simp only [List.length_append, List.length_singleton]
  omega

end RequestParser

/-- **Local replies are framed**: the number of the bytes behind the first blank line is the value of the
`Content-Length`. -/
theorem localReply_wellFramed (env : Environment) (method : MethodType) (major minor : Int32) (xs after : Bytes)
    (hgood : (RequestParser.new.parse (Request.fresh method major minor) (xs ++ after) xs.length).result = .good)
    (rep : Reply)
    (hreply : LocalReply env (RequestParser.new.parse (Request.fresh method major minor) (xs ++ after) xs.length).request
      rep) :
    WellFramed rep := by
  rcases hreply with ⟨code, rfl⟩ | ⟨h, hlocal, st, st', hreply⟩
  · exact wellFramed_stockReply code
  · exact Handler.handleRequest_wellFramed hlocal (RequestParser.two_le_length_body hgood) hreply

theorem localReply_wellFramed_echo :
    WellFramed (EchoRequestHandler.handleRequest
      (RequestParser.new.parse (Request.fresh .getReq 0 0) (bytes "GET / HTTP/1.0\r\n\r\n" ++ [])
        (bytes "GET / HTTP/1.0\r\n\r\n").length).request) :=
  localReply_wellFramed .isolated .getReq 0 0 (bytes "GET / HTTP/1.0\r\n\r\n") [] (by decide +kernel) _
    (.inr ⟨.echo, trivial, .initial, .initial, rfl⟩)

end WebServer
