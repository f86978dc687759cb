import WebServer.Handler.ProxyReply
import WebServer.Http.Version

/-!
# The framing of a proxied reply

The proxy writes a new `Content-Length` next to all of the headers of the response. These are told apart by their
spelling, so a length under another spelling stays, and so does a transfer coding (`framed_iff`): of a body with links, and
of a response without a body that says how long it would be, there are then two lengths.
-/

namespace WebServer

open Lib NginxConfigParser

namespace ReverseProxyHandler

variable {h : ReverseProxyHandler} {lib : Libraries} {exchange : Bytes → Exchange} {req : Request} {rep out : Reply}
  {head : ResponseHead} {body : Bytes}

/-- The value is a number of bytes. -/
def IsLength (value : Bytes) (n : Nat) : Prop := (value ≠ [] ∧ ∀ c ∈ value, IsDigitByte c) ∧ decimalValue value = n

instance (value : Bytes) (n : Nat) : Decidable (IsLength value n) := inferInstanceAs (Decidable (_ ∧ _))

theorem isLength_decimal (n : Nat) : IsLength (decimal n) n :=
  ⟨⟨decimal_ne_nil n, decimal_digits n⟩, foldl_decimal n⟩

/-- In any letter case, a name of the length of a message. -/
def NamesLength (name : Bytes) : Prop := lower name = lower (bytes "Content-Length")

/-- In any letter case, a name of the transfer coding of a message. -/
def NamesCoding (name : Bytes) : Prop := lower name = lower (bytes "Transfer-Encoding")

instance (name : Bytes) : Decidable (NamesLength name) := inferInstanceAs (Decidable (_ = _))
instance (name : Bytes) : Decidable (NamesCoding name) := inferInstanceAs (Decidable (_ = _))

/-- The headers of a reply announce its body, and in one way. -/
def Framed (rep : Reply) : Prop :=
  ∀ header ∈ rep.headers.entries,
    (NamesLength header.1 → IsLength header.2 rep.body.length) ∧ ¬ NamesCoding header.1

instance (rep : Reply) : Decidable (Framed rep) := inferInstanceAs (Decidable (∀ header ∈ rep.headers.entries, _))

/-- The lengths that stay: the values that are stored under other spellings. -/
def otherLengths (head : ResponseHead) : List (Bytes × Bytes) :=
  head.headers.entries.filter fun header => decide (NamesLength header.1 ∧ header.1 ≠ bytes "Content-Length")

theorem mem_otherLengths {header : Bytes × Bytes} :
    header ∈ otherLengths head ↔
      header ∈ head.headers.entries ∧ NamesLength header.1 ∧ header.1 ≠ bytes "Content-Length" := by
  rw [otherLengths, List.mem_filter, decide_eq_true_iff]

theorem rewrite_of_not_follow {data : Bytes} (hexchange : exchange (h.httpRequest req) = .response data)
    (hparse : parseResponse data = .ok rep) (hfollow : h.follow lib exchange req req.uri = none) {depth : Nat}
    (hout : h.handleRequest lib exchange depth req = .ok out) : h.rewrite lib (located rep) = .ok out := by
  rcases depth with _ | depth
  · cases hout
  rw [handleRequest_of_response depth hexchange, bind_eq_of_ok hparse] at hout
  obtain ⟨⟨rep', next⟩, hredirect, hout⟩ := bind_eq_ok.mp hout
  obtain ⟨rfl, -⟩ := redirect_eq_ok hredirect
  rcases next with _ | next
  · exact hout
  · have hsome : h.follow lib exchange req req.uri = some next :=
      follow_eq_some_iff.mpr ⟨data, rep, hexchange, hparse, redirect_follows_iff.mp ⟨_, hredirect, rfl⟩⟩
    rw [hfollow] at hsome
    cases hsome

/-- A header of the reply is the length that was put in, the location, or one of the response. -/
theorem mem_sentHeaders {sent : Bytes} {e : Bytes × Bytes}
    (he : e ∈ ((located (head.reply body)).headers.insert (bytes "Content-Length") (decimal sent.length)).entries) :
    e = (bytes "Content-Length", decimal sent.length) ∨ e.1 ≠ bytes "Content-Length" ∧
      (e.1 = bytes "Location" ∨ e ∈ head.headers.entries) := by
  have hfind := OrdMap.find?_iff_mem.mpr he
  rw [OrdMap.find?_insert] at hfind
  split_ifs at hfind with hname
  · exact .inl (Prod.ext hname.symm (Option.some.inj hfind).symm)
  · refine .inr ⟨Ne.symm hname, ?_⟩
    by_cases hlocation : e.1 = bytes "Location"
    · exact .inl hlocation
    · rw [find?_located hlocation] at hfind
      exact .inr (OrdMap.mem_of_find? hfind)

/-- What is stored under a name that is not the one of the new length is still there. -/
theorem mem_sentHeaders_of_mem (hrewrite : h.rewrite lib (located (head.reply body)) = .ok out) {header : Bytes × Bytes}
    (hheader : header ∈ head.headers.entries) (hname : header.1 ≠ bytes "Content-Length") :
    header ∈ out.headers.entries :=
  OrdMap.mem_of_find? (find?_sentHeaders hrewrite hname (OrdMap.find?_iff_mem.mpr hheader))

/-- Every name of the response is stored, with one of its values. -/
theorem exists_stored {header : Bytes × Bytes} (hheader : header ∈ head.headerList) :
    ∃ value, (header.1, value) ∈ head.headers.entries := by
  obtain ⟨value, -, hfind⟩ := OrdMap.exists_find?_foldl_insert OrdMap.empty ⟨header.2, hheader⟩
  rw [← headers_eq] at hfind
  exact ⟨value, OrdMap.mem_of_find? hfind⟩

theorem mem_headerList_of_stored {header : Bytes × Bytes} (hheader : header ∈ head.headers.entries) :
    header ∈ head.headerList := by
  rw [headers_eq] at hheader
  exact OrdMap.mem_of_mem_foldl_insert hheader

/-- The length of a body that is not compressed: the path goes in once for each link. -/
theorem length_linkedBody {z : Gzip.Zlib} {path : Bytes} (hplain : ¬ Compressed rep) (hpath : doubleQuote ∉ path) :
    (linkedBody z path rep).length = rep.body.length + countLinks rep.body * (trimmedPath path).length := by
  rw [linkedBody, if_neg hplain, length_linkedText hpath]

/-- **When a proxied reply is framed in one way**: when the response has no transfer coding, and every length that stays
under another spelling is the number of bytes of the body with the location path in its links. These are the bytes of the
body and those of the path for each link, unless it is compressed. -/
theorem framed_iff (h : ReverseProxyHandler) (lib : Libraries) (exchange : Bytes → Exchange) (req : Request)
    (head : ResponseHead) (body : Bytes) (hput : otherLengths head ≠ [] → PutsPath lib h.locationPath)
    (hexchange : exchange (h.httpRequest req) = .response (head.response body))
    (hfollow : h.follow lib exchange req req.uri = none) (depth : Nat) (out : Reply)
    (hout : h.handleRequest lib exchange depth req = .ok out) :
    (Framed out ↔ (∀ header ∈ head.headerList, ¬ NamesCoding header.1) ∧
        ∀ header ∈ otherLengths head,
          IsLength header.2 (linkedBody lib.zlib h.locationPath (head.reply body)).length) ∧
      (¬ Compressed (head.reply body) → doubleQuote ∉ h.locationPath →
        (linkedBody lib.zlib h.locationPath (head.reply body)).length =
          body.length + countLinks body * (trimmedPath h.locationPath).length) := by
  refine ⟨?_, fun hplain hpath => length_linkedBody hplain hpath⟩
  have hrewrite := rewrite_of_not_follow hexchange (head.parseResponse_response body) hfollow hout
  obtain ⟨sent, hsent, rfl⟩ := rewrite_eq_ok.mp hrewrite
  rw [sentBody_located] at hsent
  have hlinked : ∀ header ∈ otherLengths head, sent = linkedBody lib.zlib h.locationPath (head.reply body) :=
    fun header hheader => sentBody_eq (hput (List.ne_nil_of_mem hheader)) hsent
  constructor
  · intro hframed
    constructor
    · intro header hheader hnames
      have hname : header.1 ≠ bytes "Content-Length" := by
        intro he
        rw [he] at hnames
        revert hnames
        decide
      obtain ⟨value, hstored⟩ := exists_stored hheader
      exact (hframed _ (mem_sentHeaders_of_mem hrewrite hstored hname)).2 hnames
    · intro header hheader
      obtain ⟨hstored, hnames, hname⟩ := mem_otherLengths.mp hheader
      rw [← hlinked header hheader]
      exact (hframed _ (mem_sentHeaders_of_mem hrewrite hstored hname)).1 hnames
  · rintro ⟨hcoding, hlength⟩ header hheader
    have hown : ¬ NamesCoding (bytes "Content-Length") := by decide
    rcases mem_sentHeaders hheader with rfl | ⟨hname, hlocation | hstored⟩
    · exact ⟨fun _ => isLength_decimal sent.length, hown⟩
    · rw [hlocation]
      exact ⟨fun hnames => absurd hnames (by decide), by decide⟩
    · refine ⟨fun hnames => ?_, hcoding header (mem_headerList_of_stored hstored)⟩
      have hother := mem_otherLengths.mpr ⟨hstored, hnames, hname⟩
      show IsLength header.2 sent.length
      rw [hlinked header hother]
      exact hlength header hother

/-- An upstream with a single page. -/
def onePage (response : Bytes) (_ : Bytes) : Exchange := .response response

/-- A page with a link, and with its length in small letters. -/
def linkHead : ResponseHead :=
  .ofCode 200 (bytes "OK") [(bytes "content-length", bytes " 8")] okCode_inRange okReason_oneLine (by decide +kernel)

def linkBody : Bytes := bytes "src=\"/a\""

def linkReply : Reply :=
  ⟨200, (OrdMap.empty.insert (bytes "Content-Length") (bytes "10")).insert (bytes "content-length") (bytes "8"),
    bytes "src=\"/p/a\""⟩

theorem follow_link :
    upProxy.follow greedyLibraries (onePage (linkHead.response linkBody)) (pageRequest (bytes "/p/a"))
      (pageRequest (bytes "/p/a")).uri = none := by
  decide +kernel

theorem handleRequest_link :
    upProxy.handleRequest greedyLibraries (onePage (linkHead.response linkBody)) 1 (pageRequest (bytes "/p/a")) =
      .ok linkReply := by
  decide +kernel

theorem framed_link :
    (Framed linkReply ↔ (∀ header ∈ linkHead.headerList, ¬ NamesCoding header.1) ∧
        ∀ header ∈ otherLengths linkHead,
          IsLength header.2 (linkedBody greedyLibraries.zlib upProxy.locationPath (linkHead.reply linkBody)).length) ∧
      (¬ Compressed (linkHead.reply linkBody) → doubleQuote ∉ upProxy.locationPath →
        (linkedBody greedyLibraries.zlib upProxy.locationPath (linkHead.reply linkBody)).length =
          linkBody.length + countLinks linkBody * (trimmedPath upProxy.locationPath).length) :=
  framed_iff upProxy greedyLibraries (onePage (linkHead.response linkBody)) (pageRequest (bytes "/p/a")) linkHead
    linkBody (fun _ => putsPath_upProxy) rfl follow_link 1 linkReply handleRequest_link

/-- A page in one chunk. -/
def chunkedHead : ResponseHead :=
  .ofCode 200 (bytes "OK") [(bytes "Transfer-Encoding", bytes " chunked")] okCode_inRange okReason_oneLine
    (by decide +kernel)

def chunkedBody : Bytes := bytes "1\r\na\r\n0\r\n\r\n"

def chunkedReply : Reply :=
  ⟨200, (OrdMap.empty.insert (bytes "Content-Length") (bytes "11")).insert (bytes "Transfer-Encoding") (bytes "chunked"),
    chunkedBody⟩

/-- The length of a page, without the page. -/
def lengthHead : ResponseHead :=
  .ofCode 200 (bytes "OK") [(bytes "content-length", bytes " 100")] okCode_inRange okReason_oneLine (by decide +kernel)

def headRequest : Request := { pageRequest (bytes "/p/a") with method := .headReq }

def lengthReply : Reply :=
  ⟨200, (OrdMap.empty.insert (bytes "Content-Length") (bytes "0")).insert (bytes "content-length") (bytes "100"), []⟩

/-- A length in small letters is not the one of the page with its links rewritten, nor of what `HEAD` brings of a page, and
a page in chunks stays so next to a length. -/
theorem link_not_framed :
    (∃ out, upProxy.handleRequest greedyLibraries (onePage (linkHead.response linkBody)) 1
        (pageRequest (bytes "/p/a")) = .ok out ∧ ¬ Framed out) ∧
      (∃ out, upProxy.handleRequest greedyLibraries (onePage (lengthHead.response [])) 1 headRequest = .ok out ∧
        ¬ Framed out) ∧
      ∃ out, upProxy.handleRequest greedyLibraries (onePage (chunkedHead.response chunkedBody)) 1
        (pageRequest (bytes "/p/a")) = .ok out ∧ ¬ Framed out :=
  ⟨⟨linkReply, handleRequest_link, by decide +kernel⟩, ⟨lengthReply, by decide +kernel, by decide +kernel⟩,
    chunkedReply, by decide +kernel, by decide +kernel⟩

end ReverseProxyHandler

end WebServer
