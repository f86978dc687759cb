import WebServer.Http.Decode

/-!
# The method of a request

The method is read twice: the state machine passes over a token of any length, and `parse_method` compares the first
three bytes of the input with the first letters of the nine names. The two agree on the names, and on the tokens that
start with no three letters of a name; any other token is taken for the method whose letters it starts with
(`parse_method_iff`).
-/

namespace WebServer

/-- The name of a method in a request line. -/
def MethodType.httpName : MethodType → Bytes
  | .getReq => bytes "GET"
  | .headReq => bytes "HEAD"
  | .postReq => bytes "POST"
  | .putReq => bytes "PUT"
  | .deleteReq => bytes "DELETE"
  | .connectReq => bytes "CONNECT"
  | .optionsReq => bytes "OPTIONS"
  | .traceReq => bytes "TRACE"
  | .patchReq => bytes "PATCH"

namespace RequestParser

variable {e : MethodType} {xs : Bytes}

/-- `parse_method` looks for the first three letters of a name. -/
theorem methodOf_eq_some_iff : methodOf xs = some e ↔ cString (xs.take 3) = e.httpName.take 3 := by
  unfold methodOf
  constructor
  · intro h
    obtain ⟨p, hfind, rfl⟩ := Option.map_eq_some_iff.mp h
    have hletters : ∀ p ∈ methodPrefixes, p.1 = p.2.httpName.take 3 := by decide
    rw [← hletters p (List.mem_of_find?_eq_some hfind)]
    simpa using List.find?_some hfind
  · intro h
    rw [h]
    cases e <;> decide

/-- In front of a space, it finds them at the start of the token. -/
theorem methodOf_token (token rest : Bytes) :
    methodOf (token ++ sp :: rest) = some e ↔ e.httpName.take 3 <+: token := by
  have hlength : (e.httpName.take 3).length = 3 := by cases e <;> decide
  have hnul : 0 ∉ e.httpName.take 3 := by cases e <;> decide
  have hsp : sp ∉ e.httpName.take 3 := by cases e <;> decide
  rw [methodOf_eq_some_iff]
  constructor
  · intro h
    have hpre : cString ((token ++ sp :: rest).take 3) <+: token ++ sp :: rest :=
      (List.takeWhile_prefix _).trans (List.take_prefix 3 _)
    rw [h] at hpre
    exact isPrefix_of_notMem hpre hsp
  · intro h
    have htake : e.httpName.take 3 = (token ++ sp :: rest).take 3 := by
      have hpre := List.prefix_iff_eq_take.mp (h.trans (List.prefix_append token (sp :: rest)))
      rwa [hlength] at hpre
    rw [← htake, cString_of_notMem hnul]

/-- **When the method is the one the client has written**: when its token is a name, or starts with the first three
letters of none. -/
theorem parse_method_iff (method : MethodType) (major minor : Int32) (xs after : Bytes)
    (hgood : (new.parse (Request.fresh method major minor) (xs ++ after) xs.length).result = .good) :
    ∃ head : RequestHead, head.render <+: xs ∧
      (new.parse (Request.fresh method major minor) (xs ++ after) xs.length).request.method =
        (methodOf (xs ++ after)).getD method ∧
      ((∀ e, methodOf (xs ++ after) = some e ↔ head.method = e.httpName) ↔
        ∀ e : MethodType, e.httpName.take 3 <+: head.method → head.method = e.httpName) := by
  obtain ⟨head, hpre⟩ := exists_head_of_good hgood
  refine ⟨head, hpre, by rw [parse_of_head head hpre new rfl]; rfl, ?_⟩
  obtain ⟨rest, rfl⟩ := hpre
  have hletters : ∀ e, methodOf (head.render ++ rest ++ after) = some e ↔ e.httpName.take 3 <+: head.method := by
    intro e
    rw [RequestHead.render, List.append_assoc, List.append_assoc, List.cons_append, methodOf_token]
  constructor
  · intro hwritten e hstarts
    exact (hwritten e).mp ((hletters e).mpr hstarts)
  · intro hnames e
    rw [hletters]
    constructor
    · exact hnames e
    · intro hname
      rw [hname]
      exact List.take_prefix 3 _

theorem parse_method_getRequest :
    let xs := bytes "GET / HTTP/1.0\r\n\r\n"
    ∃ head : RequestHead, head.render <+: xs ∧
      (new.parse (Request.fresh .putReq 0 0) (xs ++ []) xs.length).request.method =
        (methodOf (xs ++ [])).getD .putReq ∧
      ((∀ e, methodOf (xs ++ []) = some e ↔ head.method = e.httpName) ↔
        ∀ e : MethodType, e.httpName.take 3 <+: head.method → head.method = e.httpName) :=
  parse_method_iff .putReq 0 0 (bytes "GET / HTTP/1.0\r\n\r\n") [] (by decide +kernel)

/-- A request with an unknown method. -/
def gettHead : RequestHead := .root (bytes "GETT") (bytes "1") (bytes "0") [] (by decide +kernel) trivial

/-- It is taken for a `GET`. -/
theorem gettHead_taken :
    (new.parse (Request.fresh .putReq 0 0) gettHead.render gettHead.render.length).result = .good ∧
      methodOf gettHead.render = some .getReq ∧ gettHead.method ≠ MethodType.getReq.httpName := by
  decide +kernel

end RequestParser

end WebServer
