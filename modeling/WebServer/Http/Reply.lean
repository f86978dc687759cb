import WebServer.Bytes

/-!
# Replies

`reply` and `reply::stock_reply`. A `status_code` may hold a number that is not one of its enumerators (the
proxy casts any three digits to it), so it is a number, and the enumerators are names for some of them.
-/

namespace WebServer

/-- `reply::status_code`. -/
abbrev StatusCode := Nat

namespace StatusCode

def ok : StatusCode := 200
def created : StatusCode := 201
def accepted : StatusCode := 202
def noContent : StatusCode := 204
def multipleChoices : StatusCode := 300
def movedPermanently : StatusCode := 301
def movedTemporarily : StatusCode := 302
def notModified : StatusCode := 304
def badRequest : StatusCode := 400
def unauthorized : StatusCode := 401
def forbidden : StatusCode := 403
def notFound : StatusCode := 404
def internalServerError : StatusCode := 500
def notImplemented : StatusCode := 501
def badGateway : StatusCode := 502
def serviceUnavailable : StatusCode := 503

/-- The enumerators. -/
def enumerators : List StatusCode :=
  [ok, created, accepted, noContent, multipleChoices, movedPermanently, movedTemporarily, notModified, badRequest,
    unauthorized, forbidden, notFound, internalServerError, notImplemented, badGateway, serviceUnavailable]

end StatusCode

/-- `reply`. -/
structure Reply where
  code : StatusCode
  headers : Lib.OrdMap Bytes Bytes
  body : Bytes
  deriving DecidableEq

/-- `std::to_string` of an unsigned number. -/
def decimal (n : Nat) : Bytes := (Nat.toDigits 10 n).map ch

theorem toNat_of_isDigit {c : Char} (h : c.isDigit = true) : 48 ≤ c.toNat ∧ c.toNat ≤ 57 := by
  simp only [Char.isDigit, Bool.and_eq_true, decide_eq_true_eq] at h
  exact h

theorem toNat_ch_of_isDigit {c : Char} (h : c.isDigit = true) : (ch c).toNat = c.toNat := by
  obtain ⟨-, hle⟩ := toNat_of_isDigit h
  show c.toNat % 256 = c.toNat
  exact Nat.mod_eq_of_lt (by omega)

theorem decimal_digits (n : Nat) : ∀ c ∈ decimal n, ch '0' ≤ c ∧ c ≤ ch '9' := by
  intro c hc
  obtain ⟨d, hd, rfl⟩ := List.mem_map.mp hc
  have hdigit := Nat.isDigit_of_mem_toDigits (by decide) (by decide) hd
  obtain ⟨hlow, hhigh⟩ := toNat_of_isDigit hdigit
  rw [UInt8.le_iff_toNat_le, UInt8.le_iff_toNat_le, toNat_ch_of_isDigit hdigit]
  exact ⟨hlow, hhigh⟩

theorem decimal_ne_nil (n : Nat) : decimal n ≠ [] := by simp [decimal]

/-- The number can be read back from its digits. -/
theorem foldl_decimal (n : Nat) : (decimal n).foldl (fun k c => 10 * k + (c - ch '0').toNat) 0 = n := by
  have hdigits : (Nat.toDigits 10 n).foldl (fun k c => 10 * k + (ch c - ch '0').toNat) 0 =
      (Nat.toDigits 10 n).foldl (fun k c => 10 * k + (c.toNat - '0'.toNat)) 0 := by
    apply List.foldl_ext
    intro k c hc
    have hdigit := Nat.isDigit_of_mem_toDigits (by decide) (by decide) hc
    have hlow : ch '0' ≤ ch c := (decimal_digits n (ch c) (List.mem_map_of_mem hc)).1
    rw [UInt8.toNat_sub_of_le _ _ hlow, toNat_ch_of_isDigit hdigit]
    rfl
  rw [decimal, List.foldl_map, hdigits, ← Nat.ofDigitChars_eq_foldl, Nat.ofDigitChars_ten_toDigits]

theorem decimal_injective {n m : Nat} (h : decimal n = decimal m) : n = m := by
  rw [← foldl_decimal n, h, foldl_decimal]

namespace StatusStrings

/-- `status_strings::to_buffer`. -/
def toBuffer (code : StatusCode) : Bytes :=
  if code = StatusCode.ok then bytes "HTTP/1.0 200 OK\r\n"
  else if code = StatusCode.created then bytes "HTTP/1.0 201 Created\r\n"
  else if code = StatusCode.accepted then bytes "HTTP/1.0 202 Accepted\r\n"
  else if code = StatusCode.noContent then bytes "HTTP/1.0 204 No Content\r\n"
  else if code = StatusCode.multipleChoices then bytes "HTTP/1.0 300 Multiple Choices\r\n"
  else if code = StatusCode.movedPermanently then bytes "HTTP/1.0 301 Moved Permanently\r\n"
  else if code = StatusCode.movedTemporarily then bytes "HTTP/1.0 302 Moved Temporarily\r\n"
  else if code = StatusCode.notModified then bytes "HTTP/1.0 304 Not Modified\r\n"
  else if code = StatusCode.badRequest then bytes "HTTP/1.0 400 Bad Request\r\n"
  else if code = StatusCode.unauthorized then bytes "HTTP/1.0 401 Unauthorized\r\n"
  else if code = StatusCode.forbidden then bytes "HTTP/1.0 403 Forbidden\r\n"
  else if code = StatusCode.notFound then bytes "HTTP/1.0 404 Not Found\r\n"
  else if code = StatusCode.internalServerError then bytes "HTTP/1.0 500 Internal Server Error\r\n"
  else if code = StatusCode.notImplemented then bytes "HTTP/1.0 501 Not Implemented\r\n"
  else if code = StatusCode.badGateway then bytes "HTTP/1.0 502 Bad Gateway\r\n"
  else if code = StatusCode.serviceUnavailable then bytes "HTTP/1.0 503 Service Unavailable\r\n"
  else bytes "HTTP/1.0 500 Internal Server Error\r\n"

/-- Any other number is sent as an internal error. -/
theorem toBuffer_of_notMem {code : StatusCode} (h : code ∉ StatusCode.enumerators) :
    toBuffer code = toBuffer StatusCode.internalServerError := by
  simp only [StatusCode.enumerators, List.mem_cons, List.not_mem_nil, or_false, not_or] at h
  simp only [toBuffer, h, if_false]
  rfl

end StatusStrings

namespace StockReplies

/-- The pages of `stock_replies`, but for the empty one of `ok`. -/
def page (title heading : String) : Bytes :=
  bytes ("<html><head><title>" ++ title ++ "</title></head><body><h1>" ++ heading ++ "</h1></body></html>")

/-- `stock_replies::to_string`. -/
def toText (code : StatusCode) : Bytes :=
  if code = StatusCode.ok then []
  else if code = StatusCode.created then page "Created" "201 Created"
  else if code = StatusCode.accepted then page "Accepted" "202 Accepted"
  else if code = StatusCode.noContent then page "No Content" "204 Content"
  else if code = StatusCode.multipleChoices then page "Multiple Choices" "300 Multiple Choices"
  else if code = StatusCode.movedPermanently then page "Moved Permanently" "301 Moved Permanently"
  else if code = StatusCode.movedTemporarily then page "Moved Temporarily" "302 Moved Temporarily"
  else if code = StatusCode.notModified then page "Not Modified" "304 Not Modified"
  else if code = StatusCode.badRequest then page "Bad Request" "400 Bad Request"
  else if code = StatusCode.unauthorized then page "Unauthorized" "401 Unauthorized"
  else if code = StatusCode.forbidden then page "Forbidden" "403 Forbidden"
  else if code = StatusCode.notFound then page "Not Found" "404 Not Found"
  else if code = StatusCode.notImplemented then page "Not Implemented" "501 Not Implemented"
  else if code = StatusCode.badGateway then page "Bad Gateway" "502 Bad Gateway"
  else if code = StatusCode.serviceUnavailable then page "Service Unavailable" "503 Service Unavailable"
  else page "Internal Server Error" "500 Internal Server Error"

end StockReplies

namespace Reply

/-- `to_buffers`, joined. -/
def toBuffers (rep : Reply) : Bytes :=
  StatusStrings.toBuffer rep.code ++
    rep.headers.entries.flatMap (fun header => header.1 ++ [ch ':', ch ' '] ++ header.2 ++ crlf) ++ crlf ++ rep.body

/-- A reply with a body, its length and its type, as every local handler builds it. -/
def withBody (code : StatusCode) (contentType body : Bytes) (length : Nat) : Reply where
  code := code
  headers := (Lib.OrdMap.empty.insert (bytes "Content-Length") (decimal length)).insert
    (bytes "Content-Type") contentType
  body := body

/-- `reply::stock_reply`. -/
def stockReply (code : StatusCode) : Reply :=
  let data := replaceAll (StockReplies.toText code) [lf] crlf ++ crlf
  withBody code (bytes "text/html") data data.length

end Reply

end WebServer
