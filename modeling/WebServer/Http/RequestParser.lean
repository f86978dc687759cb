import WebServer.Bytes
import WebServer.Lib.Recognizer

/-!
# The request parser

`request` and `request_parser`: a state machine that `consume`s one byte at a time, and `parse`, which
stores the body and the method of the request and then feeds the machine.
-/

namespace WebServer

/-- `request::method_type`. -/
inductive MethodType
  | getReq | headReq | postReq | putReq | deleteReq | connectReq | optionsReq | traceReq | patchReq
  deriving DecidableEq, Repr

/-- `request`. -/
structure Request where
  method : MethodType
  uri : Bytes
  headers : Lib.OrdMap Bytes Bytes
  body : Bytes
  httpVersionMajor : Int32
  httpVersionMinor : Int32
  deriving DecidableEq

namespace Request

/-- The constructor of `request`, for any content of the fields it leaves uninitialised. -/
def fresh (method : MethodType) (major minor : Int32) : Request :=
  ⟨method, [], Lib.OrdMap.empty, [], major, minor⟩

end Request

/-- `request_parser::result_type`. -/
inductive ResultType
  | good | bad | indeterminate
  deriving DecidableEq, Repr

/-- `request_parser::state`. -/
inductive State
  | methodStart | method | uri
  | httpVersionH | httpVersionT1 | httpVersionT2 | httpVersionP | httpVersionSlash
  | httpVersionMajorStart | httpVersionMajor | httpVersionMinorStart | httpVersionMinor
  | expectingNewline1
  | headerLineStart | headerLws | headerName | spaceBeforeHeaderValue | headerValue
  | expectingNewline2 | expectingNewline3
  deriving DecidableEq, Repr

structure RequestParser where
  state : State
  tempKey : Bytes
  tempValue : Bytes
  deriving DecidableEq

/-- What `parse` returns, with the parser and the request it leaves; `pos` is the returned iterator, as an
offset from the `begin` it was given. -/
structure ParseOutcome where
  result : ResultType
  pos : Nat
  parser : RequestParser
  request : Request
  deriving DecidableEq

namespace RequestParser

/-- The constructor. -/
def new : RequestParser := ⟨.methodStart, [], []⟩

def reset (p : RequestParser) : RequestParser := { p with state := .methodStart }

def isChar (c : Int) : Bool := decide (0 ≤ c) && decide (c ≤ 127)

def isCtl (c : Int) : Bool := (decide (0 ≤ c) && decide (c ≤ 31)) || decide (c = 127)

/-- The case labels of `is_tspecial`. -/
def tspecials : Bytes := bytes "()<>@,;:\\\"/[]?={} \t"

def isTspecial (c : Int) : Bool := tspecials.any fun t => charToInt t == c

def isDigit (c : Int) : Bool := decide (charToInt (ch '0') ≤ c) && decide (c ≤ charToInt (ch '9'))

/-- The C strings `parse_method` compares the first three bytes of the input with, in its order. -/
def methodPrefixes : List (Bytes × MethodType) :=
  [(bytes "GET", .getReq), (bytes "HEA", .headReq), (bytes "POS", .postReq), (bytes "PUT", .putReq),
    (bytes "DEL", .deleteReq), (bytes "CON", .connectReq), (bytes "OPT", .optionsReq),
    (bytes "TRA", .traceReq), (bytes "PAT", .patchReq)]

/-- The enumerator `parse_method` assigns, if it assigns one. -/
def methodOf (input : Bytes) : Option MethodType :=
  (methodPrefixes.find? fun e => cString (input.take 3) == e.1).map Prod.snd

/-- An unknown method leaves `method_` as it was. -/
def parseMethod (req : Request) (input : Bytes) : Request :=
  { req with method := (methodOf input).getD req.method }

/-- `version * 10 + input - '0'`, in `int` (the overflow, undefined in C++, wraps). -/
def addDigit (version : Int32) (input : UInt8) : Int32 :=
  version * 10 + Int32.ofInt (charToInt input) - Int32.ofInt (charToInt (ch '0'))

/-- The test that keeps a byte out of a method or a header name. -/
def isNotToken (input : UInt8) : Bool :=
  !isChar (charToInt input) || isCtl (charToInt input) || isTspecial (charToInt input)

/-- The states that wait for one byte. -/
def expect (p : RequestParser) (req : Request) (input wanted : UInt8) (next : State) :
    ResultType × RequestParser × Request :=
  if input = wanted then (.indeterminate, { p with state := next }, req) else (.bad, p, req)

def consume (p : RequestParser) (req : Request) (input : UInt8) : ResultType × RequestParser × Request :=
  match p.state with
  | .methodStart =>
    if isNotToken input then (.bad, p, req) else (.indeterminate, { p with state := .method }, req)
  | .method =>
    if input = sp then (.indeterminate, { p with state := .uri }, req)
    else if isNotToken input then (.bad, p, req)
    else (.indeterminate, p, req)
  | .uri =>
    if input = sp then (.indeterminate, { p with state := .httpVersionH }, req)
    else if isCtl (charToInt input) then (.bad, p, req)
    else (.indeterminate, p, { req with uri := req.uri ++ [input] })
  | .httpVersionH => expect p req input (ch 'H') .httpVersionT1
  | .httpVersionT1 => expect p req input (ch 'T') .httpVersionT2
  | .httpVersionT2 => expect p req input (ch 'T') .httpVersionP
  | .httpVersionP => expect p req input (ch 'P') .httpVersionSlash
  | .httpVersionSlash =>
    if input = ch '/' then
      (.indeterminate, { p with state := .httpVersionMajorStart },
        { req with httpVersionMajor := 0, httpVersionMinor := 0 })
    else (.bad, p, req)
  | .httpVersionMajorStart =>
    if isDigit (charToInt input) then
      (.indeterminate, { p with state := .httpVersionMajor },
        { req with httpVersionMajor := addDigit req.httpVersionMajor input })
    else (.bad, p, req)
  | .httpVersionMajor =>
    if input = ch '.' then (.indeterminate, { p with state := .httpVersionMinorStart }, req)
    else if isDigit (charToInt input) then
      (.indeterminate, p, { req with httpVersionMajor := addDigit req.httpVersionMajor input })
    else (.bad, p, req)
  | .httpVersionMinorStart =>
    if isDigit (charToInt input) then
      (.indeterminate, { p with state := .httpVersionMinor },
        { req with httpVersionMinor := addDigit req.httpVersionMinor input })
    else (.bad, p, req)
  | .httpVersionMinor =>
    if input = cr then (.indeterminate, { p with state := .expectingNewline1 }, req)
    else if isDigit (charToInt input) then
      (.indeterminate, p, { req with httpVersionMinor := addDigit req.httpVersionMinor input })
    else (.bad, p, req)
  | .expectingNewline1 =>
    if input = lf then (.indeterminate, ⟨.headerLineStart, [], []⟩, req) else (.bad, p, req)
  | .headerLineStart =>
    if input = cr then
      if p.tempKey ≠ [] then
        (.indeterminate, ⟨.expectingNewline3, [], []⟩,
          { req with headers := req.headers.insert p.tempKey p.tempValue })
      else (.indeterminate, { p with state := .expectingNewline3 }, req)
    else if !req.headers.isEmpty && (input == sp || input == ht) then
      (.indeterminate, { p with state := .headerLws }, req)
    else if isNotToken input then (.bad, p, req)
    else (.indeterminate, { p with tempKey := p.tempKey ++ [input], state := .headerName }, req)
  | .headerLws =>
    if input = cr then (.indeterminate, { p with state := .expectingNewline2 }, req)
    else if input = sp ∨ input = ht then (.indeterminate, p, req)
    else if isCtl (charToInt input) then (.bad, p, req)
    else (.indeterminate, { p with state := .headerValue, tempValue := p.tempValue ++ [input] }, req)
  | .headerName =>
    if input = ch ':' then (.indeterminate, { p with state := .spaceBeforeHeaderValue }, req)
    else if isNotToken input then (.bad, p, req)
    else (.indeterminate, { p with tempKey := p.tempKey ++ [input] }, req)
  | .spaceBeforeHeaderValue => expect p req input sp .headerValue
  | .headerValue =>
    if input = cr then (.indeterminate, { p with state := .expectingNewline2 }, req)
    else if isCtl (charToInt input) then (.bad, p, req)
    else (.indeterminate, { p with tempValue := p.tempValue ++ [input] }, req)
  | .expectingNewline2 =>
    if input = lf then
      (.indeterminate, ⟨.headerLineStart, [], []⟩,
        { req with headers := req.headers.insert p.tempKey p.tempValue })
    else (.bad, p, req)
  | .expectingNewline3 => if input = lf then (.good, p, req) else (.bad, p, req)

/-- The loop of `parse` over the bytes from `begin` to `end`. -/
def parseLoop (p : RequestParser) (req : Request) (pos : Nat) : Bytes → ParseOutcome
  | [] => ⟨.indeterminate, pos, p, req⟩
  | input :: rest =>
    let (result, p', req') := consume p req input
    if result = .good ∨ result = .bad then ⟨result, pos + 1, p', req'⟩
    else parseLoop p' req' (pos + 1) rest

/-- `parse(req, begin, end)`: `mem` is the memory from `begin` on and `len` is `end - begin`. The body is
the C string at `begin`, which `end` does not bound. -/
def parse (p : RequestParser) (req : Request) (mem : Bytes) (len : Nat) : ParseOutcome :=
  parseLoop p (parseMethod { req with body := cString mem } mem) 0 (mem.take len)

end RequestParser

end WebServer
