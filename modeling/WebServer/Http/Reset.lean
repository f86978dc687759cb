import WebServer.Http.Decode

/-!
# A parser that is used again

`reset` puts the state back, but not `temp_key` and `temp_value`. The states of the request line do not read the two, and
the transition out of it empties them (`step_withLeftover`), so whatever earlier calls have left there is without effect on
the next request (`parse_withLeftover`).
-/

namespace WebServer

open Lib

/-- A call on a parser. -/
inductive ParserCall
  | parse (req : Request) (mem : Bytes) (len : Nat)
  | reset

/-- The states from the start up to the transition that empties `temp_key` and `temp_value`. -/
def State.inRequestLine : State → Bool
  | .methodStart | .method | .uri | .httpVersionH | .httpVersionT1 | .httpVersionT2 | .httpVersionP | .httpVersionSlash
  | .httpVersionMajorStart | .httpVersionMajor | .httpVersionMinorStart | .httpVersionMinor | .expectingNewline1 => true
  | .headerLineStart | .headerLws | .headerName | .spaceBeforeHeaderValue | .headerValue | .expectingNewline2
  | .expectingNewline3 => false

namespace RequestParser

/-- The parser behind a call. -/
def call (p : RequestParser) : ParserCall → RequestParser
  | .parse req mem len => (p.parse req mem len).parser
  | .reset => p.reset

/-- What a history of calls makes of a new parser. -/
def afterCalls (history : List ParserCall) : RequestParser := history.foldl call new

/-- Another parser's `temp_key` and `temp_value`, as long as the parser does not use its own. -/
def withLeftover (key value : Bytes) (p : RequestParser) : RequestParser :=
  if p.state.inRequestLine then { p with tempKey := key, tempValue := value } else p

variable {key value : Bytes}

theorem withLeftover_new (p : RequestParser) : withLeftover p.tempKey p.tempValue new = p.reset := by
  unfold withLeftover new reset
  rw [State.inRequestLine, if_pos rfl]

theorem withLeftover_of_inRequestLine {p : RequestParser} (h : p.state.inRequestLine = true) :
    withLeftover key value p = { p with tempKey := key, tempValue := value } := if_pos h

theorem withLeftover_of_not_inRequestLine {p : RequestParser} (h : p.state.inRequestLine = false) :
    withLeftover key value p = p := if_neg (by simp [h])

/-- In the request line, `temp_key` and `temp_value` are carried along, up to the transition that empties them. -/
theorem consume_inRequestLine {p : RequestParser} (h : p.state.inRequestLine = true) (req : Request) (c : UInt8) :
    consume { p with tempKey := key, tempValue := value } req c =
      ((consume p req c).1, withLeftover key value (consume p req c).2.1, (consume p req c).2.2) := by
  obtain ⟨state, tempKey, tempValue⟩ := p
  cases state <;> first | (cases h; done) | (simp only [consume, expect]; split_ifs <;> rfl)

/-- No step leads back into the request line. -/
theorem consume_not_inRequestLine {p : RequestParser} (h : p.state.inRequestLine = false) (req : Request) (c : UInt8) :
    (consume p req c).2.1.state.inRequestLine = false := by
  obtain ⟨state, tempKey, tempValue⟩ := p
  cases state <;> first | (cases h; done) | (simp only [consume, expect]; split_ifs <;> rfl)

/-- A step takes no notice of what is left over. -/
theorem step_withLeftover (s : RequestParser × Request) (c : UInt8) :
    machine.step (withLeftover key value s.1, s.2) c =
      ((machine.step s c).1, withLeftover key value (machine.step s c).2.1, (machine.step s c).2.2) := by
  simp only [machine]
  cases hline : s.1.state.inRequestLine with
  | true => rw [withLeftover_of_inRequestLine hline, consume_inRequestLine hline]
  | false =>
      rw [withLeftover_of_not_inRequestLine hline,
        withLeftover_of_not_inRequestLine (consume_not_inRequestLine hline s.2 c)]

theorem run_withLeftover (p : RequestParser) (req : Request) (xs : Bytes) :
    machine.run (withLeftover key value p, req) xs =
      let o := machine.run (p, req) xs
      ⟨o.verdict, o.read, withLeftover key value o.final.1, o.final.2⟩ :=
  Recognizer.run_map (f := fun s => (withLeftover key value s.1, s.2)) step_withLeftover (p, req) xs

/-- Nor does a whole call. -/
theorem parse_withLeftover (p : RequestParser) (req : Request) (mem : Bytes) (len : Nat) :
    (withLeftover key value p).parse req mem len =
      { p.parse req mem len with parser := withLeftover key value (p.parse req mem len).parser } := by
  rw [parse_eq_run, parse_eq_run, run_withLeftover]

/-- **A parser that has been reset is as good as new**, whatever calls have been made on it before, and whatever they have
left in `temp_key` and `temp_value`. -/
theorem parse_afterCalls_reset (history : List ParserCall) (req : Request) (mem : Bytes) (len : Nat) :
    let used := afterCalls history
    let again := used.reset.parse req mem len
    let fresh := new.parse req mem len
    (used.reset.tempKey = used.tempKey ∧ used.reset.tempValue = used.tempValue) ∧
      again.result = fresh.result ∧ again.pos = fresh.pos ∧ again.request = fresh.request := by
  intro used again fresh
  have hagain : again = { fresh with parser := withLeftover used.tempKey used.tempValue fresh.parser } := by
    show used.reset.parse req mem len = _
    rw [← withLeftover_new, parse_withLeftover]
  rw [hagain]
  exact ⟨⟨rfl, rfl⟩, rfl, rfl, rfl⟩

/-- A request that breaks off in a header name leaves a part of the name behind. -/
example :
    (afterCalls [.parse (Request.fresh .getReq 0 0) (bytes "GET / HTTP/1.1\r\nHo(") 19]).reset.tempKey = bytes "Ho" := by
  decide

end RequestParser

end WebServer
