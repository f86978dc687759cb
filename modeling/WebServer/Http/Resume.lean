import WebServer.Http.Decode

/-!
# Parsing in pieces

The state machine leaves alone what `parse` stores in front of it, the body and the method (`step_withStored`),
so the machine itself can be interrupted anywhere. What cannot be repeated is the storing: a second call looks
for a method in the first three bytes of its own input (`parse_resume_iff`).
-/

namespace WebServer

open Lib

/-- The request with another method and another body. -/
def Request.withStored (req : Request) (method : MethodType) (body : Bytes) : Request :=
  { req with method := method, body := body }

namespace RequestParser

variable {a b : Bytes} {method : MethodType} {major minor : Int32}

theorem parseMethod_eq (req : Request) (mem body : Bytes) :
    parseMethod { req with body := body } mem = req.withStored ((methodOf mem).getD req.method) body := by
  unfold parseMethod Request.withStored
  rfl

/-- The machine leaves the method and the body to `parse`. -/
theorem step_withStored (method : MethodType) (body : Bytes) (s : RequestParser × Request) (c : UInt8) :
    machine.step (s.1, s.2.withStored method body) c =
      ((machine.step s c).1, (machine.step s c).2.1, (machine.step s c).2.2.withStored method body) := by
  obtain ⟨⟨state, key, value⟩, req⟩ := s
  cases state <;> simp only [machine, consume, expect, Request.withStored] <;> split_ifs <;> rfl

theorem run_withStored (method : MethodType) (body : Bytes) (p : RequestParser) (req : Request) (xs : Bytes) :
    machine.run (p, req.withStored method body) xs =
      let o := machine.run (p, req) xs
      ⟨o.verdict, o.read, o.final.1, o.final.2.withStored method body⟩ :=
  Recognizer.run_map (f := fun s => (s.1, s.2.withStored method body)) (step_withStored method body) (p, req) xs

/-- `parse_method` looks at three bytes. -/
theorem methodOf_append (ha : 3 ≤ a.length) (after : Bytes) : methodOf (a ++ after) = methodOf a := by
  unfold methodOf
  rw [List.take_append_of_le_length ha]

/-- `parse` is a run of the machine, with a method and a body stored. -/
theorem parse_eq_withStored (p : RequestParser) (req : Request) (ha : 3 ≤ a.length) (after : Bytes) :
    p.parse req (a ++ after) a.length =
      let o := machine.run (p, req) a
      ⟨ResultType.ofVerdict o.verdict, o.read, o.final.1,
        o.final.2.withStored ((methodOf a).getD req.method) (cString (a ++ after))⟩ := by
  rw [parse_eq_run, parseMethod_eq, methodOf_append ha, List.take_left, run_withStored]

/-- The second of two parses, and the parse of the two pieces in one, end alike but for what they store. -/
theorem parse_pieces (req : Request) (ha : 3 ≤ a.length) (hb : 3 ≤ b.length)
    (hmore : (machine.run (new, req) a).verdict = .more) (afterA afterB after : Bytes) :
    let first := new.parse req (a ++ afterA) a.length
    ∃ (result : ResultType) (pos pos' : Nat) (q : RequestParser) (r : Request),
      first.parser.parse first.request (b ++ afterB) b.length =
        ⟨result, pos, q,
          r.withStored ((methodOf b).getD ((methodOf a).getD req.method)) (cString (b ++ afterB))⟩ ∧
      new.parse req (a ++ b ++ after) (a ++ b).length =
        ⟨result, pos', q, r.withStored ((methodOf a).getD req.method) (cString (a ++ b ++ after))⟩ := by
  intro first
  have hfirst : first = _ := parse_eq_withStored new req ha afterA
  have hab : 3 ≤ (a ++ b).length := by
    rw [List.length_append]
    omega
  have hrun := Recognizer.run_append (Recognizer.run_more_iff_advance.mp hmore) b
  let o := machine.run (machine.run (new, req) a).final b
  refine ⟨ResultType.ofVerdict o.verdict, o.read, o.read + a.length, o.final.1, o.final.2, ?_, ?_⟩
  · rw [hfirst, parse_eq_withStored _ _ hb, run_withStored]
    rfl
  · rw [parse_eq_withStored new req hab, methodOf_append ha, hrun]

/-- A parse of `a`, interrupted at its end, is resumed on `b` as a parse of the two in one piece goes on: with the
same result, and with the same request but for its body. -/
def Resumes (req : Request) (a b : Bytes) : Prop :=
  ∀ afterA afterB after : Bytes,
    let first := new.parse req (a ++ afterA) a.length
    let second := first.parser.parse first.request (b ++ afterB) b.length
    let whole := new.parse req (a ++ b ++ after) (a ++ b).length
    first.result = .indeterminate →
      second.result = whole.result ∧ { second.request with body := whole.request.body } = whole.request

theorem withStored_eq_iff {req : Request} {m m' : MethodType} {body body' : Bytes} :
    { req.withStored m body with body := (req.withStored m' body').body } = req.withStored m' body' ↔ m = m' := by
  unfold Request.withStored
  rw [Request.mk.injEq]
  simp

/-- **When a parse can be resumed**: when the second piece does not start as a method does, or starts as the one
that the first piece has set. -/
theorem parse_resume_iff (ha : 3 ≤ a.length) (hb : 3 ≤ b.length) (method : MethodType) (major minor : Int32)
    (hmore : (new.parse (Request.fresh method major minor) a a.length).result = .indeterminate) :
    Resumes (Request.fresh method major minor) a b ↔
      methodOf b = none ∨ methodOf b = some ((methodOf a).getD method) := by
  have hfirst : ∀ afterA, (new.parse (Request.fresh method major minor) (a ++ afterA) a.length).result =
      .indeterminate := by
    intro afterA
    have hempty := parse_eq_withStored new (Request.fresh method major minor) ha []
    rw [List.append_nil] at hempty
    rw [hempty] at hmore
    rw [parse_eq_withStored new _ ha, ← hmore]
  have hverdict : (machine.run (new, Request.fresh method major minor) a).verdict = .more := by
    have hresult := hfirst []
    rw [parse_eq_withStored new _ ha] at hresult
    exact ofVerdict_eq_indeterminate.mp hresult
  have hstored : Resumes (Request.fresh method major minor) a b ↔
      (methodOf b).getD ((methodOf a).getD method) = (methodOf a).getD method := by
    constructor
    · intro hresumes
      obtain ⟨result, pos, pos', q, r, hsecond, hwhole⟩ := parse_pieces _ ha hb hverdict [] [] []
      have hsame := (hresumes [] [] [] (hfirst [])).2
      rw [hsecond, hwhole] at hsame
      exact withStored_eq_iff.mp hsame
    · intro hmethod afterA afterB after first second whole _
      obtain ⟨result, pos, pos', q, r, hsecond, hwhole⟩ := parse_pieces _ ha hb hverdict afterA afterB after
      have hsecond : second = _ := hsecond
      have hwhole : whole = _ := hwhole
      rw [hsecond, hwhole]
      exact ⟨rfl, withStored_eq_iff.mpr hmethod⟩
  rw [hstored]
  cases methodOf b with
  | none => simp
  | some m => simp

theorem parse_resume_getRequest :
    Resumes (Request.fresh .getReq 0 0) (bytes "GET /") (bytes "echo HTTP/1.1\r\n\r\n") ↔
      methodOf (bytes "echo HTTP/1.1\r\n\r\n") = none ∨
        methodOf (bytes "echo HTTP/1.1\r\n\r\n") = some ((methodOf (bytes "GET /")).getD .getReq) :=
  parse_resume_iff (by decide) (by decide) .getReq 0 0 (by decide)

/-- A request for `/PUT`, interrupted in front of its name. -/
theorem getPut_not_resumes :
    (new.parse (Request.fresh .getReq 0 0) (bytes "GET /") 5).result = .indeterminate ∧
      ¬ Resumes (Request.fresh .getReq 0 0) (bytes "GET /") (bytes "PUT HTTP/1.1\r\n\r\n") := by
  refine ⟨by decide, fun hresumes => ?_⟩
  have hmethod := congrArg Request.method (hresumes [] [] [] (by decide)).2
  revert hmethod
  decide

end RequestParser

end WebServer
