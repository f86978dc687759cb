import WebServer.Http.Grammar

/-!
# What the parser accepts

`parse` against the grammar: the state machine is a recogniser whose residual in each state is the `tail` of
the grammar (`machine_residual`), so it accepts, rejects and waits as the grammar says.
-/

namespace WebServer

open Lib

namespace RequestParser

/-! ### The character classes -/

theorem isChar_iff (c : UInt8) : isChar (charToInt c) = true ↔ c < 128 := by
  have := c.toNat_lt
  simp only [isChar, charToInt, Bool.and_eq_true, UInt8.lt_iff_toNat_lt]
  split_ifs with h <;> simp <;> omega

theorem isCtl_iff (c : UInt8) : isCtl (charToInt c) = true ↔ IsControl c := by
  have := c.toNat_lt
  simp only [isCtl, charToInt, IsControl, Bool.or_eq_true, Bool.and_eq_true, UInt8.le_iff_toNat_le,
    ← UInt8.toNat_inj]
  split_ifs with h <;> simp <;> omega

theorem isTspecial_iff (c : UInt8) : isTspecial (charToInt c) = true ↔ c ∈ tspecials := by
  simp only [isTspecial, List.any_eq_true, beq_iff_eq]
  constructor
  · rintro ⟨t, ht, h⟩
    rwa [← charToInt_injective h]
  · exact fun h => ⟨c, h, rfl⟩

theorem isDigit_iff (c : UInt8) : isDigit (charToInt c) = true ↔ IsDigitByte c := by
  have := c.toNat_lt
  have h0 : (ch '0').toNat = 48 := by decide
  have h9 : (ch '9').toNat = 57 := by decide
  simp only [isDigit, IsDigitByte, Bool.and_eq_true, decide_eq_true_eq, UInt8.le_iff_toNat_le, h0, h9,
    charToInt]
  split_ifs <;> omega

theorem isNotToken_iff (c : UInt8) : isNotToken c = true ↔ ¬ IsTokenByte c := by
  rw [isNotToken, Bool.or_eq_true, Bool.or_eq_true, Bool.not_eq_true', ← Bool.not_eq_true, isChar_iff,
    isCtl_iff, isTspecial_iff, IsTokenByte]
  tauto

/-! The byte that ends a run of a class is not of the class. -/

@[simp] theorem not_isTokenByte_sp : ¬ IsTokenByte sp := by decide
@[simp] theorem not_isTokenByte_cr : ¬ IsTokenByte cr := by decide
@[simp] theorem not_isTokenByte_colon : ¬ IsTokenByte (ch ':') := by decide
@[simp] theorem not_isUriByte_sp : ¬ IsUriByte sp := by decide
@[simp] theorem not_isDigitByte_dot : ¬ IsDigitByte (ch '.') := by decide
@[simp] theorem not_isDigitByte_cr : ¬ IsDigitByte cr := by decide
@[simp] theorem not_isValueByte_cr : ¬ IsValueByte cr := by decide
@[simp] theorem not_isBlank_cr : ¬ IsBlank cr := by decide
@[simp] theorem isControl_cr : IsControl cr := by decide
@[simp] theorem isControl_ht : IsControl ht := by decide
@[simp] theorem cr_ne_sp : cr ≠ sp := by decide

theorem not_isTokenByte_of_isBlank {c : UInt8} (h : IsBlank c) : ¬ IsTokenByte c := by
  rcases h with rfl | rfl <;> decide

end RequestParser

/-! ### The recogniser -/

def ResultType.verdict : ResultType → Verdict
  | .good => .accept
  | .bad => .reject
  | .indeterminate => .more

def ResultType.ofVerdict : Verdict → ResultType
  | .accept => .good
  | .reject => .bad
  | .more => .indeterminate

@[simp] theorem ResultType.ofVerdict_verdict (r : ResultType) : ofVerdict r.verdict = r := by
  cases r <;> rfl

namespace RequestParser

/-- The state machine on its parser and request. -/
def machine : Recognizer (RequestParser × Request) UInt8 where
  step s input := let o := consume s.1 s.2 input; (o.1.verdict, o.2)

/-- What is still to come for a parser and the request it fills. -/
def residual (s : RequestParser × Request) : Set Bytes := tail s.1.state (!s.2.headers.isEmpty)

/-- What one byte does to the words still to come. -/
def TakesDerivative (s : RequestParser × Request) (c : UInt8) (w : Bytes) :
    ResultType × RequestParser × Request → Prop
  | (.good, _) => c :: w ∈ residual s ↔ w = []
  | (.bad, _) => c :: w ∉ residual s
  | (.indeterminate, s') => c :: w ∈ residual s ↔ w ∈ residual s'

theorem expect_takesDerivative {p : RequestParser} {req : Request} {wanted : UInt8} {next : State}
    (htail : tail p.state (!req.headers.isEmpty) = Lang.lit wanted (tail next (!req.headers.isEmpty)))
    (c : UInt8) (w : Bytes) : TakesDerivative (p, req) c w (expect p req c wanted next) := by
  rw [expect]
  split_ifs with h <;> simp [TakesDerivative, residual, htail, h]

theorem consume_takesDerivative (p : RequestParser) (req : Request) (c : UInt8) (w : Bytes) :
    TakesDerivative (p, req) c w (consume p req c) := by
  obtain ⟨state, key, value⟩ := p
  cases state
  case methodStart =>
    simp only [consume, isNotToken_iff]
    split_ifs with h <;> simp_all [TakesDerivative, residual, tail]
  case method =>
    simp only [consume, isNotToken_iff]
    split_ifs with h h <;> simp_all [TakesDerivative, residual, tail]
  case uri =>
    simp only [consume, isCtl_iff]
    split_ifs with h h <;> simp_all [TakesDerivative, residual, tail, uriTail, IsUriByte]
  case httpVersionH => exact expect_takesDerivative rfl c w
  case httpVersionT1 => exact expect_takesDerivative rfl c w
  case httpVersionT2 => exact expect_takesDerivative rfl c w
  case httpVersionP => exact expect_takesDerivative rfl c w
  case httpVersionSlash =>
    simp only [consume]
    split_ifs with h <;> simp_all [TakesDerivative, residual, tail, slashTail]
  case httpVersionMajorStart =>
    simp only [consume, isDigit_iff]
    split_ifs with h <;> simp_all [TakesDerivative, residual, tail, majorStartTail, majorTail]
  case httpVersionMajor =>
    simp only [consume, isDigit_iff]
    split_ifs with h h <;> simp_all [TakesDerivative, residual, tail, majorTail]
  case httpVersionMinorStart =>
    simp only [consume, isDigit_iff]
    split_ifs with h <;> simp_all [TakesDerivative, residual, tail, minorStartTail, minorTail]
  case httpVersionMinor =>
    simp only [consume, isDigit_iff]
    split_ifs with h h <;> simp_all [TakesDerivative, residual, tail, minorTail]
  case expectingNewline1 =>
    simp only [consume]
    split_ifs with h <;> simp_all [TakesDerivative, residual, tail]
  case headerLineStart =>
    simp only [consume, isNotToken_iff]
    -- a blank starts a continuation once there are headers; before that it is rejected as no token
    by_cases hblank : IsBlank c
    · have htoken := not_isTokenByte_of_isBlank hblank
      have hcr : c ≠ cr := fun h => not_isBlank_cr (h ▸ hblank)
      have htest : (c == sp || c == ht) = true := by simpa [IsBlank] using hblank
      split_ifs <;> simp_all [TakesDerivative, residual, tail]
    · have htest : (c == sp || c == ht) = false := by simpa [IsBlank] using hblank
      split_ifs <;> simp_all [TakesDerivative, residual, tail]
  case headerLws =>
    simp only [consume, isCtl_iff]
    have hdef : IsBlank c ↔ c = sp ∨ c = ht := Iff.rfl
    split_ifs with hcr hblank hctl
    · simp_all [TakesDerivative, residual, tail]
    · have hvalue : ¬ (IsValueByte c ∧ c ≠ sp) := by rcases hblank with rfl | rfl <;> decide
      simp_all [TakesDerivative, residual, tail]
    · simp_all [TakesDerivative, residual, tail, IsValueByte]
    · simp_all [TakesDerivative, residual, tail, IsValueByte]
  case headerName =>
    simp only [consume, isNotToken_iff]
    split_ifs with h h <;> simp_all [TakesDerivative, residual, tail, nameTail]
  case spaceBeforeHeaderValue => exact expect_takesDerivative rfl c w
  case headerValue =>
    simp only [consume, isCtl_iff]
    split_ifs with h h <;> simp_all [TakesDerivative, residual, tail, valueTail, IsValueByte]
  case expectingNewline2 =>
    simp only [consume]
    split_ifs with h <;> simp_all [TakesDerivative, residual, tail]
  case expectingNewline3 =>
    simp only [consume]
    split_ifs with h <;> simp_all [TakesDerivative, residual, tail]

theorem nil_notMem_residual (s : RequestParser × Request) : [] ∉ residual s := by
  obtain ⟨⟨state, key, value⟩, req⟩ := s
  cases state <;>
    simp [residual, tail, uriTail, httpTail, slashTail, majorStartTail, majorTail, minorStartTail, minorTail,
      lineEndTail, blankTail, nameTail, valueTail]

theorem residual_nonempty (s : RequestParser × Request) : (residual s).Nonempty := by
  obtain ⟨⟨state, key, value⟩, req⟩ := s
  simp only [residual]
  generalize (!req.headers.isEmpty) = b
  have hlines : ∀ b, (linesTail b).Nonempty := fun b => ⟨crlf, linesTail_nil b⟩
  have hend : ∀ b, (lineEndTail b).Nonempty := fun b => Lang.lit_nonempty (Lang.lit_nonempty (hlines b))
  have hvalue : valueTail.Nonempty := Lang.many_nonempty (hend true)
  have hdigit : IsDigitByte (ch '1') := by decide
  have hminor : (minorStartTail b).Nonempty := Lang.many1_nonempty (hend b) hdigit
  have hslash : (slashTail b).Nonempty :=
    Lang.lit_nonempty (Lang.many1_nonempty (Lang.lit_nonempty hminor) hdigit)
  have hhttp : (httpTail b).Nonempty :=
    Lang.lit_nonempty (Lang.lit_nonempty (Lang.lit_nonempty (Lang.lit_nonempty hslash)))
  have huri : (uriTail b).Nonempty := Lang.many_nonempty (Lang.lit_nonempty hhttp)
  have htoken : IsTokenByte (ch 'G') := by decide
  cases state
  case methodStart => exact Lang.many1_nonempty (Lang.lit_nonempty huri) htoken
  case method => exact Lang.many_nonempty (Lang.lit_nonempty huri)
  case uri => exact huri
  case httpVersionH => exact hhttp
  case httpVersionT1 => exact Lang.lit_nonempty (Lang.lit_nonempty (Lang.lit_nonempty hslash))
  case httpVersionT2 => exact Lang.lit_nonempty (Lang.lit_nonempty hslash)
  case httpVersionP => exact Lang.lit_nonempty hslash
  case httpVersionSlash => exact hslash
  case httpVersionMajorStart => exact Lang.many1_nonempty (Lang.lit_nonempty hminor) hdigit
  case httpVersionMajor => exact Lang.many_nonempty (Lang.lit_nonempty hminor)
  case httpVersionMinorStart => exact hminor
  case httpVersionMinor => exact Lang.many_nonempty (hend b)
  case expectingNewline1 => exact Lang.lit_nonempty (hlines b)
  case headerLineStart => exact hlines b
  case headerLws => exact Lang.many_nonempty ((hend true).mono Set.subset_union_left)
  case headerName => exact Lang.many_nonempty (Lang.lit_nonempty (Lang.lit_nonempty hvalue))
  case spaceBeforeHeaderValue => exact Lang.lit_nonempty hvalue
  case headerValue => exact hvalue
  case expectingNewline2 => exact Lang.lit_nonempty (hlines true)
  case expectingNewline3 => exact Lang.lit_nonempty (Set.singleton_nonempty _)

theorem machine_step {s s' : RequestParser × Request} {c : UInt8} {v : Verdict}
    (h : machine.step s c = (v, s')) : consume s.1 s.2 c = (ResultType.ofVerdict v, s') := by
  simp only [machine, Prod.mk.injEq] at h
  rw [← h.1, ← h.2, ResultType.ofVerdict_verdict]

/-- The grammar is the residual of the state machine. -/
theorem machine_residual : Recognizer.Residual machine residual where
  nonempty := residual_nonempty
  nil_notMem := nil_notMem_residual
  accept s c s' w h := by
    have hder := consume_takesDerivative s.1 s.2 c w
    rwa [machine_step h] at hder
  reject s c s' w h := by
    have hder := consume_takesDerivative s.1 s.2 c w
    rwa [machine_step h] at hder
  more s c s' w h := by
    have hder := consume_takesDerivative s.1 s.2 c w
    rwa [machine_step h] at hder

/-! ### The loop is a run of the recogniser -/

theorem parseLoop_eq_run (p : RequestParser) (req : Request) (pos : Nat) (xs : Bytes) :
    parseLoop p req pos xs =
      let o := machine.run (p, req) xs
      ⟨ResultType.ofVerdict o.verdict, pos + o.read, o.final.1, o.final.2⟩ := by
  induction xs generalizing p req pos with
  | nil => rfl
  | cons c rest ih =>
      rcases hconsume : consume p req c with ⟨result, p', req'⟩
      have hstep : machine.step (p, req) c = (result.verdict, (p', req')) := by
        simp only [machine, hconsume]
      rw [parseLoop, hconsume]
      cases result with
      | good => rw [Recognizer.run_cons_stop hstep (by simp [ResultType.verdict])]; rfl
      | bad => rw [Recognizer.run_cons_stop hstep (by simp [ResultType.verdict])]; rfl
      | indeterminate =>
          rw [Recognizer.run_cons_more hstep]
          simp only [reduceCtorEq, or_self, if_false, ih, ParseOutcome.mk.injEq, true_and, and_true]
          omega

end RequestParser

end WebServer
