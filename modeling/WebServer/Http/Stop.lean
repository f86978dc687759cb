import WebServer.Http.Decode

/-!
# Where the parser stops

A NUL byte is rejected in every state, so a run over a piece of memory is over by the end of the C string in
it. A line end takes the parser to the start of a header line or ends the head, so two of them in a row
always stop it; and a head that was read up to the start of a header line is rejected when it is read again
from there.
-/

namespace WebServer

open Lib

namespace RequestParser

variable {s s' : RequestParser × Request} {xs : Bytes}

/-! ### NUL -/

theorem consume_nul (p : RequestParser) (req : Request) : consume p req 0 = (.bad, p, req) := by
  obtain ⟨state, key, value⟩ := p
  cases state <;> simp +decide [consume, expect]

theorem run_nul (s : RequestParser × Request) (rest : Bytes) :
    machine.run s (0 :: rest) = ⟨.reject, 1, s⟩ := by
  refine Recognizer.run_cons_stop ?_ (by simp) rest
  simp [machine, consume_nul, ResultType.verdict]

theorem run_append_nul_ne_more (s : RequestParser × Request) (t rest : Bytes) :
    (machine.run s (t ++ 0 :: rest)).verdict ≠ .more := by
  intro h
  obtain ⟨s', ht, hrest⟩ := Recognizer.advance_append.mp (Recognizer.run_more_iff_advance.mp h)
  have hnul := Recognizer.run_of_advance hrest
  rw [run_nul] at hnul
  simp at hnul

/-- Nothing behind a NUL is looked at. -/
theorem run_append_nul (s : RequestParser × Request) (t rest : Bytes) :
    machine.run s (t ++ 0 :: rest) = machine.run s (t ++ [0]) := by
  have h := Recognizer.run_append_of_stop (run_append_nul_ne_more s t []) rest
  simpa using h

/-! ### Line ends -/

/-- A line feed the parser goes on from starts a header line. -/
theorem step_lf (h : machine.step s lf = (.more, s')) : s'.1.state = .headerLineStart := by
  have hconsume := machine_step h
  obtain ⟨⟨state, key, value⟩, req⟩ := s
  cases state
  case expectingNewline1 =>
    simp only [consume, if_true, ResultType.ofVerdict, Prod.mk.injEq, true_and] at hconsume
    rw [← hconsume]
  case expectingNewline2 =>
    simp only [consume, if_true, ResultType.ofVerdict, Prod.mk.injEq, true_and] at hconsume
    rw [← hconsume]
  all_goals simp +decide [consume, expect, ResultType.ofVerdict] at hconsume

theorem advance_crlf_state (h : machine.advance s (xs ++ crlf) = some s') :
    s'.1.state = .headerLineStart := by
  obtain ⟨s₁, -, hcrlf⟩ := Recognizer.advance_append.mp h
  obtain ⟨s₂, -, hlf⟩ := Recognizer.advance_cons.mp hcrlf
  obtain ⟨s₃, hstep, hnil⟩ := Recognizer.advance_cons.mp hlf
  obtain rfl := Option.some.inj hnil
  exact step_lf hstep

/-- Two line ends in a row stop the parser in every state. -/
theorem run_crlf_crlf_ne_more (s : RequestParser × Request) (xs : Bytes) :
    (machine.run s (xs ++ crlf ++ crlf)).verdict ≠ .more := by
  intro h
  obtain ⟨⟨⟨state, key, value⟩, req⟩, hfirst, hsecond⟩ :=
    Recognizer.advance_append.mp (Recognizer.run_more_iff_advance.mp h)
  obtain rfl : state = .headerLineStart := advance_crlf_state hfirst
  obtain ⟨⟨p, req'⟩, hcr, hlf⟩ := Recognizer.advance_cons.mp hsecond
  obtain ⟨s', hstep, -⟩ := Recognizer.advance_cons.mp hlf
  have hp : p.state = .expectingNewline3 := by
    have hconsume := machine_step hcr
    simp only [consume, if_true] at hconsume
    split_ifs at hconsume <;>
      · simp only [ResultType.ofVerdict, Prod.mk.injEq, true_and] at hconsume
        rw [← hconsume.1]
  have hconsume := machine_step hstep
  obtain ⟨state, key, value⟩ := p
  obtain rfl : state = .expectingNewline3 := hp
  simp [consume, ResultType.ofVerdict] at hconsume

/-! ### Reading a request line again -/

/-- A text the parser has read past its method starts with a method and a space. -/
theorem method_of_run_more {p : RequestParser} {req : Request} (hstate : p.state = .methodStart)
    (hheaders : req.headers.isEmpty = true) (h : (machine.run (p, req) xs).verdict = .more) (hlf : lf ∈ xs) :
    ∃ method rest, method ≠ [] ∧ (∀ c ∈ method, IsTokenByte c) ∧ xs = method ++ sp :: rest := by
  obtain ⟨w, hw, hpre, -⟩ := (machine_residual.more_iff _ _).mp h
  have hw' : w ∈ tail .methodStart false := by simpa [residual, hstate, hheaders] using hw
  obtain ⟨head, rfl⟩ := mem_tail_methodStart.mp hw'
  have hlong : head.method ++ [sp] <+: xs := by
    have hmethod : head.method ++ [sp] <+: head.render := ⟨_, by simp [RequestHead.render]; rfl⟩
    rcases List.prefix_or_prefix_of_prefix hpre hmethod with hshort | hlong
    · -- the method holds no line feed, so the text does not end within it
      have hmem := hshort.subset hlf
      have htoken : lf ∈ head.method → IsTokenByte lf := head.method_ok lf
      simp only [List.mem_append, List.mem_singleton] at hmem
      rcases hmem with hmem | hmem
      · exact absurd (htoken hmem) (by decide)
      · exact absurd hmem (by decide)
    · exact hlong
  obtain ⟨rest, hrest⟩ := hlong
  exact ⟨head.method, rest, head.method_ne, head.method_ok, by simp [← hrest]⟩

/-- The space behind a method is no header name. -/
theorem run_method_headerLineStart {key value method : Bytes} {req : Request} (hne : method ≠ [])
    (hmethod : ∀ c ∈ method, IsTokenByte c) (rest : Bytes) :
    (machine.run (⟨.headerLineStart, key, value⟩, req) (method ++ sp :: rest)).verdict = .reject := by
  obtain ⟨c, method, rfl⟩ := List.exists_cons_of_ne_nil hne
  have hc := hmethod c (by simp)
  have hblank : (c == sp || c == ht) = false := by
    simpa [IsBlank] using fun h : IsBlank c => not_isTokenByte_of_isBlank h hc
  have hstart : machine.step (⟨.headerLineStart, key, value⟩, req) c =
      (.more, (⟨.headerName, key ++ [c], value⟩, req)) :=
    machine_step_more (by simp [consume, ne_of_class hc not_isTokenByte_cr, hblank, isNotToken_eq_false hc])
  have hsp : isNotToken sp = true := by decide
  have hcolon : sp ≠ ch ':' := by decide
  have hstop : machine.step (⟨.headerName, key ++ [c] ++ method, value⟩, req) sp =
      (.reject, (⟨.headerName, key ++ [c] ++ method, value⟩, req)) := by
    simp [machine, consume, hsp, hcolon, ResultType.verdict]
  rw [List.cons_append, Recognizer.run_cons_more hstart,
    Recognizer.run_append (advance_headerName fun d hd => hmethod d (by simp [hd])),
    Recognizer.run_cons_stop hstop (by simp)]

/-- A text that ends in a line end, read by a new parser until it wants more, is rejected when it is read
again by the parser it leaves. -/
theorem run_again {p : RequestParser} {req : Request} (hstate : p.state = .methodStart)
    (hheaders : req.headers.isEmpty = true) (h : (machine.run (p, req) (xs ++ crlf)).verdict = .more)
    (req' : Request) :
    (machine.run ((machine.run (p, req) (xs ++ crlf)).final.1, req') (xs ++ crlf)).verdict = .reject := by
  have hstart := advance_crlf_state (Recognizer.run_more_iff_advance.mp h)
  obtain ⟨method, rest, hne, hmethod, heq⟩ := method_of_run_more hstate hheaders h (by simp)
  revert hstart
  generalize (machine.run (p, req) (xs ++ crlf)).final.1 = q
  obtain ⟨state, key, value⟩ := q
  rintro rfl
  rw [heq]
  exact run_method_headerLineStart hne hmethod rest

end RequestParser

end WebServer
