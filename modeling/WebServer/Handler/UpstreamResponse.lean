import WebServer.Handler.ProxyResponse
import WebServer.Http.Grammar

/-!
# Responses of the proxied server

A response is a status line, header lines and a body (`ResponseHead.response`). The proxy reads all of it but for the
code, for which it goes on looking behind the code: it takes the first three digits of the last run of three or more
digits in the whole line (`parseResponse_response`).
-/

namespace WebServer

open Lib

namespace ReverseProxyHandler

/-! ### Runs of digits -/

/-- The runs of digits in a text, with the empty ones between two other bytes. -/
def digitRuns (text : Bytes) : List Bytes := text.splitOnP fun c => !isDigit c

/-- The number that the digits at the start of a run make. -/
def runCode (run : Bytes) : StatusCode := ((stoi (run.take 3)).getD 0).toNat

/-- The code behind a run. -/
def codeBehind (code : StatusCode) (run : Bytes) : StatusCode := if 3 ≤ run.length then runCode run else code

theorem digitRuns_append (text rest : Bytes) {c : UInt8} (hc : isDigit c = false) :
    digitRuns (text ++ c :: rest) = digitRuns text ++ digitRuns rest :=
  List.splitOnP_append_cons text rest (by simp [hc])

theorem digitRuns_digits {run : Bytes} (h : ∀ c ∈ run, isDigit c = true) : digitRuns run = [run] :=
  List.splitOnP_eq_singleton (by simpa using h)

/-- What the loop has stored within a run. -/
theorem codeBehind_concat (code : StatusCode) (run : Bytes) (c : UInt8) :
    codeBehind code (run ++ [c]) =
      if run.length + 1 = 3 then ((stoi (run ++ [c])).getD 0).toNat else codeBehind code run := by
  unfold codeBehind runCode
  rw [List.length_append, List.length_singleton]
  rcases lt_trichotomy (run.length + 1) 3 with hshort | heq | hlong
  · rw [if_neg (by omega), if_neg (by omega), if_neg (by omega)]
  · have hlength : (run ++ [c]).length = 3 := by rw [List.length_append, List.length_singleton, heq]
    rw [if_pos (by omega), if_pos heq, ← hlength, List.take_length]
  · have htake : (run ++ [c]).take 3 = run.take 3 := List.take_append_of_le_length (by omega)
    rw [if_pos (by omega), if_neg (by omega), if_pos (by omega), htake]

/-- The loop from within a run on. -/
theorem scanCode_run (before : Bytes) {run : Bytes} (hrun : ∀ c ∈ run, isDigit c = true) (code : StatusCode)
    (text : Bytes) :
    scanCode (before ++ run) run.length (codeBehind code run) text =
      (digitRuns (run ++ text)).foldl codeBehind code := by
  induction text generalizing before run code with
  | nil => rw [scanCode, List.append_nil, digitRuns_digits hrun, List.foldl_cons, List.foldl_nil]
  | cons c text ih =>
      cases hc : isDigit c with
      | true =>
          have hlonger : ∀ d ∈ run ++ [c], isDigit d = true := by
            intro d hd
            rcases List.mem_append.mp hd with hd | hd
            · exact hrun d hd
            · rwa [List.mem_singleton.mp hd]
          have hstep := ih before hlonger code
          have hlength : (run ++ [c]).length = run.length + 1 := by simp
          rw [List.append_cons run c text, ← hstep, scanCode, hc, if_pos rfl, codeBehind_concat, hlength,
            List.append_assoc]
          by_cases hthree : run.length + 1 = 3
          · have hdrop : (before ++ (run ++ [c])).drop ((before ++ (run ++ [c])).length - 3) = run ++ [c] := by
              rw [List.length_append, hlength, hthree, Nat.add_sub_cancel, List.drop_left]
            simp only [hthree, if_true, hdrop]
          · simp only [hthree, if_false]
      | false =>
          have hempty : ∀ d ∈ ([] : Bytes), isDigit d = true := by simp
          have hstep := ih (before ++ run ++ [c]) hempty (codeBehind code run)
          rw [digitRuns_append run text hc, digitRuns_digits hrun, List.foldl_append, List.foldl_cons, List.foldl_nil]
          rw [List.nil_append, List.append_nil] at hstep
          rw [← hstep, scanCode, hc, if_neg (by simp)]
          rfl

theorem scanCode_eq (text : Bytes) : scanCode [] 0 0 text = (digitRuns text).foldl codeBehind 0 := by
  have hempty : ∀ d ∈ ([] : Bytes), isDigit d = true := by simp
  exact scanCode_run [] hempty 0 text

/-- The last run of three or more digits. -/
def lastLongRun (text : Bytes) : Option Bytes := ((digitRuns text).filter fun run => decide (3 ≤ run.length)).getLast?

theorem foldl_codeBehind (code : StatusCode) (text : Bytes) :
    (digitRuns text).foldl codeBehind code = ((lastLongRun text).map runCode).getD code := by
  unfold lastLongRun
  induction digitRuns text using List.reverseRecOn with
  | nil => rfl
  | append_singleton runs run ih =>
      rw [List.foldl_append, List.foldl_cons, List.foldl_nil, ih, List.filter_append]
      by_cases hrun : 3 ≤ run.length
      · simp [codeBehind, hrun]
      · simp [codeBehind, hrun]

/-! ### Codes of three digits -/

theorem isDigit_decimal (n : Nat) : ∀ c ∈ decimal n, isDigit c = true := by
  intro c hc
  obtain ⟨hlow, hhigh⟩ := decimal_digits n c hc
  simp [isDigit, hlow, hhigh]

theorem decimal_code {code : StatusCode} (hcode : 100 ≤ code ∧ code ≤ 599) :
    (decimal code).length = 3 ∧ runCode (decimal code) = code := by
  have hall : ∀ code < 600, 100 ≤ code → (decimal code).length = 3 ∧ runCode (decimal code) = code := by
    decide +kernel
  exact hall code (Nat.lt_succ_of_le hcode.2) hcode.1

/-! ### Responses -/

/-- A status line, header lines and what the proxied server may write in them. -/
structure ResponseHead where
  major : UInt8
  minor : UInt8
  code : StatusCode
  reason : Bytes
  fields : List (Bytes × Bytes)
  major_ok : IsDigitByte major
  minor_ok : IsDigitByte minor
  code_ok : 100 ≤ code ∧ code ≤ 599
  reason_ok : cr ∉ reason ∧ lf ∉ reason
  fields_ok : ∀ field ∈ fields, field.1 ≠ [] ∧ (∀ c ∈ field.1, IsTokenByte c) ∧ cr ∉ field.2 ∧ lf ∉ field.2

namespace ResponseHead

def statusLine (head : ResponseHead) : Bytes :=
  bytes "HTTP/" ++ head.major :: ch '.' :: head.minor :: sp :: (decimal head.code ++ sp :: head.reason)

/-- The response with a body. -/
def response (head : ResponseHead) (body : Bytes) : Bytes :=
  withEnds crlf (head.statusLine :: head.fields.map fieldLine) ++ (crlf ++ body)

/-- The headers as the proxy stores them. -/
def headers (head : ResponseHead) : OrdMap Bytes Bytes := storeFields OrdMap.empty head.fields

/-- The code as the proxy reads it. -/
def shownCode (head : ResponseHead) : StatusCode := ((lastLongRun head.reason).map runCode).getD head.code

variable {head : ResponseHead}

theorem isDigit_of_isDigitByte {c : UInt8} (h : IsDigitByte c) : isDigit c = true := by
  simp [isDigit, h.1, h.2]

theorem ne_cr_of_isDigitByte {c : UInt8} (h : IsDigitByte c) : cr ≠ c := by
  rintro rfl
  revert h
  decide

theorem cr_notMem_statusLine (head : ResponseHead) : cr ∉ head.statusLine := by
  have hdecimal : cr ∉ decimal head.code := by
    intro hmem
    have hdigit := decimal_digits head.code cr hmem
    revert hdigit
    decide
  have hversion : cr ∉ bytes "HTTP/" := by decide
  have hdot : cr ≠ ch '.' := by decide
  have hsp : cr ≠ sp := by decide
  simp [statusLine, hversion, hdot, hsp, hdecimal, head.reason_ok.1, ne_cr_of_isDigitByte head.major_ok,
    ne_cr_of_isDigitByte head.minor_ok]

theorem digitRuns_statusLine (head : ResponseHead) :
    (digitRuns head.statusLine).foldl codeBehind 0 = head.shownCode := by
  obtain ⟨hlength, hcode⟩ := decimal_code head.code_ok
  have hmajor : ∀ c ∈ [head.major], isDigit c = true := by simp [isDigit_of_isDigitByte head.major_ok]
  have hminor : ∀ c ∈ [head.minor], isDigit c = true := by simp [isDigit_of_isDigitByte head.minor_ok]
  have hruns : digitRuns head.statusLine =
      digitRuns (bytes "HTTP") ++ ([[head.major]] ++ ([[head.minor]] ++ ([decimal head.code] ++ digitRuns head.reason))) := by
    rw [← digitRuns_digits hmajor, ← digitRuns_digits hminor, ← digitRuns_digits (isDigit_decimal head.code),
      ← digitRuns_append _ _ (c := sp) rfl, ← digitRuns_append _ _ (c := sp) rfl,
      ← digitRuns_append _ _ (c := ch '.') rfl, ← digitRuns_append _ _ (c := ch '/') rfl]
    rfl
  have hname : (digitRuns (bytes "HTTP")).foldl codeBehind 0 = 0 := by decide +kernel
  rw [hruns, List.foldl_append, List.foldl_append, List.foldl_append, List.foldl_append, hname, foldl_codeBehind]
  simp [codeBehind, hlength, hcode, shownCode]

theorem fieldOk {field : Bytes × Bytes} (hfield : field ∈ head.fields) : FieldOk field := by
  obtain ⟨hne, hname, hvalue, -⟩ := head.fields_ok field hfield
  have hbyte : ∀ c ∈ field.1, c ≠ ch ':' ∧ c ≠ cr ∧ isSpace c = false := by
    intro c hc
    have hall : ∀ c, IsTokenByte c → c ≠ ch ':' ∧ c ≠ cr ∧ isSpace c = false := by decide +kernel
    exact hall c (hname c hc)
  exact {
    name_ne := hne
    name_colon := fun hmem => (hbyte _ hmem).1 rfl
    name_cr := fun hmem => (hbyte _ hmem).2.1 rfl
    name_trimmed := ⟨fun c hc => (hbyte c (List.mem_of_mem_head? hc)).2.2,
      fun c hc => (hbyte c (List.mem_of_mem_getLast? hc)).2.2⟩
    value_cr := hvalue }

/-- **What the proxy makes of a response.** -/
theorem parseResponse_response (head : ResponseHead) (body : Bytes) :
    parseResponse (head.response body) = .ok ⟨head.shownCode, head.headers, body⟩ := by
  rw [response, parseResponse_lines head.cr_notMem_statusLine (fun _ hfield => fieldOk hfield) body, scanCode_eq,
    digitRuns_statusLine]
  rfl

end ResponseHead

end ReverseProxyHandler

end WebServer
