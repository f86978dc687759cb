import WebServer.Http.Decode

/-!
# Folded headers

A header line that starts with a blank continues the header in front of it. The fields that a client writes are the
header lines with their continuations (`fields`). The parser clears the name at the end of every line, so it stores a
continuation under the empty name, and the fields are kept just when there is none (`parse_fields_iff`).
-/

namespace WebServer

open Lib

/-! ### Fields -/

/-- The text of the continuations at the front. -/
def continuationText : List HeaderLine → Bytes
  | .continuation _ value :: rest => value ++ continuationText rest
  | _ => []

/-- The names of the header lines, each with its value extended by the continuations that follow. -/
def fields : List HeaderLine → List (Bytes × Bytes)
  | [] => []
  | .field name value :: rest => (name, value ++ continuationText rest) :: fields rest
  | .continuation _ _ :: rest => fields rest

/-- The value of the last field with a name. -/
def fieldValue (name : Bytes) (lines : List HeaderLine) : Option Bytes :=
  ((fields lines).reverse.find? fun f => decide (f.1 = name)).map Prod.snd

example :
    fields [.field (bytes "A") (bytes "1"), .continuation (bytes " ") (bytes "2"), .continuation (bytes "  ") [],
      .field (bytes "B") (bytes "3")] = [(bytes "A", bytes "12"), (bytes "B", bytes "3")] := by
  decide

/-- No header has an empty name, and each has the value of the last field with its name. -/
def KeepsFields (headers : OrdMap Bytes Bytes) (lines : List HeaderLine) : Prop :=
  ∀ name value, headers.find? name = some value → name ≠ [] ∧ fieldValue name lines = some value

/-- Without continuations the fields are the lines. -/
theorem fields_eq {lines : List HeaderLine} (h : ∀ l ∈ lines, ¬ l.IsContinuation) :
    fields lines = lines.map fun l => (l.key, l.value) := by
  induction lines with
  | nil => rfl
  | cons l rest ih =>
      have hrest : ∀ l' ∈ rest, ¬ l'.IsContinuation := fun l' hl' => h l' (by simp [hl'])
      have htext : continuationText rest = [] := by
        rcases rest with _ | ⟨l', rest⟩
        · rfl
        · cases l' with
          | field name value => rfl
          | continuation blank value => exact absurd trivial (hrest (.continuation blank value) (by simp))
      cases l with
      | field name value =>
          unfold fields
          rw [htext, List.append_nil, ih hrest]
          rfl
      | continuation blank value => exact absurd trivial (h (.continuation blank value) (by simp))

theorem fieldValue_eq {lines : List HeaderLine} (h : ∀ l ∈ lines, ¬ l.IsContinuation) (name : Bytes) :
    fieldValue name lines = lastValue name lines := by
  unfold fieldValue lastValue
  rw [fields_eq h, ← List.map_reverse, List.find?_map, Option.map_map]
  rfl

/-! ### What is stored -/

theorem HeaderLine.key_ne {l : HeaderLine} (h : l.Ok) (hfield : ¬ l.IsContinuation) : l.key ≠ [] := by
  cases l with
  | field name value => exact h.1
  | continuation blank value => exact absurd trivial hfield

theorem lastValue_of_mem {l : HeaderLine} {lines : List HeaderLine} (hl : l ∈ lines) :
    ∃ value, lastValue l.key lines = some value := by
  have hfound : ((lines.reverse.find? fun l' => decide (l'.key = l.key))).isSome := by
    rw [List.find?_isSome]
    exact ⟨l, by simpa using hl, by simp⟩
  obtain ⟨l', hfind⟩ := Option.isSome_iff_exists.mp hfound
  exact ⟨l'.value, by rw [lastValue, hfind]; rfl⟩

/-- The stored lines are the fields if no line is a continuation. -/
theorem keepsFields_storeLines_iff {lines : List HeaderLine} (hlines : LinesOk false lines) :
    KeepsFields (storeLines OrdMap.empty lines) lines ↔ ∀ l ∈ lines, ¬ l.IsContinuation := by
  have hfind : ∀ name, (storeLines OrdMap.empty lines).find? name = lastValue name lines := by
    intro name
    rw [find?_storeLines, OrdMap.find?_empty, Option.or_none]
  unfold KeepsFields
  simp only [hfind]
  constructor
  · intro hkeeps l hl hcont
    -- a continuation is found under the empty name
    have hkey : l.key = [] := by
      cases l with
      | field name value => exact absurd hcont id
      | continuation blank value => rfl
    obtain ⟨value, hvalue⟩ := lastValue_of_mem hl
    exact (hkeeps _ value hvalue).1 hkey
  · intro hfields name value hvalue
    obtain ⟨l, hl, rfl, rfl⟩ := mem_of_lastValue hvalue
    exact ⟨HeaderLine.key_ne (hlines.ok l hl) (hfields l hl), (fieldValue_eq hfields _).trans hvalue⟩

namespace RequestParser

/-- **When folded headers keep their meaning**: when no line is folded. -/
theorem parse_fields_iff (method : MethodType) (major minor : Int32) (xs after : Bytes)
    (hgood : (new.parse (Request.fresh method major minor) (xs ++ after) xs.length).result = .good) :
    ∃ head : RequestHead, head.render <+: xs ∧
      (KeepsFields (new.parse (Request.fresh method major minor) (xs ++ after) xs.length).request.headers
          head.lines ↔
        ¬ head.HasContinuation) := by
  obtain ⟨head, hpre⟩ := exists_head_of_good hgood
  refine ⟨head, hpre, ?_⟩
  rw [parse_of_head head hpre new rfl]
  refine (keepsFields_storeLines_iff head.lines_ok).trans ?_
  unfold RequestHead.HasContinuation
  simp only [not_exists, not_and]

theorem parse_fields_host :
    let xs := bytes "GET / HTTP/1.1\r\nHost: a\r\n\r\n"
    ∃ head : RequestHead, head.render <+: xs ∧
      (KeepsFields (new.parse (Request.fresh .getReq 0 0) (xs ++ []) xs.length).request.headers head.lines ↔
        ¬ head.HasContinuation) :=
  parse_fields_iff .getReq 0 0 (bytes "GET / HTTP/1.1\r\nHost: a\r\n\r\n") [] (by decide +kernel)

/-- A header with a continuation. -/
def foldedHead : RequestHead :=
  .root (bytes "GET") (bytes "1") (bytes "1")
    [.field (bytes "Host") (bytes "www.w3.org"), .continuation (bytes " ") (bytes "Trace:index.html")]
    (by decide +kernel) (by decide +kernel)

/-- It loses the continuation. -/
theorem foldedHead_loses :
    let out := new.parse (Request.fresh .getReq 0 0) (foldedHead.render ++ []) foldedHead.render.length
    out.result = .good ∧ fieldValue (bytes "Host") foldedHead.lines = some (bytes "www.w3.orgTrace:index.html") ∧
      ¬ KeepsFields out.request.headers foldedHead.lines := by
  have hparse := parse_of_head foldedHead List.prefix_rfl new rfl (Request.fresh .getReq 0 0) []
  refine ⟨by rw [hparse], by decide, ?_⟩
  rw [hparse]
  intro hkeeps
  have hfields := (keepsFields_storeLines_iff foldedHead.lines_ok).mp hkeeps
  exact hfields (.continuation (bytes " ") (bytes "Trace:index.html")) (by decide) trivial

end RequestParser

end WebServer
