import WebServer.Session.HandleRead

/-!
# The room in the buffer

`handle_read` looks at the last two bytes of what it has read, and copies the text that it makes of it back to `data_`.
A reformatted text has a carriage return for each line feed and a line end more (`length_formatString`), so that it has
room together with its NUL if and only if there are few enough line feeds (`handleRead_buffer_iff`).
-/

namespace WebServer

namespace Session

variable {x : Bytes}

theorem length_toCrlf (xs : Bytes) : (toCrlf xs).length = xs.length + xs.count lf := by
  induction xs with
  | nil => rfl
  | cons c xs ih =>
      have hcons : (toCrlf (c :: xs)).length = (if c = lf then crlf else [c]).length + (toCrlf xs).length := by
        simp [toCrlf]
      rw [hcons, ih]
      by_cases hc : c = lf
      · have hcrlf : crlf.length = 2 := rfl
        rw [if_pos hc, hcrlf, hc, List.count_cons_self, List.length_cons]
        omega
      · rw [if_neg hc, List.count_cons_of_ne hc, List.length_singleton, List.length_cons]
        omega

/-- The lines of a text that have an end. -/
def endedLines (x : Bytes) : Bytes := (x.reverse.dropWhile fun c => c ≠ lf).reverse

theorem endedLines_append {rest : Bytes} (hrest : lf ∉ rest) (y : Bytes) : endedLines (y ++ rest) = endedLines y := by
  have hnone : ∀ c ∈ rest.reverse, decide (c ≠ lf) = true := by
    intro c hc
    have hmem : c ∈ rest := List.mem_reverse.mp hc
    exact decide_eq_true fun heq => hrest (heq ▸ hmem)
  unfold endedLines
  rw [List.reverse_append, List.dropWhile_append_of_pos hnone]

/-- No line feed is behind them. -/
theorem count_endedLines (x : Bytes) : (endedLines x).count lf = x.count lf := by
  have hsplit := List.takeWhile_append_dropWhile (p := fun c => decide (c ≠ lf)) (l := x.reverse)
  have hrest : lf ∉ x.reverse.takeWhile fun c => decide (c ≠ lf) := by
    intro hmem
    simpa using List.mem_takeWhile_imp hmem
  unfold endedLines
  rw [List.count_reverse, ← List.count_reverse (l := x), ← hsplit, List.count_append, List.count_eq_zero.mpr hrest,
    Nat.zero_add, hsplit]

/-- What is left of a text without a line feed is its first byte. -/
theorem length_formatString (hne : x ≠ []) :
    (formatString x).length = max 1 (endedLines x).length + x.count lf + 2 := by
  have hcrlf : crlf.length = 2 := rfl
  obtain ⟨y, rest, rfl, hrest, hy, hformat⟩ := formatString_eq hne
  rw [hformat, List.length_append, length_toCrlf, endedLines_append hrest, List.count_append,
    List.count_eq_zero.mpr hrest, hcrlf, Nat.add_zero]
  obtain ⟨z, rfl⟩ | ⟨c, hc, rfl⟩ := hy
  · have hended : endedLines (z ++ [lf]) = z ++ [lf] := by simp [endedLines]
    rw [hended, List.length_append, List.length_singleton]
    omega
  · have hended : endedLines [c] = [] := by simp [endedLines, hc]
    rw [hended]
    rfl

theorem isFormatted_isOk_iff : (∃ formatted, isFormatted x = .ok formatted) ↔ 2 ≤ x.length := by
  constructor
  · rintro ⟨formatted, h⟩
    unfold isFormatted at h
    split_ifs at h with hshort
    omega
  · intro h
    exact ⟨_, isFormatted_eq h⟩

/-- **When the buffer has room**: the read has two bytes, and it ends in CR LF or has few enough line feeds. -/
theorem handleRead_buffer_iff (s : Session) {n : Nat} (hn : 1 ≤ n) (hmax : n ≤ maxLength) :
    let dataStr := s.data.take n
    ((∃ formatted, isFormatted dataStr = .ok formatted) ∧
        (isFormatted dataStr = .ok false → (formatString dataStr).length + 1 ≤ maxLength)) ↔
      2 ≤ n ∧ (crlf <:+ dataStr ∨ (endedLines dataStr).length + dataStr.count lf + 3 ≤ maxLength) := by
  intro dataStr
  have hlength : dataStr.length = n := by
    have hdata := s.data_length
    rw [List.length_take]
    omega
  have hne : dataStr ≠ [] := List.ne_nil_of_length_pos (by omega)
  have hroom : (formatString dataStr).length + 1 ≤ maxLength ↔
      (endedLines dataStr).length + dataStr.count lf + 3 ≤ maxLength := by
    have hcount : dataStr.count lf ≤ (endedLines dataStr).length := by
      rw [← count_endedLines]
      exact List.count_le_length
    have hmax : maxLength = 1024 := rfl
    rw [length_formatString hne]
    omega
  rw [isFormatted_isOk_iff, hlength]
  refine and_congr_right fun h => ?_
  rw [isFormatted_eq (by omega), hroom]
  by_cases hcrlf : crlf <:+ dataStr
  · simp [hcrlf]
  · simp [hcrlf]

theorem handleRead_buffer_blank :
    let dataStr := (filled sp).data.take 2
    ((∃ formatted, isFormatted dataStr = .ok formatted) ∧
        (isFormatted dataStr = .ok false → (formatString dataStr).length + 1 ≤ maxLength)) ↔
      2 ≤ 2 ∧ (crlf <:+ dataStr ∨ (endedLines dataStr).length + dataStr.count lf + 3 ≤ maxLength) :=
  handleRead_buffer_iff (filled sp) (by decide) (by decide)

/-- A read of one byte has no last two, and a buffer full of line feeds no room for the carriage returns. -/
theorem handleRead_buffer_lineFeeds :
    isFormatted ((filled lf).data.take 1) = .error .outOfRange ∧
      isFormatted ((filled lf).data.take maxLength) = .ok false ∧
      ¬ (formatString ((filled lf).data.take maxLength)).length + 1 ≤ maxLength := by
  have htake : (filled lf).data.take maxLength = List.replicate maxLength lf := by
    simp [filled, fresh]
  refine ⟨by decide, by decide +kernel, ?_⟩
  rw [htake, length_formatString (by decide), List.count_replicate_self]
  omega

end Session

end WebServer
