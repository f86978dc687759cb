import WebServer.Bytes

/-!
# The wrappers around zlib

`gzip::compress` and `gzip::decompress`, the loops that the proxy calls on a body. zlib is a parameter: what the stream of
some data comes to, of which a call of `deflate` or `inflate` writes as much as it has room for. The wrappers throw above
a size and on every code of zlib that they do not expect, and `decompress` never ends on an empty text
(`compress_eq_some_iff`, `decompress_eq_some_iff`).
-/

namespace WebServer

namespace Gzip

/-- The codes that zlib returns. -/
inductive ReturnCode
  | ok
  | streamEnd
  | needDict
  | streamError
  | dataError
  | memError
  | bufError
  deriving DecidableEq

/-- zlib: what the two initialisations return, and what the data come to. The code of `inflate` is the one of the call
that writes the end; a call in front of it that has no room left returns `Z_BUF_ERROR`. -/
structure Zlib where
  deflateInit2 : ReturnCode
  deflate : Bytes → Bytes
  inflateInit2 : ReturnCode
  inflate : Bytes → Bytes × ReturnCode

variable {z : Zlib} {data out rest : Bytes} {code : ReturnCode} {size calls start : Nat}

/-! ### Compressing -/

/-- `max_` of a `Compressor`. -/
def maxCompress : Nat := 2000000000

/-- The loop of `Compressor::compress`, with room for `increase` bytes in each call of `deflate`: there is another call as
long as `avail_out` is 0. The number of calls only has to be large enough. -/
def deflateLoop (increase : Nat) : Nat → Bytes → Bytes
  | 0, _ => []
  | calls + 1, rest =>
    if increase - (rest.take increase).length = 0 then rest.take increase ++ deflateLoop increase calls (rest.drop increase)
    else rest.take increase

/-- `gzip::compress`; `none` if it throws. -/
def compress (z : Zlib) (data : Bytes) : Option Bytes :=
  if maxCompress < data.length then none
  else if z.deflateInit2 ≠ .ok then none
  else some (deflateLoop (data.length / 2 + 1024) ((z.deflate data).length + 1) (z.deflate data))

/-- The pieces are the whole. -/
theorem deflateLoop_eq {increase : Nat} (hpos : 0 < increase) (hcalls : rest.length < calls) :
    deflateLoop increase calls rest = rest := by
  induction calls generalizing rest with
  | zero => omega
  | succ calls ih =>
      rw [deflateLoop]
      split_ifs with hfull
      · rw [List.length_take] at hfull
        have hless : (rest.drop increase).length < calls := by
          rw [List.length_drop]
          omega
        rw [ih hless, List.take_append_drop]
      · rw [List.length_take] at hfull
        exact List.take_of_length_le (by omega)

theorem compress_eq_some_iff :
    compress z data = some out ↔ data.length ≤ maxCompress ∧ z.deflateInit2 = .ok ∧ out = z.deflate data := by
  have hloop : deflateLoop (data.length / 2 + 1024) ((z.deflate data).length + 1) (z.deflate data) = z.deflate data :=
    deflateLoop_eq (by omega) (by omega)
  unfold compress
  rw [hloop]
  by_cases hsize : maxCompress < data.length
  · simp [hsize]
  · by_cases hinit : z.deflateInit2 = .ok
    · simp [hsize, hinit, Nat.le_of_not_lt hsize, eq_comm]
    · simp [hsize, hinit]

/-! ### Decompressing -/

/-- `max_` of a `Decompressor`. -/
def maxDecompress : Nat := 1000000000

/-- The codes on which `decompress` goes on. -/
def Expected (code : ReturnCode) : Prop := code = .streamEnd ∨ code = .ok ∨ code = .bufError

instance (code : ReturnCode) : Decidable (Expected code) := inferInstanceAs (Decidable (_ ∨ _))

/-- The loop of `Decompressor::decompress`, with `size_uncompressed` and what `inflate` has still to write, with room for
`2 * size` bytes in each call. Where the calls run out there is always another one. -/
def inflateLoop (size : Nat) (code : ReturnCode) : Nat → Nat → Bytes → Option Bytes
  | 0, _, _ => none
  | calls + 1, sizeUncompressed, rest =>
    if maxDecompress < sizeUncompressed + 2 * size then none
    else
      let written := rest.take (2 * size)
      let ret := if rest.length < 2 * size then code else .bufError
      if ¬ Expected ret then none
      else if 2 * size - written.length = 0 then
        (inflateLoop size code calls (sizeUncompressed + 2 * size) (rest.drop (2 * size))).map (written ++ ·)
      else some written

/-- `gzip::decompress`; `none` if it throws or does not return. -/
def decompress (z : Zlib) (data : Bytes) : Option Bytes :=
  if z.inflateInit2 ≠ .ok then none
  else if maxDecompress < data.length ∨ maxDecompress < data.length * 2 then none
  else inflateLoop data.length (z.inflate data).2 ((z.inflate data).1.length + 1) 0 (z.inflate data).1

/-- A call that does not fill its room is the last one. -/
theorem inflateLoop_last (hshort : rest.length < 2 * size) :
    inflateLoop size code (calls + 1) start rest =
      if maxDecompress < start + 2 * size ∨ ¬ Expected code then none else some rest := by
  have hroom : 2 * size - (rest.take (2 * size)).length ≠ 0 := by
    rw [List.length_take]
    omega
  rw [inflateLoop, if_pos hshort]
  dsimp only
  rw [if_neg hroom, List.take_of_length_le hshort.le, ite_or]

/-- Behind one that fills its room there is another one. -/
theorem inflateLoop_full (hfull : 2 * size ≤ rest.length) :
    inflateLoop size code (calls + 1) start rest =
      if maxDecompress < start + 2 * size then none
      else (inflateLoop size code calls (start + 2 * size) (rest.drop (2 * size))).map (rest.take (2 * size) ++ ·) := by
  have hexpected : Expected .bufError := .inr (.inr rfl)
  have hroom : 2 * size - (rest.take (2 * size)).length = 0 := by
    rw [List.length_take]
    omega
  rw [inflateLoop, if_neg (Nat.not_lt.mpr hfull)]
  dsimp only
  rw [if_neg (not_not.mpr hexpected), if_pos hroom]

/-- Without room the calls never end. -/
theorem inflateLoop_zero : inflateLoop 0 code calls start rest = none := by
  induction calls generalizing start rest with
  | zero => rfl
  | succ calls ih => rw [inflateLoop_full (Nat.zero_le _), ih, Option.map_none, ite_self]

/-- The room of the calls for `n` bytes, one by one. -/
theorem room_of_full {n : Nat} (hpos : 0 < size) (hfull : 2 * size ≤ n) :
    start + 2 * size + ((n - 2 * size) / (2 * size) + 1) * (2 * size) = start + (n / (2 * size) + 1) * (2 * size) := by
  rw [Nat.div_eq_sub_div (by omega) hfull]
  ring

/-- The calls that fill their room, and the last one, have room for less than the bound. -/
theorem inflateLoop_eq_some_iff (hpos : 0 < size) (hcalls : rest.length < calls) :
    inflateLoop size code calls start rest = some out ↔
      start + (rest.length / (2 * size) + 1) * (2 * size) ≤ maxDecompress ∧ Expected code ∧ out = rest := by
  induction calls generalizing start rest out with
  | zero => omega
  | succ calls ih =>
      by_cases hshort : rest.length < 2 * size
      · rw [inflateLoop_last hshort, Nat.div_eq_of_lt hshort, Nat.zero_add, Nat.one_mul]
        by_cases hgoes : maxDecompress < start + 2 * size ∨ ¬ Expected code
        · rw [if_pos hgoes]
          refine iff_of_false nofun ?_
          rintro ⟨hbound, hcode, -⟩
          exact hgoes.elim (Nat.not_lt.mpr hbound) (absurd hcode)
        · obtain ⟨hbound, hcode⟩ := not_or.mp hgoes
          rw [if_neg hgoes, Option.some.injEq]
          exact ⟨fun hout => ⟨Nat.not_lt.mp hbound, not_not.mp hcode, hout.symm⟩, fun hall => hall.2.2.symm⟩
      · have hfull := Nat.not_lt.mp hshort
        have hless : (rest.drop (2 * size)).length < calls := by
          rw [List.length_drop]
          omega
        have hroom : start + 2 * size ≤ start + (rest.length / (2 * size) + 1) * (2 * size) :=
          Nat.add_le_add_left (Nat.le_mul_of_pos_left _ (Nat.succ_pos _)) start
        rw [inflateLoop_full hfull]
        by_cases hmax : maxDecompress < start + 2 * size
        · rw [if_pos hmax]
          exact iff_of_false nofun fun hall => absurd (hroom.trans hall.1) (Nat.not_le.mpr hmax)
        · rw [if_neg hmax, Option.map_eq_some_iff]
          simp only [ih hless, List.length_drop, room_of_full hpos hfull]
          constructor
          · rintro ⟨_, ⟨hbound, hcode, rfl⟩, rfl⟩
            exact ⟨hbound, hcode, List.take_append_drop _ _⟩
          · rintro ⟨hbound, hcode, rfl⟩
            exact ⟨_, ⟨hbound, hcode, rfl⟩, List.take_append_drop _ _⟩

/-- Some data that `decompress` returns on: a stream that can be initialised, not of no bytes, that `inflate` comes to the
end of, or to the end of the data, without an error, with room for twice the data as often as it needs it. -/
def Inflates (z : Zlib) (data : Bytes) : Prop :=
  z.inflateInit2 = .ok ∧ data ≠ [] ∧ Expected (z.inflate data).2 ∧
    ((z.inflate data).1.length / (2 * data.length) + 1) * (2 * data.length) ≤ maxDecompress

instance (z : Zlib) (data : Bytes) : Decidable (Inflates z data) := inferInstanceAs (Decidable (_ ∧ _))

theorem decompress_eq_some_iff : decompress z data = some out ↔ Inflates z data ∧ out = (z.inflate data).1 := by
  unfold decompress Inflates
  by_cases hinit : z.inflateInit2 = .ok
  · rw [if_neg (not_not.mpr hinit)]
    rcases Nat.eq_zero_or_pos data.length with hzero | hpos
    · obtain rfl := List.eq_nil_of_length_eq_zero hzero
      rw [List.length_nil, inflateLoop_zero]
      simp
    · have hlarge : 2 * data.length ≤
          ((z.inflate data).1.length / (2 * data.length) + 1) * (2 * data.length) := Nat.le_mul_of_pos_left _ (Nat.succ_pos _)
      by_cases hsize : maxDecompress < data.length ∨ maxDecompress < data.length * 2
      · rw [if_pos hsize]
        refine iff_of_false nofun ?_
        rintro ⟨⟨-, -, -, hbound⟩, -⟩
        omega
      · rw [if_neg hsize, inflateLoop_eq_some_iff hpos (by omega)]
        have hne : data ≠ [] := List.ne_nil_of_length_pos hpos
        rw [Nat.zero_add]
        tauto
  · simp [hinit]

end Gzip

end WebServer
