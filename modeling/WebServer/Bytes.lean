import WebServer.Lib.OrdMap

/-!
# Bytes and strings

The server's strings are `std::string`s of `char`, here lists of bytes; a `char` is signed, so where the
code passes one as an `int` it becomes a number between -128 and 127 (`charToInt`). A `char*` is the memory
it points to, of which `cString` is the part before the first NUL.
-/

namespace WebServer

/-- The bytes of a `std::string`. -/
abbrev Bytes := List UInt8

instance Bytes.instTransLt : Trans (α := Bytes) (β := Bytes) (γ := Bytes) (· < ·) (· < ·) (· < ·) := inferInstance

instance Bytes.instTrichotomousLt : Std.Trichotomous (α := Bytes) (· < ·) := inferInstance

instance Bytes.instIrreflLt : Std.Irrefl (α := Bytes) (· < ·) := inferInstance

/-- The byte of a character literal. -/
def ch (c : Char) : UInt8 := c.toNat.toUInt8

/-- The bytes of a string literal. -/
def bytes (s : String) : Bytes := s.toList.map ch

abbrev cr : UInt8 := ch '\r'
abbrev lf : UInt8 := ch '\n'
abbrev sp : UInt8 := ch ' '
abbrev ht : UInt8 := ch '\t'

abbrev crlf : Bytes := [cr, lf]

/-- A `char` passed as an `int`. -/
def charToInt (c : UInt8) : Int := if c.toNat < 128 then c.toNat else c.toNat - 256

theorem charToInt_eq (c : UInt8) : charToInt c = c.toInt8.toInt := by
  have h : c.toInt8.toInt = c.toBitVec.toInt := rfl
  rw [h, BitVec.toInt_eq_toNat_cond, charToInt]
  simp only [UInt8.toNat_toBitVec]
  split_ifs <;> omega

theorem charToInt_injective {c d : UInt8} (h : charToInt c = charToInt d) : c = d := by
  have hc := c.toNat_lt
  have hd := d.toNat_lt
  rw [charToInt, charToInt] at h
  apply UInt8.toNat_inj.mp
  split_ifs at h <;> omega

/-- The C string at the start of a piece of memory. -/
def cString (mem : Bytes) : Bytes := mem.takeWhile (· != 0)

theorem cString_eq_of_mem {xs : Bytes} (h : 0 ∈ xs) (ys : Bytes) : cString (xs ++ ys) = cString xs := by
  induction xs with
  | nil => simp at h
  | cons c rest ih =>
      by_cases hc : c = 0
      · simp [cString, hc]
      · have hrest : 0 ∈ rest := by simpa [Ne.symm hc] using h
        have := ih hrest
        simp only [cString] at this ⊢
        simp [hc, this]

theorem cString_append {xs : Bytes} (h : 0 ∉ xs) (ys : Bytes) : cString (xs ++ ys) = xs ++ cString ys := by
  rw [cString, List.takeWhile_append_of_pos]
  · rfl
  · intro c hc
    have hne : c ≠ 0 := fun hzero => h (by rwa [hzero] at hc)
    simpa using hne

theorem cString_of_notMem {xs : Bytes} (h : 0 ∉ xs) : cString xs = xs := by
  simpa [cString] using cString_append h []

@[simp] theorem cString_zero_cons (xs : Bytes) : cString (0 :: xs) = [] := by simp [cString]

theorem zero_notMem_cString (xs : Bytes) : 0 ∉ cString xs := by
  intro h
  simpa using List.mem_takeWhile_imp h

/-- What follows a C string is its NUL, or nothing. -/
theorem exists_eq_cString_append {xs : Bytes} (h : 0 ∈ xs) : ∃ rest, xs = cString xs ++ 0 :: rest := by
  induction xs with
  | nil => simp at h
  | cons c rest ih =>
      by_cases hc : c = 0
      · exact ⟨rest, by simp [hc]⟩
      · obtain ⟨rest', hrest⟩ := ih (by simpa [Ne.symm hc] using h)
        refine ⟨rest', ?_⟩
        have hcons : cString (c :: rest) = c :: cString rest := by simp [cString, hc]
        rw [hcons, List.cons_append, ← hrest]

/-- `boost::replace_all`: the occurrences of `pat` found from left to right, each replaced by `rep`. The
first argument of the loop counts the bytes of the current occurrence still to be passed over. -/
def replaceAllFrom (pat rep : Bytes) : Nat → Bytes → Bytes
  | _, [] => []
  | skip + 1, _ :: rest => replaceAllFrom pat rep skip rest
  | 0, c :: rest =>
    if pat.isPrefixOf (c :: rest) then rep ++ replaceAllFrom pat rep (pat.length - 1) rest
    else c :: replaceAllFrom pat rep 0 rest

def replaceAll (s pat rep : Bytes) : Bytes := replaceAllFrom pat rep 0 s

/-- Replacing a single byte is done byte by byte. -/
theorem replaceAll_singleton (s : Bytes) (c : UInt8) (rep : Bytes) :
    replaceAll s [c] rep = s.flatMap fun d => if d = c then rep else [d] := by
  rw [replaceAll]
  induction s with
  | nil => rfl
  | cons d rest ih =>
      simp only [replaceAllFrom, List.flatMap_cons]
      by_cases h : d = c
      · simp [h, ih]
      · have hne : c ≠ d := fun he => h he.symm
        simp [h, hne, ih]

section replaceAll

variable {pat rep text : Bytes} {c d : UInt8}

/-- What is in front of a byte is found in front of its first occurrence. -/
theorem isPrefix_of_notMem {xs ys rest : Bytes} (hpre : xs <+: ys ++ c :: rest) (hc : c ∉ xs) : xs <+: ys := by
  rcases List.prefix_or_prefix_of_prefix hpre (List.prefix_append ys _) with hshort | ⟨t, rfl⟩
  · exact hshort
  · have ht : t <+: c :: rest := (List.prefix_append_right_inj ys).mp hpre
    rcases t with _ | ⟨d, t⟩
    · rw [List.append_nil]
    · obtain rfl : d = c := (List.cons_prefix_cons.mp ht).1
      exact absurd (by simp) hc

/-- An occurrence at the front is replaced. -/
theorem replaceAll_occurrence (c : UInt8) (pat rep text : Bytes) :
    replaceAll (c :: (pat ++ text)) (c :: pat) rep = rep ++ replaceAll text (c :: pat) rep := by
  have hskip : ∀ xs : Bytes, replaceAllFrom (c :: pat) rep xs.length (xs ++ text) =
      replaceAllFrom (c :: pat) rep 0 text := by
    intro xs
    induction xs with
    | nil => rfl
    | cons d xs ih => exact ih
  have hpre : (c :: pat) <+: c :: (pat ++ text) := List.prefix_append (c :: pat) text
  unfold replaceAll
  rw [replaceAllFrom, if_pos (List.isPrefixOf_iff_prefix.mpr hpre)]
  exact congrArg (rep ++ ·) (hskip pat)

theorem replaceAll_cons (h : ¬ pat <+: d :: text) : replaceAll (d :: text) pat rep = d :: replaceAll text pat rep := by
  unfold replaceAll
  rw [replaceAllFrom, if_neg fun hpre => h (List.isPrefixOf_iff_prefix.mp hpre)]

theorem replaceAll_skip (pat rep text : Bytes) {xs : Bytes} (h : c ∉ xs) :
    replaceAll (xs ++ text) (c :: pat) rep = xs ++ replaceAll text (c :: pat) rep := by
  induction xs with
  | nil => rfl
  | cons d xs ih =>
      have hd : ¬ (c :: pat) <+: d :: (xs ++ text) := fun hpre => h (by simp [(List.cons_prefix_cons.mp hpre).1])
      rw [List.cons_append, replaceAll_cons hd, ih fun hmem => h (by simp [hmem]), List.cons_append]

theorem replaceAll_of_notMem (h : c ∉ text) : replaceAll text (c :: pat) rep = text := by
  simpa [replaceAll, replaceAllFrom] using replaceAll_skip pat rep [] h

end replaceAll

/-- `std::isspace`. -/
def isSpace (c : UInt8) : Bool := decide (c = sp) || (decide (9 ≤ c) && decide (c ≤ 13))

/-- The decimal digits at the start of a text, as a number; `none` if there are none. -/
def leadingNumber (text : Bytes) : Option Nat :=
  let digits := text.takeWhile fun c => decide (ch '0' ≤ c) && decide (c ≤ ch '9')
  if digits = [] then none else some (digits.foldl (fun n c => 10 * n + (c - ch '0').toNat) 0)

/-- `std::stoi`: white space, a sign and decimal digits. It throws, `none`, if there is no digit or the
number is no `int`. -/
def stoi (text : Bytes) : Option Int :=
  let number :=
    match text.dropWhile isSpace with
    | [] => none
    | c :: rest =>
      if c = ch '-' then (leadingNumber rest).map fun n => -(n : Int)
      else if c = ch '+' then (leadingNumber rest).map fun n => (n : Int)
      else (leadingNumber (c :: rest)).map fun n => (n : Int)
  number.filter fun n => decide (-2 ^ 31 ≤ n) && decide (n < 2 ^ 31)

example : stoi (bytes " -80x") = some (-80) ∧ stoi (bytes "x80") = none := by decide

/-- Lines with their line ends. -/
def withEnds (lineEnd : Bytes) (lines : List Bytes) : Bytes := lines.flatMap fun l => l ++ lineEnd

@[simp] theorem withEnds_nil (lineEnd : Bytes) : withEnds lineEnd [] = [] := rfl

@[simp] theorem withEnds_cons (lineEnd l : Bytes) (lines : List Bytes) :
    withEnds lineEnd (l :: lines) = l ++ (lineEnd ++ withEnds lineEnd lines) := by
  rw [withEnds, List.flatMap_cons, List.append_assoc]
  rfl

@[simp] theorem withEnds_append (lineEnd : Bytes) (lines lines' : List Bytes) :
    withEnds lineEnd (lines ++ lines') = withEnds lineEnd lines ++ withEnds lineEnd lines' := List.flatMap_append

theorem notMem_withEnds {lineEnd : Bytes} {lines : List Bytes} {c : UInt8} (hend : c ∉ lineEnd)
    (h : ∀ l ∈ lines, c ∉ l) : c ∉ withEnds lineEnd lines := by
  intro hmem
  obtain ⟨l, hl, hmem⟩ := List.mem_flatMap.mp hmem
  rcases List.mem_append.mp hmem with hmem | hmem
  · exact h l hl hmem
  · exact hend hmem

end WebServer
