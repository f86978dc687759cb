import WebServer.Http.Version
import WebServer.Server.Port

/-!
# The port of the server

On its way from the config file to the acceptor, the port is a string, an `int`, a `short` and an `unsigned short`. The
test of `main` is made on the `short`, which is never above 65535, so it refuses the ports from 32768 on, and the larger
numbers go through if their residue does (`usesPort_iff`).
-/

namespace WebServer

open NginxConfigParser

/-- The port of `tcp::endpoint(tcp::v4(), port)`, an `unsigned short`. -/
def endpointPort (port : Int16) : UInt16 := port.toUInt16

/-- The port that `main` creates the server on; `none` if it ends with `Invalid port provided`. -/
def serverPort (file : Option Bytes) : Option UInt16 :=
  let portNum := (NginxConfig.getPort file).1
  if invalidPort portNum then none else some (endpointPort portNum)

/-- A decimal numeral, and the number that it stands for. -/
inductive Numeral : Bytes → Int → Prop
  | unsigned (digits : Bytes) : digits ≠ [] → (∀ c ∈ digits, IsDigitByte c) → Numeral digits (decimalValue digits)
  | positive (digits : Bytes) : digits ≠ [] → (∀ c ∈ digits, IsDigitByte c) →
    Numeral (ch '+' :: digits) (decimalValue digits)
  | negative (digits : Bytes) : digits ≠ [] → (∀ c ∈ digits, IsDigitByte c) →
    Numeral (ch '-' :: digits) (-decimalValue digits)

/-- The server is created if the number is a port, and then on this port. -/
def UsesPort (file : Option Bytes) (v : Int) : Prop :=
  ((serverPort file).isSome = true ↔ 0 ≤ v ∧ v ≤ 65535) ∧ ∀ port, serverPort file = some port → (port.toNat : Int) = v

/-! ### Numerals -/

theorem not_isSpace_of_isDigitByte {c : UInt8} (hc : IsDigitByte c) : isSpace c = false := by
  have hlow : 48 ≤ c.toNat := UInt8.le_iff_toNat_le.mp hc.1
  have hblank : c ≠ sp := by
    rintro rfl
    exact absurd hlow (by decide)
  have hcontrol : ¬ c ≤ 13 := by
    rw [UInt8.le_iff_toNat_le]
    show ¬ c.toNat ≤ 13
    omega
  unfold isSpace
  simp [hblank, hcontrol]

theorem leadingNumber_digits {digits : Bytes} (hne : digits ≠ []) (hdigits : ∀ c ∈ digits, IsDigitByte c) :
    leadingNumber digits = some (decimalValue digits) := by
  have htake : digits.takeWhile (fun c => decide (ch '0' ≤ c) && decide (c ≤ ch '9')) = digits := by
    rw [List.takeWhile_eq_self_iff]
    intro c hc
    rw [Bool.and_eq_true, decide_eq_true_iff, decide_eq_true_iff]
    exact hdigits c hc
  unfold leadingNumber
  rw [htake]
  exact if_neg hne

/-- `std::stoi` reads a numeral if its number is an `int`. -/
theorem stoi_numeral {word : Bytes} {v : Int} (h : Numeral word v) :
    stoi word = if -2 ^ 31 ≤ v ∧ v < 2 ^ 31 then some v else none := by
  have hfilter : ∀ n : Int, (some n).filter (fun n => decide (-2 ^ 31 ≤ n) && decide (n < 2 ^ 31)) =
      if -2 ^ 31 ≤ n ∧ n < 2 ^ 31 then some n else none := by
    intro n
    simp [Option.filter]
  unfold stoi
  cases h with
  | unsigned digits hne hdigits =>
      obtain ⟨c, rest, rfl⟩ := List.exists_cons_of_ne_nil hne
      have hc : IsDigitByte c := hdigits c List.mem_cons_self
      have hminus : c ≠ ch '-' := by
        rintro rfl
        exact absurd hc (by decide)
      have hplus : c ≠ ch '+' := by
        rintro rfl
        exact absurd hc (by decide)
      rw [List.dropWhile_cons_of_neg (by simp [not_isSpace_of_isDigitByte hc])]
      dsimp only
      rw [if_neg hminus, if_neg hplus, leadingNumber_digits hne hdigits]
      exact hfilter _
  | positive digits hne hdigits =>
      rw [List.dropWhile_cons_of_neg (by decide)]
      dsimp only
      rw [if_neg (by decide), if_pos rfl, leadingNumber_digits hne hdigits]
      exact hfilter _
  | negative digits hne hdigits =>
      rw [List.dropWhile_cons_of_neg (by decide)]
      dsimp only
      rw [if_pos rfl, leadingNumber_digits hne hdigits]
      exact hfilter _

/-! ### From `int` to `unsigned short` -/

theorem invalidPort_iff (n : Int) : invalidPort (Int16.ofInt n) = true ↔ 2 ^ 15 ≤ n % 2 ^ 16 := by
  have hlt := Int16.toInt_lt (Int16.ofInt n)
  rw [← toInt16_neg_iff]
  unfold invalidPort
  rw [Bool.or_eq_true, decide_eq_true_iff, decide_eq_true_iff]
  omega

/-- The conversion to `unsigned short` goes modulo `2 ^ 16`, too. -/
theorem endpointPort_toNat (n : Int) : ((endpointPort (Int16.ofInt n)).toNat : Int) = n % 2 ^ 16 := by
  have hbits : (endpointPort (Int16.ofInt n)).toNat = (BitVec.ofInt 16 n).toNat := rfl
  rw [hbits, BitVec.toNat_ofInt]
  exact Int.toNat_of_nonneg (Int.emod_nonneg n (by decide))

section

variable {file : Option Bytes} {v : Int}

/-- `GetPort` returns the number as a `short`, or what it starts with if there is no `int`. -/
theorem getPort_numeral (hport : Numeral (NginxConfig.getConfig (bytes "port") (parseFile file).2) v) :
    (NginxConfig.getPort file).1 = if -2 ^ 31 ≤ v ∧ v < 2 ^ 31 then Int16.ofInt v else -1 := by
  unfold NginxConfig.getPort
  dsimp only
  rw [stoi_numeral hport]
  split_ifs <;> rfl

/-- The server is created if the number is an `int` that is not negative as a `short`, and then on its residue. -/
theorem serverPort_eq_some_iff (hport : Numeral (NginxConfig.getConfig (bytes "port") (parseFile file).2) v)
    (port : UInt16) :
    serverPort file = some port ↔ (-2 ^ 31 ≤ v ∧ v < 2 ^ 31) ∧ v % 2 ^ 16 < 2 ^ 15 ∧ (port.toNat : Int) = v % 2 ^ 16 := by
  unfold serverPort
  dsimp only
  rw [getPort_numeral hport]
  by_cases hint : -2 ^ 31 ≤ v ∧ v < 2 ^ 31
  · rw [if_pos hint]
    by_cases hneg : 2 ^ 15 ≤ v % 2 ^ 16
    · rw [if_pos ((invalidPort_iff v).mpr hneg)]
      exact iff_of_false (by simp) fun h => absurd h.2.1 (not_lt.mpr hneg)
    · rw [if_neg fun h => hneg ((invalidPort_iff v).mp h), Option.some.injEq]
      constructor
      · rintro rfl
        exact ⟨hint, not_le.mp hneg, endpointPort_toNat v⟩
      · rintro ⟨-, -, hport⟩
        rw [← endpointPort_toNat] at hport
        exact (UInt16.toNat_inj.mp (Int.ofNat.inj hport)).symm
  · rw [if_neg hint, if_pos (by decide)]
    exact iff_of_false (by simp) fun h => hint h.1

/-- **When the configured port is the port used**: when it is below 32768, or when it is no port, and no `int` or one that
is negative as a `short`. -/
theorem usesPort_iff (hport : Numeral (NginxConfig.getConfig (bytes "port") (parseFile file).2) v) :
    UsesPort file v ↔
      (0 ≤ v ∧ v < 2 ^ 15) ∨ ((v < 0 ∨ 2 ^ 16 ≤ v) ∧ (v < -2 ^ 31 ∨ 2 ^ 31 ≤ v ∨ 2 ^ 15 ≤ v % 2 ^ 16)) := by
  have hsome : (serverPort file).isSome = true ↔ (-2 ^ 31 ≤ v ∧ v < 2 ^ 31) ∧ v % 2 ^ 16 < 2 ^ 15 := by
    rw [Option.isSome_iff_exists]
    constructor
    · rintro ⟨port, hserver⟩
      obtain ⟨hint, hshort, -⟩ := (serverPort_eq_some_iff hport port).mp hserver
      exact ⟨hint, hshort⟩
    · rintro ⟨hint, hshort⟩
      exact ⟨endpointPort (Int16.ofInt v), (serverPort_eq_some_iff hport _).mpr ⟨hint, hshort, endpointPort_toNat v⟩⟩
  unfold UsesPort
  rw [hsome]
  constructor
  · rintro ⟨hcreated, -⟩
    omega
  · intro hcond
    refine ⟨by omega, fun port hserver => ?_⟩
    obtain ⟨hint, hshort, hresidue⟩ := (serverPort_eq_some_iff hport port).mp hserver
    omega

end

theorem usesPort_8080 :
    UsesPort (some (bytes "port 8080;")) 8080 ↔
      ((0 : Int) ≤ 8080 ∧ (8080 : Int) < 2 ^ 15) ∨
        (((8080 : Int) < 0 ∨ 2 ^ 16 ≤ (8080 : Int)) ∧
          ((8080 : Int) < -2 ^ 31 ∨ 2 ^ 31 ≤ (8080 : Int) ∨ 2 ^ 15 ≤ (8080 : Int) % 2 ^ 16)) := by
  have hport : NginxConfig.getConfig (bytes "port") (parseFile (some (bytes "port 8080;"))).2 = bytes "8080" := by rfl
  refine usesPort_iff ?_
  rw [hport]
  exact .unsigned (bytes "8080") (by decide) (by decide +kernel)

/-- A port that is refused, and a number that is no port and starts the server on port 80. -/
theorem ports_not_used :
    ((parse (bytes "port 40000;")).1 = true ∧
        Numeral (NginxConfig.getConfig (bytes "port") (parse (bytes "port 40000;")).2) 40000 ∧
        serverPort (some (bytes "port 40000;")) = none ∧ ¬ UsesPort (some (bytes "port 40000;")) 40000) ∧
      (parse (bytes "port 65616;")).1 = true ∧
        Numeral (NginxConfig.getConfig (bytes "port") (parse (bytes "port 65616;")).2) 65616 ∧
        serverPort (some (bytes "port 65616;")) = some 80 ∧ ¬ UsesPort (some (bytes "port 65616;")) 65616 := by
  have hrefused : serverPort (some (bytes "port 40000;")) = none := by decide +kernel
  have hstarted : serverPort (some (bytes "port 65616;")) = some 80 := by decide +kernel
  refine ⟨⟨by rfl, ?_, hrefused, fun h => ?_⟩, by rfl, ?_, hstarted, fun h => ?_⟩
  · exact .unsigned (bytes "40000") (by decide) (by decide +kernel)
  · have hcreated := h.1.mpr (by decide)
    rw [hrefused] at hcreated
    cases hcreated
  · exact .unsigned (bytes "65616") (by decide) (by decide +kernel)
  · exact absurd (h.2 80 hstarted) (by decide)

end WebServer
