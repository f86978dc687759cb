import WebServer.Http.Decode

/-!
# Version numbers

The parser adds the digits of a version number up in an `int`, with no bound on their number. The digits it comes to
are those of `VersionDigits`, and it adds them up without an overflow, and gets the number that they stand for, as
long as this number and the code of a zero together are an `int` (`parse_version_iff`): the code adds the character
first and takes the zero off afterwards.
-/

namespace WebServer

open Lib

variable {c : UInt8} {digits : Bytes} {version : Int32}

/-! ### Digits -/

/-- The number that digits stand for. -/
def decimalValue (digits : Bytes) : Nat := digits.foldl (fun n c => 10 * n + (c - ch '0').toNat) 0

theorem decimalValue_concat (digits : Bytes) (c : UInt8) :
    decimalValue (digits ++ [c]) = 10 * decimalValue digits + (c - ch '0').toNat :=
  List.foldl_concat _ _ _ _

theorem charToInt_of_isDigitByte (h : IsDigitByte c) : charToInt c = (c - ch '0').toNat + 48 := by
  have h0 : (ch '0').toNat = 48 := by decide
  have h9 : (ch '9').toNat = 57 := by decide
  obtain ⟨hlow, hhigh⟩ := h
  have hsub := UInt8.toNat_sub_of_le c (ch '0') hlow
  rw [UInt8.le_iff_toNat_le, h0] at hlow
  rw [UInt8.le_iff_toNat_le, h9] at hhigh
  rw [h0] at hsub
  unfold charToInt
  rw [if_pos (by omega)]
  omega

/-- The values of an `int`. -/
def IsInt (n : Int) : Prop := -2 ^ 31 ≤ n ∧ n < 2 ^ 31

namespace RequestParser

/-- The operations of `version * 10 + input - '0'` stay within `int`, one after the other. -/
def AddsWithin (version : Int32) (input : UInt8) : Prop :=
  IsInt (version.toInt * 10) ∧ IsInt (version.toInt * 10 + charToInt input) ∧
    IsInt (version.toInt * 10 + charToInt input - charToInt (ch '0'))

theorem addDigit_toInt (h : AddsWithin version c) :
    (addDigit version c).toInt = version.toInt * 10 + charToInt c - charToInt (ch '0') := by
  have hofInt : addDigit version c =
      Int32.ofInt (version.toInt * 10 + charToInt c - charToInt (ch '0')) := by
    unfold addDigit
    rw [Int32.ofInt_sub, Int32.ofInt_add, Int32.ofInt_mul, Int32.ofInt_toInt]
    rfl
  rw [hofInt]
  exact Int32.toInt_ofInt_of_le h.2.2.1 h.2.2.2

theorem addsWithin_iff {n : Nat} (hversion : version.toInt = n) (hc : IsDigitByte c) :
    AddsWithin version c ↔ 10 * n + (c - ch '0').toNat + 48 < 2 ^ 31 := by
  have h0 : charToInt (ch '0') = 48 := by decide
  unfold AddsWithin IsInt
  rw [hversion, charToInt_of_isDigitByte hc, h0]
  omega

theorem version_concat (digits : Bytes) (c : UInt8) :
    RequestHead.version (digits ++ [c]) = addDigit (RequestHead.version digits) c := List.foldl_concat _ _ _ _

/-- Digits are added up to the number they stand for. -/
theorem version_toInt (hdigits : ∀ c ∈ digits, IsDigitByte c) (hbound : decimalValue digits + 48 < 2 ^ 31) :
    (RequestHead.version digits).toInt = decimalValue digits := by
  induction digits using List.reverseRecOn with
  | nil => rfl
  | append_singleton digits c ih =>
      have hc : IsDigitByte c := hdigits c (by simp)
      have h0 : charToInt (ch '0') = 48 := by decide
      rw [decimalValue_concat] at hbound ⊢
      have hversion := ih (fun d hd => hdigits d (by simp [hd])) (by omega)
      have hadds : AddsWithin (RequestHead.version digits) c := (addsWithin_iff hversion hc).mpr hbound
      rw [version_concat, addDigit_toInt hadds, hversion, charToInt_of_isDigitByte hc, h0]
      omega

/-! ### What has been read of a request line -/

/-- A method, a URI, and `rest` in the place of the version. -/
def Line (rest read : Bytes) : Prop :=
  ∃ method uri, method ≠ [] ∧ (∀ c ∈ method, IsTokenByte c) ∧ (∀ c ∈ uri, IsUriByte c) ∧
    read = method ++ sp :: (uri ++ sp :: rest)

/-- A request line up to some of the digits of its major version. -/
def MajorRead (digits read : Bytes) : Prop :=
  (∀ c ∈ digits, IsDigitByte c) ∧ Line (bytes "HTTP/" ++ digits) read

/-- A request line up to some of the digits of its minor version. -/
def MinorRead (digits read : Bytes) : Prop :=
  (∀ c ∈ digits, IsDigitByte c) ∧ ∃ major, major ≠ [] ∧ (∀ c ∈ major, IsDigitByte c) ∧
    Line (bytes "HTTP/" ++ (major ++ ch '.' :: digits)) read

/-- The digits of a version number, or the first of them, as they stand in a text. -/
def VersionDigits (xs digits : Bytes) : Prop := ∃ read, read <+: xs ∧ (MajorRead digits read ∨ MinorRead digits read)

theorem Line.concat {rest read : Bytes} (h : Line rest read) (c : UInt8) : Line (rest ++ [c]) (read ++ [c]) := by
  obtain ⟨method, uri, hne, hmethod, huri, rfl⟩ := h
  exact ⟨method, uri, hne, hmethod, huri, by simp⟩

theorem forall_mem_concat {P : UInt8 → Prop} (hdigits : ∀ d ∈ digits, P d) (hc : P c) : ∀ d ∈ digits ++ [c], P d := by
  intro d hd
  rcases List.mem_append.mp hd with hd | hd
  · exact hdigits d hd
  · rwa [List.mem_singleton.mp hd]

theorem MajorRead.concat {read : Bytes} (h : MajorRead digits read) (hc : IsDigitByte c) :
    MajorRead (digits ++ [c]) (read ++ [c]) := by
  refine ⟨forall_mem_concat h.1 hc, ?_⟩
  rw [← List.append_assoc]
  exact h.2.concat c

theorem MinorRead.concat {read : Bytes} (h : MinorRead digits read) (hc : IsDigitByte c) :
    MinorRead (digits ++ [c]) (read ++ [c]) := by
  obtain ⟨hdigits, major, hne, hmajor, hline⟩ := h
  refine ⟨forall_mem_concat hdigits hc, major, hne, hmajor, ?_⟩
  have hconcat := hline.concat c
  rwa [List.append_assoc, List.append_assoc, List.cons_append] at hconcat

/-- The dot is behind the major version. -/
theorem MajorRead.dot {read : Bytes} (h : MajorRead digits read) (hne : digits ≠ []) : MinorRead [] (read ++ [ch '.']) := by
  have hline := h.2.concat (ch '.')
  rw [List.append_assoc] at hline
  exact ⟨by simp, digits, hne, h.1, hline⟩

theorem Line.of_concat {rest read : Bytes} (h : Line (rest ++ [c]) read) :
    ∃ read', read = read' ++ [c] ∧ Line rest read' := by
  obtain ⟨method, uri, hne, hmethod, huri, rfl⟩ := h
  exact ⟨method ++ sp :: (uri ++ sp :: rest), by simp, method, uri, hne, hmethod, huri, rfl⟩

theorem MajorRead.of_concat {read : Bytes} (h : MajorRead (digits ++ [c]) read) :
    IsDigitByte c ∧ ∃ read', read = read' ++ [c] ∧ MajorRead digits read' := by
  obtain ⟨hdigits, hline⟩ := h
  rw [← List.append_assoc] at hline
  obtain ⟨read', rfl, hread⟩ := hline.of_concat
  exact ⟨hdigits c (by simp), read', rfl, fun d hd => hdigits d (by simp [hd]), hread⟩

theorem MinorRead.of_concat {read : Bytes} (h : MinorRead (digits ++ [c]) read) :
    IsDigitByte c ∧ ∃ read', read = read' ++ [c] ∧ MinorRead digits read' := by
  obtain ⟨hdigits, major, hne, hmajor, hline⟩ := h
  rw [← List.cons_append, ← List.append_assoc, ← List.append_assoc] at hline
  obtain ⟨read', rfl, hread⟩ := hline.of_concat
  refine ⟨hdigits c (by simp), read', rfl, fun d hd => hdigits d (by simp [hd]), major, hne, hmajor, ?_⟩
  rwa [List.append_assoc] at hread

/-- The digits of an accepted head. -/
theorem versionDigits_of_head {xs : Bytes} (head : RequestHead) (hpre : head.render <+: xs) :
    VersionDigits xs head.major ∧ VersionDigits xs head.minor := by
  have hline : ∀ {rest}, rest <+: head.renderVersion →
      Line rest (head.method ++ sp :: (head.uri ++ sp :: rest)) ∧
        head.method ++ sp :: (head.uri ++ sp :: rest) <+: xs := by
    rintro rest ⟨after, hafter⟩
    refine ⟨⟨head.method, head.uri, head.method_ne, head.method_ok, head.uri_ok, rfl⟩, ?_⟩
    refine List.IsPrefix.trans ⟨after ++ renderLines head.lines, ?_⟩ hpre
    rw [RequestHead.render, ← hafter]
    simp
  have hmajor : bytes "HTTP/" ++ head.major <+: head.renderVersion :=
    ⟨ch '.' :: (head.minor ++ crlf), by simp [RequestHead.renderVersion]⟩
  have hminor : bytes "HTTP/" ++ (head.major ++ ch '.' :: head.minor) <+: head.renderVersion :=
    ⟨crlf, by simp [RequestHead.renderVersion]⟩
  constructor
  · exact ⟨_, (hline hmajor).2, Or.inl ⟨head.major_ok, (hline hmajor).1⟩⟩
  · exact ⟨_, (hline hminor).2, Or.inr ⟨head.minor_ok, head.major, head.major_ne, head.major_ok, (hline hminor).1⟩⟩

/-- What has been read of the request line, and stored of its version, in each state. -/
def LineRead (t : RequestParser × Request) (read : Bytes) : Prop :=
  match t.1.state with
  | .methodStart => read = []
  | .method => read ≠ [] ∧ ∀ c ∈ read, IsTokenByte c
  | .uri => ∃ method uri, method ≠ [] ∧ (∀ c ∈ method, IsTokenByte c) ∧ (∀ c ∈ uri, IsUriByte c) ∧
      read = method ++ sp :: uri
  | .httpVersionH => Line [] read
  | .httpVersionT1 => Line (bytes "H") read
  | .httpVersionT2 => Line (bytes "HT") read
  | .httpVersionP => Line (bytes "HTT") read
  | .httpVersionSlash => Line (bytes "HTTP") read
  | .httpVersionMajorStart => MajorRead [] read ∧ t.2.httpVersionMajor = 0 ∧ t.2.httpVersionMinor = 0
  | .httpVersionMajor => ∃ digits, digits ≠ [] ∧ MajorRead digits read ∧
      t.2.httpVersionMajor = RequestHead.version digits ∧ t.2.httpVersionMinor = 0
  | .httpVersionMinorStart => MinorRead [] read ∧ t.2.httpVersionMinor = 0
  | .httpVersionMinor => ∃ digits, digits ≠ [] ∧ MinorRead digits read ∧
      t.2.httpVersionMinor = RequestHead.version digits
  | _ => True

/-- A state that goes on from the bytes of a class. -/
theorem ite_eq_more {P : Prop} [Decidable P] {s s' t : RequestParser × Request}
    (h : (if P then (ResultType.indeterminate, s) else (.bad, s')) = (.indeterminate, t)) : P ∧ t = s := by
  split_ifs at h with hP
  · exact ⟨hP, (Prod.mk.inj h).2.symm⟩
  · cases h

theorem expect_eq_more {p : RequestParser} {req : Request} {wanted : UInt8} {next : State}
    {t : RequestParser × Request} (h : expect p req c wanted next = (.indeterminate, t)) :
    c = wanted ∧ t = ({ p with state := next }, req) :=
  ite_eq_more h

/-- A byte that the parser goes on from is added to what has been read. -/
theorem lineRead_step {s t : RequestParser × Request} {read : Bytes} (h : LineRead s read)
    (hstep : machine.step s c = (.more, t)) : LineRead t (read ++ [c]) := by
  have hconsume : consume s.1 s.2 c = (.indeterminate, t) := machine_step hstep
  obtain ⟨⟨state, key, value⟩, req⟩ := s
  cases state
  case methodStart =>
    obtain rfl : read = [] := h
    simp only [consume, isNotToken_iff, ite_not] at hconsume
    obtain ⟨hc, rfl⟩ := ite_eq_more hconsume
    exact ⟨by simp, by simpa using hc⟩
  case method =>
    obtain ⟨hne, hmethod⟩ := h
    simp only [consume, isNotToken_iff, ite_not] at hconsume
    split at hconsume
    · rename_i hsp
      obtain rfl := (Prod.mk.inj hconsume).2
      exact ⟨read, [], hne, hmethod, by simp, by rw [hsp]⟩
    · obtain ⟨hc, rfl⟩ := ite_eq_more hconsume
      exact ⟨by simp, forall_mem_concat hmethod hc⟩
  case uri =>
    obtain ⟨method, uri, hne, hmethod, huri, rfl⟩ := h
    simp only [consume, isCtl_iff] at hconsume
    split_ifs at hconsume with hsp hc
    · obtain rfl := (Prod.mk.inj hconsume).2
      exact ⟨method, uri, hne, hmethod, huri, by simp [hsp]⟩
    · cases hconsume
    · obtain rfl := (Prod.mk.inj hconsume).2
      exact ⟨method, uri ++ [c], hne, hmethod, forall_mem_concat huri ⟨hc, hsp⟩, by simp⟩
  case httpVersionH =>
    obtain ⟨rfl, rfl⟩ := expect_eq_more hconsume
    exact Line.concat h _
  case httpVersionT1 =>
    obtain ⟨rfl, rfl⟩ := expect_eq_more hconsume
    exact Line.concat h _
  case httpVersionT2 =>
    obtain ⟨rfl, rfl⟩ := expect_eq_more hconsume
    exact Line.concat h _
  case httpVersionP =>
    obtain ⟨rfl, rfl⟩ := expect_eq_more hconsume
    exact Line.concat h _
  case httpVersionSlash =>
    obtain ⟨rfl, rfl⟩ := ite_eq_more hconsume
    exact ⟨⟨by simp, Line.concat h _⟩, rfl, rfl⟩
  case httpVersionMajorStart =>
    obtain ⟨hread, hmajor, hminor⟩ := h
    simp only [consume, isDigit_iff] at hconsume
    obtain ⟨hc, rfl⟩ := ite_eq_more hconsume
    refine ⟨[c], by simp, hread.concat hc, ?_, hminor⟩
    exact congrArg (addDigit · c) hmajor
  case httpVersionMajor =>
    obtain ⟨digits, hne, hread, hmajor, hminor⟩ := h
    simp only [consume, isDigit_iff] at hconsume
    split at hconsume
    · rename_i hdot
      obtain rfl := (Prod.mk.inj hconsume).2
      rw [hdot]
      exact ⟨hread.dot hne, hminor⟩
    · obtain ⟨hc, rfl⟩ := ite_eq_more hconsume
      refine ⟨digits ++ [c], by simp, hread.concat hc, ?_, hminor⟩
      rw [version_concat, ← hmajor]
  case httpVersionMinorStart =>
    obtain ⟨hread, hminor⟩ := h
    simp only [consume, isDigit_iff] at hconsume
    obtain ⟨hc, rfl⟩ := ite_eq_more hconsume
    exact ⟨[c], by simp, hread.concat hc, congrArg (addDigit · c) hminor⟩
  case httpVersionMinor =>
    obtain ⟨digits, hne, hread, hminor⟩ := h
    simp only [consume, isDigit_iff] at hconsume
    split at hconsume
    · obtain rfl := (Prod.mk.inj hconsume).2
      trivial
    · obtain ⟨hc, rfl⟩ := ite_eq_more hconsume
      refine ⟨digits ++ [c], by simp, hread.concat hc, ?_⟩
      rw [version_concat, ← hminor]
  case spaceBeforeHeaderValue =>
    obtain ⟨rfl, rfl⟩ := expect_eq_more hconsume
    trivial
  -- behind the request line nothing is said
  all_goals
    simp only [consume] at hconsume
    split_ifs at hconsume
    all_goals cases hconsume
    all_goals trivial

theorem lineRead_advance {p : RequestParser} {req : Request} (hp : p.state = .methodStart) {read : Bytes}
    {t : RequestParser × Request} (h : machine.advance (p, req) read = some t) : LineRead t read := by
  induction read using List.reverseRecOn generalizing t with
  | nil =>
      obtain rfl := Option.some.inj h
      unfold LineRead
      rw [hp]
  | append_singleton read c ih =>
      obtain ⟨s, hread, hc⟩ := Recognizer.advance_append.mp h
      obtain ⟨t', hstep, hnil⟩ := Recognizer.advance_cons.mp hc
      obtain rfl := Option.some.inj hnil
      exact lineRead_step (ih hread) hstep

/-- Where some of the digits of the major version have been read. -/
theorem advance_majorRead {p : RequestParser} (req : Request) (hp : p.state = .methodStart) {read : Bytes}
    (h : MajorRead digits read) :
    ∃ t, machine.advance (p, req) read = some t ∧ t.2.httpVersionMajor = RequestHead.version digits ∧
      (t.1.state = .httpVersionMajorStart ∨ t.1.state = .httpVersionMajor) := by
  obtain ⟨state, key, value⟩ := p
  obtain rfl : state = .methodStart := hp
  obtain ⟨hdigits, method, uri, hne, hmethod, huri, rfl⟩ := h
  rw [advance_toVersion hne hmethod huri, Recognizer.advance_append_eq advance_http]
  rcases digits with _ | ⟨c, digits⟩
  · exact ⟨_, rfl, rfl, Or.inl rfl⟩
  · exact ⟨_, advance_majorDigits (by simp) hdigits, rfl, Or.inr rfl⟩

theorem advance_minorRead {p : RequestParser} (req : Request) (hp : p.state = .methodStart) {read : Bytes}
    (h : MinorRead digits read) :
    ∃ t, machine.advance (p, req) read = some t ∧ t.2.httpVersionMinor = RequestHead.version digits ∧
      (t.1.state = .httpVersionMinorStart ∨ t.1.state = .httpVersionMinor) := by
  obtain ⟨state, key, value⟩ := p
  obtain rfl : state = .methodStart := hp
  obtain ⟨hdigits, major, hmajorNe, hmajor, method, uri, hne, hmethod, huri, rfl⟩ := h
  rw [advance_toVersion hne hmethod huri, Recognizer.advance_append_eq advance_http,
    Recognizer.advance_append_eq (advance_majorDigits hmajorNe hmajor), Recognizer.advance_cons_eq step_dot]
  rcases digits with _ | ⟨c, digits⟩
  · exact ⟨_, rfl, rfl, Or.inl rfl⟩
  · exact ⟨_, advance_minorDigits (by simp) hdigits, rfl, Or.inr rfl⟩

/-! ### The updates of the version -/

/-- What the parser adds up at a digit of the version stays within `int`. -/
def UpdateFits (s : RequestParser × Request) (input : UInt8) : Prop :=
  IsDigitByte input →
    (s.1.state = .httpVersionMajorStart ∨ s.1.state = .httpVersionMajor → AddsWithin s.2.httpVersionMajor input) ∧
    (s.1.state = .httpVersionMinorStart ∨ s.1.state = .httpVersionMinor → AddsWithin s.2.httpVersionMinor input)

/-- It does so at every byte that is read. -/
def UpdatesFit (s : RequestParser × Request) (xs : Bytes) : Prop :=
  ∀ read c t, read ++ [c] <+: xs → machine.advance s read = some t → UpdateFits t c

theorem addsWithin_version (hdigits : ∀ d ∈ digits, IsDigitByte d) (hc : IsDigitByte c)
    (hbound : decimalValue digits + 48 < 2 ^ 31) :
    AddsWithin (RequestHead.version digits) c ↔ decimalValue (digits ++ [c]) + 48 < 2 ^ 31 := by
  rw [addsWithin_iff (version_toInt hdigits hbound) hc, decimalValue_concat]

variable {p : RequestParser} {req : Request} {xs : Bytes}

theorem updatesFit_iff (hp : p.state = .methodStart) :
    UpdatesFit (p, req) xs ↔ ∀ digits, VersionDigits xs digits → decimalValue digits + 48 < 2 ^ 31 := by
  constructor
  · intro hfits digits hdigits
    induction digits using List.reverseRecOn with
    | nil => decide
    | append_singleton digits c ih =>
        obtain ⟨read, hpre, hmajor | hminor⟩ := hdigits
        · obtain ⟨hc, read, rfl, hread⟩ := hmajor.of_concat
          obtain ⟨t, hadvance, hversion, hstate⟩ := advance_majorRead req hp hread
          have hbound := ih ⟨read, (List.prefix_append read [c]).trans hpre, Or.inl hread⟩
          rw [← addsWithin_version hread.1 hc hbound, ← hversion]
          exact (hfits read c t hpre hadvance hc).1 hstate
        · obtain ⟨hc, read, rfl, hread⟩ := hminor.of_concat
          obtain ⟨t, hadvance, hversion, hstate⟩ := advance_minorRead req hp hread
          have hbound := ih ⟨read, (List.prefix_append read [c]).trans hpre, Or.inr hread⟩
          rw [← addsWithin_version hread.1 hc hbound, ← hversion]
          exact (hfits read c t hpre hadvance hc).2 hstate
  · intro hbound read c t hpre hadvance hc
    have hline : LineRead t read := lineRead_advance hp hadvance
    have hmajor : ∀ digits, MajorRead digits read → AddsWithin (RequestHead.version digits) c := fun digits hread =>
      (addsWithin_version hread.1 hc
        (hbound digits ⟨read, (List.prefix_append read [c]).trans hpre, Or.inl hread⟩)).mpr
        (hbound _ ⟨read ++ [c], hpre, Or.inl (hread.concat hc)⟩)
    have hminor : ∀ digits, MinorRead digits read → AddsWithin (RequestHead.version digits) c := fun digits hread =>
      (addsWithin_version hread.1 hc
        (hbound digits ⟨read, (List.prefix_append read [c]).trans hpre, Or.inr hread⟩)).mpr
        (hbound _ ⟨read ++ [c], hpre, Or.inr (hread.concat hc)⟩)
    unfold LineRead at hline
    constructor
    · rintro (hstate | hstate) <;> rw [hstate] at hline
      · rw [hline.2.1]
        exact hmajor [] hline.1
      · obtain ⟨digits, -, hread, hversion, -⟩ := hline
        rw [hversion]
        exact hmajor digits hread
    · rintro (hstate | hstate) <;> rw [hstate] at hline
      · rw [hline.2]
        exact hminor [] hline.1
      · obtain ⟨digits, -, hread, hversion⟩ := hline
        rw [hversion]
        exact hminor digits hread

/-- **When version numbers are exact**: when each of them, and the code of a zero with it, is an `int`, up to any of its
digits. -/
theorem parse_version_iff (method : MethodType) (major minor : Int32) (xs after : Bytes) :
    let mem := xs ++ after
    let out := new.parse (Request.fresh method major minor) mem xs.length
    (UpdatesFit (new, parseMethod { Request.fresh method major minor with body := cString mem } mem) xs ∧
        (out.result = .good → ∃ head : RequestHead, head.render <+: xs ∧
          out.request.httpVersionMajor.toInt = decimalValue head.major ∧
          out.request.httpVersionMinor.toInt = decimalValue head.minor)) ↔
      ∀ digits, VersionDigits xs digits → decimalValue digits + 48 < 2 ^ 31 := by
  intro mem out
  rw [updatesFit_iff rfl, and_iff_left_iff_imp]
  intro hbound hgood
  obtain ⟨head, hpre⟩ := exists_head_of_good hgood
  obtain ⟨hmajor, hminor⟩ := versionDigits_of_head head hpre
  have hout : out = _ := parse_of_head head hpre new rfl (Request.fresh method major minor) after
  rw [hout]
  exact ⟨head, hpre, version_toInt head.major_ok (hbound _ hmajor), version_toInt head.minor_ok (hbound _ hminor)⟩

/-- A request with a large version. -/
def largeVersion : RequestHead :=
  .root (bytes "GET") (bytes "9999999999") (bytes "0") [] (by decide +kernel) trivial

/-- It is accepted, with another version. -/
theorem largeVersion_overflows :
    let out := new.parse (Request.fresh .getReq 0 0) largeVersion.render largeVersion.render.length
    largeVersion.render.length ≤ 1024 ∧ out.result = .good ∧
      out.request.httpVersionMajor.toInt ≠ decimalValue largeVersion.major := by
  decide +kernel

end RequestParser

end WebServer
