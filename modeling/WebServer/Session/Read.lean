import WebServer.Http.Stop
import WebServer.Session.Session

/-!
# What a read hands to the parser

`handle_read` has two paths. A read that ends in CR LF is parsed where it stands; any other is cut after its
last line feed, has its line feeds replaced and is copied back with its NUL (`formatString_eq`). The lemmas
`parseRead_formatted` and `parseRead_reformatted` say what the parser is called on.

Where the bytes read determine the C string at `data_`, `ownText` is that string, and then they determine the
whole outcome of the parser (`parseRead_ownText`): it never wants more, since it runs into the NUL or into
two line ends in a row.
-/

namespace WebServer

open Lib

namespace Session

variable {s : Session} {x t : Bytes}

/-! ### The reformatted text -/

/-- Every line feed preceded by a carriage return. -/
def toCrlf (xs : Bytes) : Bytes := xs.flatMap fun c => if c = lf then crlf else [c]

@[simp] theorem toCrlf_append (xs ys : Bytes) : toCrlf (xs ++ ys) = toCrlf xs ++ toCrlf ys := by
  simp [toCrlf]

theorem toCrlf_of_notMem {xs : Bytes} (h : lf ∉ xs) : toCrlf xs = xs := by
  induction xs with
  | nil => rfl
  | cons c rest ih =>
    have hc : c ≠ lf := fun hc => h (by simp [hc])
    have hrest : lf ∉ rest := fun hmem => h (by simp [hmem])
    have htail := ih hrest
    simp only [toCrlf] at htail ⊢
    rw [List.flatMap_cons, if_neg hc, htail, List.singleton_append]

/-- What is left after popping starts, on the reversed string, with a line feed or is a single byte. -/
theorem popToNewline_spec (r : Bytes) (hne : r ≠ []) :
    ∃ popped, r = popped ++ popToNewline r ∧ lf ∉ popped ∧
      ((∃ z, popToNewline r = lf :: z) ∨ ∃ c, c ≠ lf ∧ popToNewline r = [c]) := by
  induction r with
  | nil => exact absurd rfl hne
  | cons c rest ih =>
    by_cases hc : c = lf
    · refine ⟨[], ?_, by simp, Or.inl ⟨rest, ?_⟩⟩ <;> cases rest <;> simp [popToNewline, hc]
    · rcases rest with _ | ⟨d, rest⟩
      · exact ⟨[], rfl, by simp, Or.inr ⟨c, hc, rfl⟩⟩
      · obtain ⟨popped, happ, hpopped, hlast⟩ := ih (by simp)
        have hpop : popToNewline (c :: d :: rest) = popToNewline (d :: rest) := by simp [popToNewline, hc]
        rw [hpop]
        exact ⟨c :: popped, by rw [List.cons_append, ← happ], by simp [Ne.symm hc, hpopped], hlast⟩

/-- The read is cut after its last line feed, or after its first byte if it has none. -/
theorem formatString_eq (hne : x ≠ []) :
    ∃ y rest, x = y ++ rest ∧ lf ∉ rest ∧ ((∃ z, y = z ++ [lf]) ∨ ∃ c, c ≠ lf ∧ y = [c]) ∧
      formatString x = toCrlf y ++ crlf := by
  obtain ⟨popped, happ, hpopped, hlast⟩ := popToNewline_spec x.reverse (by simpa using hne)
  refine ⟨(popToNewline x.reverse).reverse, popped.reverse, ?_, by simpa using hpopped, ?_, ?_⟩
  · have hrev := congrArg List.reverse happ
    simpa using hrev
  · rcases hlast with ⟨z, hz⟩ | ⟨c, hc, hz⟩
    · exact Or.inl ⟨z.reverse, by simp [hz]⟩
    · exact Or.inr ⟨c, hc, by simp [hz]⟩
  · rw [formatString, replaceAll_singleton, toCrlf]

/-- A new parser stops within a reformatted text. -/
theorem run_formatString_ne_more {p : RequestParser} {req : Request} (hstate : p.state = .methodStart)
    (hheaders : req.headers.isEmpty = true) (hne : x ≠ []) :
    (RequestParser.machine.run (p, req) (formatString x)).verdict ≠ .more := by
  obtain ⟨y, rest, -, -, ⟨z, rfl⟩ | ⟨c, hc, rfl⟩, hformat⟩ := formatString_eq hne
  · have hend : formatString x = toCrlf z ++ crlf ++ crlf := by
      rw [hformat, toCrlf_append]
      simp [toCrlf]
    rw [hend]
    exact RequestParser.run_crlf_crlf_ne_more _ _
  · intro h
    -- a single byte and a line end: there is no room for a method and a space
    have htext : formatString x = [c, cr, lf] := by
      rw [hformat]
      simp [toCrlf, hc]
    obtain ⟨method, after, hmethod, -, heq⟩ := RequestParser.method_of_run_more hstate hheaders h (by simp [htext])
    obtain ⟨d, method, rfl⟩ := List.exists_cons_of_ne_nil hmethod
    rw [htext, List.cons_append, List.cons.injEq] at heq
    have hsp : sp ∈ [cr, lf] := by simp [heq.2]
    exact absurd hsp (by decide)

/-! ### The two paths -/

/-- `strcpy` has room for the read of `x`, if it is reformatted. -/
def Fits (x : Bytes) : Prop := ¬ crlf <:+ x → (cString (formatString x)).length + 1 ≤ maxLength

instance (x : Bytes) : Decidable (Fits x) := inferInstanceAs (Decidable (_ → _))

theorem isFormatted_eq (h : 2 ≤ x.length) : isFormatted x = .ok (decide (crlf <:+ x)) := by
  have hshort : ¬ x.length < 2 := by omega
  have hdrop : crlf <:+ x ↔ x.drop (x.length - 2) = crlf := by
    rw [List.suffix_iff_eq_drop, eq_comm]
    rfl
  rw [isFormatted, if_neg hshort, decide_eq_decide.mpr hdrop, beq_eq_decide]

theorem take_data (hread : x <+: s.data) : s.data.take x.length = x :=
  (List.prefix_iff_eq_take.mp hread).symm

theorem take_memory (hread : x <+: s.data) : s.memory.take x.length = x := by
  rw [memory, List.take_append_of_le_length hread.length_le, take_data hread]

theorem memory_of_read (hread : x <+: s.data) : ∃ after, s.memory = x ++ after := by
  obtain ⟨rest, hrest⟩ := hread
  exact ⟨rest ++ s.beyond, by simp [memory, ← hrest]⟩

/-- The request the parser starts from. -/
def bound (s : Session) : Request :=
  RequestParser.parseMethod { s.request with body := cString s.memory } s.memory

theorem parse_fst (hread : x <+: s.data) :
    (s.parse x.length).1 =
      ResultType.ofVerdict (RequestParser.machine.run (s.requestParser, s.bound) x).verdict := by
  rw [parse, RequestParser.parse_eq_run, take_memory hread]
  rfl

theorem parse_requestParser (hread : x <+: s.data) :
    (s.parse x.length).2.requestParser =
      (RequestParser.machine.run (s.requestParser, s.bound) x).final.1 := by
  rw [parse, RequestParser.parse_eq_run, take_memory hread]
  rfl

/-- A read in the buffer is what overwriting the buffer with it leaves. -/
theorem prefix_overwrite (s : Session) (h : x.length ≤ maxLength) : x <+: (s.overwrite x).data := by
  simp [overwrite, List.take_of_length_le h]

theorem memory_overwrite (s : Session) (h : x.length ≤ maxLength) :
    (s.overwrite x).memory = x ++ (s.data.drop x.length ++ s.beyond) := by
  simp [memory, overwrite, List.take_of_length_le h]

theorem parseRead_short (hread : x <+: s.data) (h : x.length < 2) :
    s.parseRead x.length = .error .outOfRange := by
  rw [parseRead, take_data hread, isFormatted, if_pos h]
  rfl

theorem parseRead_formatted (hread : x <+: s.data) (h : 2 ≤ x.length) (hend : crlf <:+ x) :
    s.parseRead x.length = .ok (s.parse x.length) := by
  rw [parseRead, take_data hread, isFormatted_eq h, decide_eq_true hend]
  rfl

theorem parseRead_overflow (hread : x <+: s.data) (h : 2 ≤ x.length) (hfits : ¬ Fits x) :
    s.parseRead x.length = .error .bufferOverflow := by
  obtain ⟨hend, hlong⟩ := Classical.not_imp.mp hfits
  rw [parseRead, take_data hread, isFormatted_eq h, decide_eq_false hend]
  simp only [bind, Except.bind, Bool.false_eq_true, if_false, strcpy, if_neg hlong]

theorem parseRead_reformatted (hread : x <+: s.data) (h : 2 ≤ x.length) (hend : ¬ crlf <:+ x)
    (hfits : Fits x) :
    s.parseRead x.length =
      .ok ((s.overwrite (cString (formatString x) ++ [0])).parse (formatString x).length) := by
  rw [parseRead, take_data hread, isFormatted_eq h, decide_eq_false hend]
  simp only [bind, Except.bind, Bool.false_eq_true, if_false, strcpy, if_pos (hfits hend)]
  rfl

theorem parseRead_ok (hread : x <+: s.data) (h : 2 ≤ x.length) (hfits : Fits x) :
    ∃ out, s.parseRead x.length = .ok out := by
  by_cases hend : crlf <:+ x
  · exact ⟨_, parseRead_formatted hread h hend⟩
  · exact ⟨_, parseRead_reformatted hread h hend hfits⟩

/-! ### Reads that determine the text at `data_` -/

/-- The C string at `data_` when the parser is called, where the bytes read determine it. -/
def ownText (x : Bytes) : Option Bytes :=
  if x.length < 2 then none
  else if crlf <:+ x then if 0 ∈ x then some (cString x) else none
  else if (cString (formatString x)).length + 1 ≤ maxLength then some (cString (formatString x)) else none

theorem ownText_eq_some :
    ownText x = some t ↔
      2 ≤ x.length ∧ (crlf <:+ x ∧ 0 ∈ x ∧ t = cString x ∨
        ¬ crlf <:+ x ∧ Fits x ∧ t = cString (formatString x)) := by
  rw [ownText]
  split_ifs with hshort hend hnul hroom
  · simpa using fun h => absurd hshort (by omega)
  · simp [hend, hnul, eq_comm, show 2 ≤ x.length by omega]
  · simp [hend, hnul]
  · simp [hend, Fits, hroom, eq_comm, show 2 ≤ x.length by omega]
  · simp [hend, Fits, hroom]

theorem ownText_eq_none :
    ownText x = none ↔ x.length < 2 ∨ (crlf <:+ x ∧ 0 ∉ x) ∨ ¬ Fits x := by
  rw [ownText]
  split_ifs with hshort hend hnul hroom
  · simp [hshort]
  · simp [hshort, hend, hnul, Fits]
  · simp [hend, hnul]
  · simp [hshort, hend, Fits, hroom]
  · simp [hend, Fits, hroom]

theorem cString_nul_cons {t : Bytes} (hnul : 0 ∉ t) (rest : Bytes) : cString (t ++ 0 :: rest) = t := by
  rw [cString_append hnul, cString_zero_cons, List.append_nil]

theorem length_lt_of_eq_nul_append {xs rest : Bytes} (h : xs = t ++ 0 :: rest) : t.length < xs.length := by
  simp [h]

theorem cString_take (mem : Bytes) (k : Nat) : cString (mem.take k) = (cString mem).take k := by
  induction k generalizing mem with
  | zero => simp [cString]
  | succ k ih =>
    rcases mem with _ | ⟨c, rest⟩
    · rfl
    · have hrest := ih rest
      simp only [cString] at hrest ⊢
      by_cases hc : c = 0 <;> simp [hc, hrest]

/-- `parse_method` compares C strings. -/
theorem methodOf_cString (mem : Bytes) : RequestParser.methodOf (cString mem) = RequestParser.methodOf mem := by
  have htake : cString ((cString mem).take 3) = cString (mem.take 3) := by
    rw [cString_take mem, cString_of_notMem]
    exact fun h => zero_notMem_cString mem (List.mem_of_mem_take h)
  rw [RequestParser.methodOf, RequestParser.methodOf, htake]

/-- Of the memory, the parser and the request only see the C string and its NUL, if the bytes up to `len`
reach the NUL or the parser stops without it. -/
theorem parse_cString (p : RequestParser) (req : Request) {rest : Bytes} {len : Nat} (hnul : 0 ∉ t)
    (hlen : t.length < len ∨ len = t.length ∧
      (RequestParser.machine.run (p, RequestParser.parseMethod { req with body := t } t) t).verdict ≠ .more) :
    p.parse req (t ++ 0 :: rest) len = p.parse req (t ++ [0]) (t.length + 1) := by
  have hstart : ∀ after : Bytes,
      RequestParser.parseMethod { req with body := cString (t ++ 0 :: after) } (t ++ 0 :: after) =
        RequestParser.parseMethod { req with body := t } t := by
    intro after
    rw [cString_nul_cons hnul, RequestParser.parseMethod, RequestParser.parseMethod,
      ← methodOf_cString (t ++ 0 :: after), cString_nul_cons hnul]
  rw [RequestParser.parse_eq_run, RequestParser.parse_eq_run, hstart rest, hstart []]
  have hfull : (t ++ [0]).take (t.length + 1) = t ++ [0] := List.take_of_length_le (by simp)
  rw [hfull]
  rcases hlen with hlen | ⟨rfl, hstop⟩
  · -- the NUL is within the bytes the parser may read
    obtain ⟨after, htake⟩ : ∃ after, (t ++ 0 :: rest).take len = t ++ 0 :: after := by
      refine ⟨rest.take (len - t.length - 1), ?_⟩
      rw [List.take_append, List.take_of_length_le (by omega)]
      obtain ⟨k, hk⟩ : ∃ k, len - t.length = k + 1 := ⟨len - t.length - 1, by omega⟩
      rw [hk, List.take_succ_cons, Nat.add_sub_cancel]
    rw [htake, RequestParser.run_append_nul]
  · rw [List.take_left, Recognizer.run_append_of_stop hstop]

/-- A parser that comes to the NUL has stopped. -/
theorem parse_nul_ne_indeterminate (p : RequestParser) (req : Request) (t : Bytes) :
    (p.parse req (t ++ [0]) (t.length + 1)).result ≠ .indeterminate := by
  have hfull : (t ++ [0]).take (t.length + 1) = t ++ [0] := List.take_of_length_le (by simp)
  rw [RequestParser.parse_eq_run, hfull]
  exact fun h =>
    RequestParser.run_append_nul_ne_more _ t [] (RequestParser.ofVerdict_eq_indeterminate.mp h)

/-- `parse`, where the memory holds a C string that it does not read past. -/
theorem parse_of_memory {after : Bytes} {len : Nat} (hmemory : s.memory = t ++ 0 :: after) (hnul : 0 ∉ t)
    (hlen : t.length < len ∨ len = t.length ∧
      (RequestParser.machine.run (s.requestParser, RequestParser.parseMethod { s.request with body := t } t)
        t).verdict ≠ .more) :
    let out := s.requestParser.parse s.request (t ++ [0]) (t.length + 1)
    s.parse len = (out.result, { s with request := out.request, requestParser := out.parser }) := by
  intro out
  have hparse : s.requestParser.parse s.request s.memory len = out := by
    rw [hmemory]
    exact parse_cString s.requestParser s.request hnul hlen
  rw [parse, hparse]

/-- Where the bytes read determine the text at `data_`, they determine what the parser answers and leaves in
the request. -/
theorem parseRead_ownText (hread : x <+: s.data) (hstate : s.requestParser.state = .methodStart)
    (hheaders : s.request.headers.isEmpty = true) (hown : ownText x = some t) :
    let out := s.requestParser.parse s.request (t ++ [0]) (t.length + 1)
    ∃ s', s.parseRead x.length = .ok (out.result, s') ∧ s'.request = out.request := by
  intro out
  obtain ⟨h2, ⟨hend, hmem, rfl⟩ | ⟨hend, hfits, rfl⟩⟩ := ownText_eq_some.mp hown
  · obtain ⟨rest, hx⟩ := exists_eq_cString_append hmem
    obtain ⟨after, hmemory⟩ := memory_of_read hread
    rw [hx, List.append_assoc, List.cons_append] at hmemory
    have hlen := length_lt_of_eq_nul_append hx
    rw [parseRead_formatted hread h2 hend, parse_of_memory hmemory (zero_notMem_cString x) (Or.inl hlen)]
    exact ⟨_, rfl, rfl⟩
  · have hmemory := memory_overwrite s (x := cString (formatString x) ++ [0]) (by simpa using hfits hend)
    rw [List.append_assoc, List.singleton_append] at hmemory
    have hlen : (cString (formatString x)).length < (formatString x).length ∨
        (formatString x).length = (cString (formatString x)).length ∧
          (RequestParser.machine.run (s.requestParser, RequestParser.parseMethod
            { s.request with body := cString (formatString x) } (cString (formatString x)))
              (cString (formatString x))).verdict ≠ .more := by
      by_cases hmem : 0 ∈ formatString x
      · obtain ⟨rest, hrest⟩ := exists_eq_cString_append hmem
        exact Or.inl (length_lt_of_eq_nul_append hrest)
      · rw [cString_of_notMem hmem]
        exact Or.inr ⟨rfl, run_formatString_ne_more hstate hheaders (by rintro rfl; simp at h2)⟩
    rw [parseRead_reformatted hread h2 hend hfits, parse_of_memory hmemory (zero_notMem_cString _) hlen]
    exact ⟨_, rfl, rfl⟩

/-- The body that a read leaves in the request. -/
theorem parseRead_body {out : ResultType × Session} (hread : x <+: s.data)
    (hparse : s.parseRead x.length = .ok out) :
    out.2.request.body = (ownText x).getD (cString s.memory) := by
  by_cases h2 : 2 ≤ x.length
  · by_cases hend : crlf <:+ x
    · rw [parseRead_formatted hread h2 hend] at hparse
      obtain rfl := Except.ok.inj hparse
      refine (RequestParser.parse_body _ _ _ _).trans ?_
      by_cases hmem : 0 ∈ x
      · obtain ⟨after, hmemory⟩ := memory_of_read hread
        rw [ownText_eq_some.mpr ⟨h2, Or.inl ⟨hend, hmem, rfl⟩⟩, hmemory, cString_eq_of_mem hmem]
        rfl
      · rw [ownText_eq_none.mpr (Or.inr (Or.inl ⟨hend, hmem⟩))]
        rfl
    · by_cases hfits : Fits x
      · rw [parseRead_reformatted hread h2 hend hfits] at hparse
        obtain rfl := Except.ok.inj hparse
        refine (RequestParser.parse_body _ _ _ _).trans ?_
        rw [ownText_eq_some.mpr ⟨h2, Or.inr ⟨hend, hfits, rfl⟩⟩, memory_overwrite s (by simpa using hfits hend),
          List.append_assoc, List.singleton_append, cString_nul_cons (zero_notMem_cString _)]
        rfl
      · rw [parseRead_overflow hread h2 hfits] at hparse
        cases hparse
  · rw [parseRead_short hread (by omega)] at hparse
    cases hparse

end Session

end WebServer
