import WebServer.Handler.MarkdownHandler
import WebServer.Http.Grammar

/-!
# Submitted texts

The text of a submission comes as a form encodes it. The handler cuts it out of the request and decodes it, whichever
of the encodings of a byte the client has chosen (`cleanedInput_encoded`). The array for the decoded text has room for a
NUL behind it only if there is an escape to shorten the text (`urldecode2_fits_iff`).
-/

namespace WebServer

namespace MarkdownHandler

variable {t e text rest : Bytes} {c a b : UInt8}

/-! ### The encoding -/

/-- A hexadecimal digit of a number, in either letter case. -/
def HexDigit (n : Nat) (d : UInt8) : Prop :=
  n < 10 ∧ d.toNat = (ch '0').toNat + n ∨ 10 ≤ n ∧ n < 16 ∧
    (d.toNat = (ch 'A').toNat + (n - 10) ∨ d.toNat = (ch 'a').toNat + (n - 10))

instance (n : Nat) (d : UInt8) : Decidable (HexDigit n d) := inferInstanceAs (Decidable (_ ∨ _))

/-- The second text is a form encoding of the first. -/
inductive Encodes : Bytes → Bytes → Prop
  | nil : Encodes [] []
  | escape {t e : Bytes} (c : UInt8) {high low : UInt8} (hhigh : HexDigit (c.toNat / 16) high)
      (hlow : HexDigit (c.toNat % 16) low) (rest : Encodes t e) : Encodes (c :: t) (ch '%' :: high :: low :: e)
  | plus {t e : Bytes} (rest : Encodes t e) : Encodes (sp :: t) (ch '+' :: e)
  | raw {t e : Bytes} {c : UInt8} (hspecial : c ≠ ch '%' ∧ c ≠ ch '+' ∧ c ≠ sp) (hcontrol : ¬ IsControl c)
      (rest : Encodes t e) : Encodes (c :: t) (c :: e)

theorem HexDigit.value {n : Nat} {d : UInt8} (h : HexDigit n d) : isXDigit d = true ∧ (hexValue d).toNat = n := by
  have hall : ∀ n < 16, ∀ d : UInt8, HexDigit n d → isXDigit d = true ∧ (hexValue d).toNat = n := by decide +kernel
  refine hall n ?_ d h
  rcases h with ⟨hn, -⟩ | ⟨-, hn, -⟩
  · omega
  · exact hn

theorem urldecode2_escape (ha : isXDigit a = true) (hb : isXDigit b = true) (rest : Bytes) :
    urldecode2 (ch '%' :: a :: b :: rest) = (16 * hexValue a + hexValue b) :: urldecode2 rest := by
  rw [urldecode2, if_pos ⟨rfl, ha, hb⟩]

theorem urldecode2_plain (hc : c ≠ ch '%') (rest : Bytes) : urldecode2 (c :: rest) = plainChar c :: urldecode2 rest := by
  rcases rest with _ | ⟨a, _ | ⟨b, rest⟩⟩
  · rfl
  · rfl
  · rw [urldecode2, if_neg fun h => hc h.1]

theorem add_digits (ha : a.toNat = c.toNat / 16) (hb : b.toNat = c.toNat % 16) : 16 * a + b = c := by
  apply UInt8.toNat_inj.mp
  rw [UInt8.toNat_add, UInt8.toNat_mul, ha, hb]
  have hlt := c.toNat_lt
  show (16 * (c.toNat / 16) % 256 + c.toNat % 16) % 256 = c.toNat
  omega

/-- **The decoder undoes every form encoding.** -/
theorem Encodes.urldecode2_eq (h : Encodes t e) : urldecode2 e = t := by
  induction h with
  | nil => rfl
  | escape c hhigh hlow _ ih =>
      obtain ⟨hhighDigit, hhighValue⟩ := hhigh.value
      obtain ⟨hlowDigit, hlowValue⟩ := hlow.value
      rw [urldecode2_escape hhighDigit hlowDigit, add_digits hhighValue hlowValue, ih]
  | plus _ ih => rw [urldecode2_plain (by decide), ih, plainChar, if_pos rfl]
  | raw hspecial _ _ ih => rw [urldecode2_plain hspecial.1, ih, plainChar, if_neg hspecial.2.1]

theorem Encodes.sp_notMem (h : Encodes t e) : sp ∉ e := by
  have hdigit : ∀ {n d}, HexDigit n d → sp ≠ d := by
    rintro n d hd rfl
    have hspace := hd.value.1
    revert hspace
    decide
  have hpercent : sp ≠ ch '%' := by decide
  have hplus : sp ≠ ch '+' := by decide
  induction h with
  | nil => simp
  | escape c hhigh hlow _ ih => simp [hpercent, hdigit hhigh, hdigit hlow, ih]
  | plus _ ih => simp [hplus, ih]
  | raw hspecial _ _ ih => simp [hspecial.2.2.symm, ih]

/-! ### The place in the request -/

theorem idxOf?_append_cons (h : c ∉ text) (rest : Bytes) : (text ++ c :: rest).idxOf? c = some text.length := by
  induction text with
  | nil => simp [List.idxOf?_cons]
  | cons d text ih =>
      have hd : d ≠ c := fun he => h (by simp [he])
      have htext : c ∉ text := fun hmem => h (by simp [hmem])
      rw [List.cons_append, List.idxOf?_cons, if_neg (by simpa using hd), ih htext]
      rfl

/-- The target of a form in front of its text. -/
def formTarget : Bytes := bytes "/markdown/view?markdown_input="

/-- The text is found between the first equals sign behind the method and the next space. -/
theorem input_form {method : Bytes} (hmethod : sp ∉ method) (he : sp ∉ e) (rest : Bytes) :
    input (method ++ sp :: (formTarget ++ (e ++ sp :: rest))) = e := by
  have hname : formTarget = bytes "/markdown/view?markdown_input" ++ [ch '='] := by decide
  have hequals : (formTarget ++ (e ++ sp :: rest)).idxOf? (ch '=') = some (formTarget.length - 1) := by
    rw [hname, List.append_assoc]
    exact idxOf?_append_cons (by decide) _
  have hspace : (formTarget ++ (e ++ sp :: rest)).idxOf? sp = some (formTarget.length + e.length) := by
    have htarget : sp ∉ formTarget := by decide
    rw [← List.append_assoc, idxOf?_append_cons (by simp [htarget, he]), List.length_append]
  have hstart : formTarget.length - 1 + 1 = formTarget.length := rfl
  have hdrop : (method ++ sp :: (formTarget ++ (e ++ sp :: rest))).drop (method.length + 1) =
      formTarget ++ (e ++ sp :: rest) := by
    rw [← List.drop_drop, List.drop_left]
    rfl
  unfold input
  rw [idxOf?_append_cons hmethod]
  simp only [Option.elim_some, hdrop, hequals, hspace, hstart]
  rw [if_neg (by omega), List.drop_left, Nat.add_sub_cancel_left, List.take_left]

/-! ### The array -/

/-- The text has a byte that is written as an escape. -/
def HasEscape (text : Bytes) : Prop := ∃ a b, (isXDigit a = true ∧ isXDigit b = true) ∧ [ch '%', a, b] <:+: text

theorem hasEscape_cons (hno : ∀ a b, isXDigit a = true → isXDigit b = true → ¬ [ch '%', a, b] <+: c :: rest) :
    HasEscape (c :: rest) ↔ HasEscape rest := by
  unfold HasEscape
  refine exists_congr fun a => exists_congr fun b => and_congr_right fun hdigits => ?_
  rw [List.infix_cons_iff, or_iff_right (hno a b hdigits.1 hdigits.2)]

theorem length_urldecode2_le (text : Bytes) : (urldecode2 text).length ≤ text.length := by
  fun_induction urldecode2 text <;> simp only [List.length_cons, List.length_nil] at * <;> omega

/-- Only an escape makes the text shorter. -/
theorem length_urldecode2_lt_iff (text : Bytes) : (urldecode2 text).length < text.length ↔ HasEscape text := by
  fun_induction urldecode2 text with
  | case1 c a b rest hescape ih =>
      have hle := length_urldecode2_le rest
      refine iff_of_true ?_ ⟨a, b, hescape.2, ?_⟩
      · simp only [List.length_cons]
        omega
      · rw [hescape.1]
        exact (List.prefix_append [ch '%', a, b] rest).isInfix
  | case2 c a b rest hplain ih =>
      have hno : ∀ x y, isXDigit x = true → isXDigit y = true → ¬ [ch '%', x, y] <+: c :: a :: b :: rest := by
        intro x y hx hy hpre
        simp only [List.cons_prefix_cons, List.nil_prefix, and_true] at hpre
        obtain ⟨rfl, rfl, rfl⟩ := hpre
        exact hplain ⟨rfl, hx, hy⟩
      rw [hasEscape_cons hno, ← ih, List.length_cons, List.length_cons, Nat.add_lt_add_iff_right]
  | case3 c rest hshort ih =>
      have hno : ∀ x y, isXDigit x = true → isXDigit y = true → ¬ [ch '%', x, y] <+: c :: rest := by
        intro x y _ _ hpre
        obtain ⟨more, hmore⟩ := hpre
        exact hshort x y more (List.cons.inj hmore).2.symm
      rw [hasEscape_cons hno, ← ih, List.length_cons, List.length_cons, Nat.add_lt_add_iff_right]
  | case4 => simp [HasEscape]

/-- **When the decoded text fits in its array**: when there is an escape in the text. -/
theorem urldecode2_fits_iff (mem : Bytes) :
    (urldecode2 (input (cString mem))).length + 1 ≤ (input (cString mem)).length ↔
      HasEscape (input (cString mem)) :=
  length_urldecode2_lt_iff (input (cString mem))

/-- A text of one byte is decoded into two, with the NUL. -/
theorem plainText_not_fits :
    input (cString (bytes "GET /markdown/view?markdown_input=a HTTP/1.1\r\n\r\n")) = bytes "a" ∧
      ¬ (urldecode2 (input (cString (bytes "GET /markdown/view?markdown_input=a HTTP/1.1\r\n\r\n")))).length + 1 ≤
        (input (cString (bytes "GET /markdown/view?markdown_input=a HTTP/1.1\r\n\r\n"))).length := by
  decide +kernel

/-! ### What is stored -/

/-- What `viewMarkdown` does with a text. -/
def submit (db : Database) (parseMarkdown : Bytes → Bytes) (text : Bytes) : Except Fault Reply :=
  match db.insertMarkdown text with
  | none => .error .handlerFailed
  | some _ => .ok (Reply.withBody StatusCode.ok (bytes "text/html") (parseMarkdown text) (parseMarkdown text).length)

/-- The text that `viewMarkdown` stores and converts, if its array is large enough. -/
theorem viewMarkdown_eq (db : Database) (parseMarkdown : Bytes → Bytes) (req : Request) :
    viewMarkdown db parseMarkdown req =
      if (input req.body).length < (urldecode2 (input req.body)).length + 1 then .error .bufferOverflow
      else submit db parseMarkdown (cleanedInput (input req.body)) := rfl

/-- **A submitted text is stored as it was**, but for the carriage returns in front of line feeds, in whichever form
encoding it is sent. Only a text without escapes does not get that far: there is no room for it in the array. -/
theorem cleanedInput_encoded (t e method : Bytes) (hnul : 0 ∉ t) (hencodes : Encodes t e)
    (hmethod : method ≠ [] ∧ ∀ c ∈ method, IsTokenByte c) (req : Request)
    (hbody : method ++ sp :: (bytes "/markdown/view?markdown_input=" ++ (e ++ [sp])) <+: req.body) :
    cleanedInput (input req.body) = replaceAll t crlf [lf] ∧
      ∀ db parseMarkdown,
        (HasEscape e → viewMarkdown db parseMarkdown req = submit db parseMarkdown (replaceAll t crlf [lf])) ∧
        (¬ HasEscape e → viewMarkdown db parseMarkdown req = .error .bufferOverflow) := by
  obtain ⟨rest, hrest⟩ := hbody
  have hsp : sp ∉ method := fun hmem => absurd (hmethod.2 sp hmem) (by decide)
  have hinput : input req.body = e := by
    rw [← hrest, List.append_assoc, List.cons_append, List.append_assoc, List.append_assoc]
    exact input_form hsp hencodes.sp_notMem rest
  have hcleaned : cleanedInput (input req.body) = replaceAll t crlf [lf] := by
    rw [hinput, cleanedInput, hencodes.urldecode2_eq, cString_of_notMem hnul]
  have hroom : (input req.body).length < (urldecode2 (input req.body)).length + 1 ↔ ¬ HasEscape e := by
    rw [hinput, ← length_urldecode2_lt_iff]
    omega
  refine ⟨hcleaned, fun db parseMarkdown => ?_⟩
  rw [viewMarkdown_eq, hcleaned]
  exact ⟨fun hescape => if_neg fun hshort => hroom.mp hshort hescape, fun hplain => if_pos (hroom.mpr hplain)⟩

/-- A request with a submission of four bytes, three of them encoded. -/
def formRequest : Request :=
  { Request.fresh .getReq 1 1 with
    body := bytes "GET /markdown/view?markdown_input=+%0d%0Aa HTTP/1.1\r\n\r\n" }

theorem encodes_formRequest : Encodes [sp, cr, lf, ch 'a'] (bytes "+%0d%0Aa") := by
  have htext : bytes "+%0d%0Aa" = [ch '+', ch '%', ch '0', ch 'd', ch '%', ch '0', ch 'A', ch 'a'] := rfl
  rw [htext]
  have hcr : HexDigit (cr.toNat / 16) (ch '0') ∧ HexDigit (cr.toNat % 16) (ch 'd') := by decide +kernel
  have hlf : HexDigit (lf.toNat / 16) (ch '0') ∧ HexDigit (lf.toNat % 16) (ch 'A') := by decide +kernel
  exact .plus (.escape cr hcr.1 hcr.2 (.escape lf hlf.1 hlf.2 (.raw (by decide) (by decide) .nil)))

theorem formMethod_ok : bytes "GET" ≠ [] ∧ ∀ c ∈ bytes "GET", IsTokenByte c := by decide +kernel

theorem cleanedInput_formRequest :
    cleanedInput (input formRequest.body) = replaceAll [sp, cr, lf, ch 'a'] crlf [lf] ∧
      ∀ db parseMarkdown,
        (HasEscape (bytes "+%0d%0Aa") →
          viewMarkdown db parseMarkdown formRequest = submit db parseMarkdown (replaceAll [sp, cr, lf, ch 'a'] crlf [lf])) ∧
        (¬ HasEscape (bytes "+%0d%0Aa") → viewMarkdown db parseMarkdown formRequest = .error .bufferOverflow) :=
  cleanedInput_encoded [sp, cr, lf, ch 'a'] (bytes "+%0d%0Aa") (bytes "GET") (by decide) encodes_formRequest
    formMethod_ok formRequest ⟨bytes "HTTP/1.1\r\n\r\n", rfl⟩

end MarkdownHandler

end WebServer
