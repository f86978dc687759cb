import WebServer.Session.HandleRead

/-!
# What of the memory shows in a reply

`data_` is never initialised, and the body of a request is the C string at its start. So where the bytes of a
read do not fix that string, the body runs on into the rest of `data_` and what lies behind it
(`not_readOnly_of_open`), and an echo handler sends it out.
-/

namespace WebServer

open Lib

namespace Session

variable {x : Bytes}

/-- The bytes `x` of a read are all that a call of `handle_read` on them depends on: from two new sessions with anything
else in their memory, the parser sets the same body, and with every handler the calls do the same. -/
def ReadOnly (x : Bytes) : Prop :=
  ∀ (method : MethodType) (major minor : Int32) (data₁ beyond₁ data₂ beyond₂ : Bytes)
    (hdata₁ : data₁.length = maxLength) (hdata₂ : data₂.length = maxLength), x <+: data₁ → x <+: data₂ →
    (∃ result s₁ s₂,
      (fresh data₁ beyond₁ hdata₁ method major minor).parseRead x.length = .ok (result, s₁) ∧
      (fresh data₂ beyond₂ hdata₂ method major minor).parseRead x.length = .ok (result, s₂) ∧
      s₁.request.body = s₂.request.body) ∧
    ∀ (dispatch : Dispatch) (depth : Nat) (st : Statics),
      (handleRead dispatch depth (fresh data₁ beyond₁ hdata₁ method major minor) false x.length st).map
          Handled.observe =
        (handleRead dispatch depth (fresh data₂ beyond₂ hdata₂ method major minor) false x.length st).map
          Handled.observe

/-! ### Reads that run on into the memory behind them -/

/-- A read that ends in a line end and has no NUL: the body runs on. -/
theorem not_readOnly_of_open (hlen : x.length ≤ maxLength) (hend : crlf <:+ x) (hnul : 0 ∉ x) : ¬ ReadOnly x := by
  intro h
  have hdata : ∀ c : UInt8, (x ++ List.replicate (maxLength - x.length) c).length = maxLength := by
    intro c
    rw [List.length_append, List.length_replicate]
    omega
  have hread : ∀ c : UInt8, x <+: x ++ List.replicate (maxLength - x.length) c := fun c => List.prefix_append _ _
  have hown : ownText x = none := ownText_eq_none.mpr (Or.inr (Or.inl ⟨hend, hnul⟩))
  -- the same read, with NULs behind it and with something else
  obtain ⟨⟨result, s₁, s₂, hparse₁, hparse₂, hbody⟩, -⟩ :=
    h .getReq 0 0 _ [] _ [1] (hdata 0) (hdata 1) (hread 0) (hread 1)
  have hbody₁ := parseRead_body (s := fresh _ [] (hdata 0) .getReq 0 0) (hread 0) hparse₁
  have hbody₂ := parseRead_body (s := fresh _ [1] (hdata 1) .getReq 0 0) (hread 1) hparse₂
  rw [hbody₁, hbody₂, hown] at hbody
  simp only [Option.getD_none, memory, fresh, List.append_assoc, cString_append hnul,
    List.append_cancel_left_eq] at hbody
  cases maxLength - x.length <;> simp +decide [cString] at hbody

theorem not_readOnly_of_not_fits (h2 : 2 ≤ x.length) (hlen : x.length ≤ maxLength) (hfits : ¬ Fits x) :
    ¬ ReadOnly x := by
  intro h
  have hdata : (x ++ List.replicate (maxLength - x.length) 0).length = maxLength := by
    rw [List.length_append, List.length_replicate]
    omega
  have hread : x <+: x ++ List.replicate (maxLength - x.length) 0 := List.prefix_append _ _
  obtain ⟨⟨result, s₁, s₂, hparse, -, -⟩, -⟩ := h .getReq 0 0 _ [] _ [] hdata hdata hread hread
  rw [parseRead_overflow (s := fresh _ [] hdata .getReq 0 0) hread h2 hfits] at hparse
  cases hparse

/-! ### Reads that do not -/

theorem readOnly_of_ownText {t : Bytes} (hown : ownText x = some t) : ReadOnly x := by
  intro method major minor data₁ beyond₁ data₂ beyond₂ hdata₁ hdata₂ hx₁ hx₂
  have hfresh₁ := fresh_fresh data₁ beyond₁ hdata₁ method major minor
  have hfresh₂ := fresh_fresh data₂ beyond₂ hdata₂ method major minor
  have hread₂ : x <+: (fresh data₂ beyond₂ hdata₂ method major minor).data := hx₂
  obtain ⟨s₁, hparse₁, hrequest₁⟩ := parseRead_ownText hx₁ hfresh₁.state_eq hfresh₁.headers_isEmpty hown
  obtain ⟨s₂, hparse₂, hrequest₂⟩ := parseRead_ownText hread₂ hfresh₂.state_eq hfresh₂.headers_isEmpty hown
  refine ⟨⟨_, s₁, s₂, hparse₁, hparse₂, ?_⟩, fun dispatch depth st => ?_⟩
  · rw [hrequest₁, hrequest₂]
    rfl
  · exact handleRead_congr hx₁ hread₂ hfresh₁ rfl rfl hown hown dispatch depth st

/-- **A call of `handle_read` depends on the read alone** if and only if the read ends in a line end and
holds a NUL, or does not end in one and has room for its reformatted text. -/
theorem readOnly_iff (h2 : 2 ≤ x.length) (hlen : x.length ≤ maxLength) :
    ReadOnly x ↔
      (crlf <:+ x ∧ 0 ∈ x) ∨ (¬ crlf <:+ x ∧ (cString (formatString x)).length + 1 ≤ maxLength) := by
  constructor
  · intro h
    by_cases hend : crlf <:+ x
    · refine Or.inl ⟨hend, ?_⟩
      by_contra hnul
      exact not_readOnly_of_open hlen hend hnul h
    · refine Or.inr ⟨hend, ?_⟩
      by_contra hroom
      exact not_readOnly_of_not_fits h2 hlen (fun hfits => hroom (hfits hend)) h
  · rintro (⟨hend, hnul⟩ | ⟨hend, hroom⟩)
    · exact readOnly_of_ownText (ownText_eq_some.mpr ⟨h2, Or.inl ⟨hend, hnul, rfl⟩⟩)
    · exact readOnly_of_ownText (ownText_eq_some.mpr ⟨h2, Or.inr ⟨hend, fun _ => hroom, rfl⟩⟩)

/-- A request as clients send it. -/
def getRequest : Bytes := bytes "GET /echo HTTP/1.1\r\n\r\n"

theorem readOnly_getRequest :
    ReadOnly getRequest ↔
      (crlf <:+ getRequest ∧ 0 ∈ getRequest) ∨
        (¬ crlf <:+ getRequest ∧ (cString (formatString getRequest)).length + 1 ≤ maxLength) :=
  readOnly_iff (by decide) (by decide)

theorem getRequest_not_readOnly :
    2 ≤ getRequest.length ∧ getRequest.length ≤ maxLength ∧ ¬ ReadOnly getRequest :=
  ⟨by decide, by decide, not_readOnly_of_open (by decide) (by decide) (by decide)⟩

end Session

end WebServer
