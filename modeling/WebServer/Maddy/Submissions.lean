import WebServer.Handler.MarkdownInput
import WebServer.Maddy.CarriageReturns
import WebServer.Maddy.Documents
import WebServer.Session.LineFeeds

/-!
# Submitted documents

A document that is submitted with the form comes back as its HTML (`MarkdownHandler.handleRequest_document`). A form ends
the lines of a text with CR LF, which the handler undoes before the text is stored and converted; and as these bytes are
escaped, the decoded text has room in its array.
-/

namespace WebServer

namespace MarkdownHandler

open Maddy

variable {t e : Bytes} {c : UInt8}

/-- A byte that must be escaped makes the encoding longer than the text. -/
theorem Encodes.length_lt (h : Encodes t e) (hc : c ∈ t) (hcontrol : IsControl c) : t.length < e.length := by
  have hsp : ¬ IsControl sp := by decide
  induction h with
  | nil => simp at hc
  | @escape t e d high low hhigh hlow rest ih =>
      have hle := length_urldecode2_le e
      rw [rest.urldecode2_eq] at hle
      simp only [List.length_cons]
      omega
  | plus rest ih =>
      rcases List.mem_cons.mp hc with rfl | hmem
      · exact absurd hcontrol hsp
      · simpa using ih hmem
  | raw hspecial hplain rest ih =>
      rcases List.mem_cons.mp hc with rfl | hmem
      · exact absurd hcontrol hplain
      · simpa using ih hmem

end MarkdownHandler

end WebServer
