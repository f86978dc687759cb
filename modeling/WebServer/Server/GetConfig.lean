import WebServer.Config.Safety
import WebServer.Lib.Preorder
import WebServer.Server.Port

/-!
# What `GetConfig` finds

A config that `Parse` has built, even of a file that it rejects, has no empty statement and no empty token (`Built.proper`,
`Built.word_ne_nil`). In such a config the empty string is no value, so `GetConfig`, which takes it for one that has not
been found, returns the token behind the first place of the key, in pre-order (`getConfig_firstBehind`).
-/

namespace WebServer

open Lib

namespace NginxConfigParser

/-- The configs that `Parse` builds, from an empty one, by one call or by several. -/
inductive Built : NginxConfig → Prop
  | empty : Built []
  | parse (config : NginxConfig) (input : Bytes) : Built config → Built (parseInto config input).2

/-- The config that a call leaves is that of a builder that has read some of the tokens behind the config that was there. -/
theorem parseInto_config (config : NginxConfig) (input : Bytes) :
    ∃ b : Builder Bytes, ∃ read : List (Lexeme Bytes), read ⊆ (tokens input).1 ∧
      b.text = configLexemes config ++ read ∧ (Proper config → b.Ok) ∧ (parseInto config input).2 = builtConfig b := by
  obtain ⟨b, hrun, hconfig⟩ := parseLoop_config (simulates_startOn config) (input.length + 1) input
  obtain ⟨htext, hok⟩ := Builder.run_spec hrun
  refine ⟨b, _, Builder.readable_subset ⟨[], config, []⟩ (tokens input).1, ?_, fun hproper => hok ⟨hproper, by simp⟩, hconfig⟩
  rw [htext]
  simp [Builder.text, tokens]

theorem Built.proper {config : NginxConfig} (h : Built config) : Proper config := by
  induction h with
  | empty => exact .nil
  | parse config input _ ih =>
      obtain ⟨b, _, -, -, hok, hconfig⟩ := parseInto_config config input
      rw [hconfig]
      exact proper_builtConfig (hok ih)

/-- No token is empty. -/
theorem Built.word_ne_nil {config : NginxConfig} (h : Built config) : ∀ v, .word v ∈ configLexemes config → v ≠ [] := by
  induction h with
  | empty => exact fun v hv => absurd hv (List.not_mem_nil)
  | parse config input _ ih =>
      intro v hv
      obtain ⟨b, read, hread, htext, -, hconfig⟩ := parseInto_config config input
      obtain ⟨marks, hmarks, hlexemes⟩ := configLexemes_builtConfig b
      rw [hconfig, hlexemes, htext, List.append_assoc] at hv
      rcases List.mem_append.mp hv with hv | hv
      · exact ih v hv
      rcases List.mem_append.mp hv with hv | hv
      · exact (isToken_of_mem_tokens input v (hread hv)).ne_nil
      · exact absurd rfl (hmarks _ hv v)

/-- **`GetConfig` returns the first match in document order**: the token behind the first place of the key in the statements,
in pre-order, that has a token behind it in its statement, and the empty string if there is no such place. -/
theorem getConfig_firstBehind {config : NginxConfig} (h : Built config) {key : Bytes} (hkey : key ≠ []) :
    (∀ place value, FirstBehind (configRows config) key place value → NginxConfig.getConfig key config = value) ∧
      (NginxConfig.getConfig key config = [] ↔ ∀ place value, ¬ Behind (configRows config) key place value) ∧
      (NginxConfig.getConfig key config ≠ [] →
        ∃ place, FirstBehind (configRows config) key place (NginxConfig.getConfig key config)) := by
  have hfinds := getConfig_eq hkey h.proper h.word_ne_nil
  have hrows : wordBehind key none (configLexemes config) = rowsBehind key (configRows config) :=
    wordBehind_configLexemes h.proper
  cases hvalue : rowsBehind key (configRows config) with
  | none =>
      rw [hrows, hvalue, Option.getD_none] at hfinds
      have hnone := rowsBehind_eq_none.mp hvalue
      refine ⟨fun place value hfirst => absurd hfirst.1 (hnone place value), ?_, fun hne => absurd hfinds hne⟩
      exact iff_of_true hfinds hnone
  | some value =>
      rw [hrows, hvalue, Option.getD_some] at hfinds
      obtain ⟨place, hfirst⟩ := rowsBehind_eq_some.mp hvalue
      have hne : value ≠ [] := h.word_ne_nil value (mem_of_wordBehind (hrows.trans hvalue))
      rw [hfinds]
      refine ⟨fun place' value' hfirst' => hfirst.value_eq hfirst', ?_, fun _ => ⟨place, hfirst⟩⟩
      exact iff_of_false hne fun hnone => hnone place value hfirst.1

/-- The port in the block comes before the one behind it. -/
theorem getConfig_firstBehind_port :
    NginxConfig.getConfig (bytes "port") (parseInto [] (bytes "server \x7b port 80; \x7d port 90;")).2 = bytes "80" ∧
      ∃ place, FirstBehind (configRows (parseInto [] (bytes "server \x7b port 80; \x7d port 90;")).2) (bytes "port") place
        (bytes "80") := by
  have hport : bytes "port" ≠ [] := by decide
  have hvalue : NginxConfig.getConfig (bytes "port") (parseInto [] (bytes "server \x7b port 80; \x7d port 90;")).2 =
      bytes "80" := by rfl
  obtain ⟨-, -, hfirst⟩ :=
    getConfig_firstBehind (.parse [] (bytes "server \x7b port 80; \x7d port 90;") .empty) hport
  rw [hvalue] at hfirst
  exact ⟨hvalue, hfirst (by decide)⟩

end NginxConfigParser

end WebServer
