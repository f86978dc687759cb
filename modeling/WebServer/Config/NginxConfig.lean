import WebServer.Bytes
import WebServer.Lib.BlockSyntax

/-!
# Configs

`NginxConfig` and `NginxConfigStatement`, the parsed form of a config file, and `ToString`, which writes it
as text. A config is its `statements_`, and a statement is a `Lib.Statement`: its `tokens_`, and a
`child_block_` that is null for a simple statement.
-/

namespace WebServer

open Lib

abbrev NginxConfigStatement := Statement Bytes

abbrev NginxConfig := List NginxConfigStatement

/-- Two spaces for every level. -/
def indent (depth : Nat) : Bytes := (List.replicate depth (bytes "  ")).flatten

/-- The tokens with a space between them. -/
def joinTokens : List Bytes → Bytes
  | [] => []
  | token :: rest => token ++ rest.flatMap fun t => sp :: t

mutual

/-- `NginxConfigStatement::ToString`. -/
def NginxConfigStatement.toText : NginxConfigStatement → Nat → Bytes
  | ⟨tokens, childBlock⟩, depth =>
    indent depth ++ (joinTokens tokens ++ (NginxConfigStatement.endText childBlock depth ++ [lf]))
termination_by structural s => s

/-- The part of `NginxConfigStatement::ToString` behind the tokens, up to the line feed. -/
def NginxConfigStatement.endText : Option NginxConfig → Nat → Bytes
  | none, _ => bytes ";"
  | some child, depth =>
    bytes " \x7b\n" ++ (NginxConfig.toText child (depth + 1) ++ (indent depth ++ bytes "\x7d"))
termination_by structural childBlock => childBlock

/-- `NginxConfig::ToString`. -/
def NginxConfig.toText : NginxConfig → Nat → Bytes
  | [], _ => []
  | statement :: rest, depth => NginxConfigStatement.toText statement depth ++ NginxConfig.toText rest depth
termination_by structural config => config

end

example :
    NginxConfig.toText [⟨[bytes "outer_token"], some [⟨[bytes "inner_token"], none⟩]⟩] 0 =
      bytes "outer_token \x7b\n  inner_token;\n\x7d\n" := by
  decide

end WebServer
