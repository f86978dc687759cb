import WebServer.Config.NginxConfig

/-!
# The config parser

`NginxConfigParser`: `ParseToken` cuts a token off the input, and `Parse` builds the tree in one loop over
the tokens. The loop keeps a stack of pointers to the configs whose blocks are open; a pointer is the path to
the config it points to, the index of a statement for every block on the way.
-/

namespace WebServer

open Lib

namespace NginxConfigParser

inductive TokenType
  | start | normal | startBlock | endBlock | comment | statementEnd | eof | error
  deriving DecidableEq, Repr

inductive TokenParserState
  | initialWhitespace | singleQuote | doubleQuote | tokenTypeComment | tokenTypeNormal
  deriving DecidableEq, Repr

/-! ### Tokens -/

abbrev openBrace : UInt8 := 123
abbrev closeBrace : UInt8 := 125
abbrev hash : UInt8 := ch '#'
abbrev doubleQuote : UInt8 := 34
abbrev singleQuote : UInt8 := 39
abbrev semicolon : UInt8 := ch ';'

/-- The type and the value of a token, and the input behind it. -/
structure ParsedToken where
  type : TokenType
  value : Bytes
  rest : Bytes
  deriving DecidableEq

/-- The character loop of `ParseToken`, with the code behind it for the end of the input. -/
def parseTokenLoop : TokenParserState → Bytes → Bytes → ParsedToken
  | state, value, [] =>
    if state = .singleQuote ∨ state = .doubleQuote then ⟨.error, value, []⟩ else ⟨.eof, value, []⟩
  | .initialWhitespace, value, c :: rest =>
    if c = openBrace then ⟨.startBlock, [c], rest⟩
    else if c = closeBrace then ⟨.endBlock, [c], rest⟩
    else if c = hash then parseTokenLoop .tokenTypeComment [c] rest
    else if c = doubleQuote then parseTokenLoop .doubleQuote [c] rest
    else if c = singleQuote then parseTokenLoop .singleQuote [c] rest
    else if c = semicolon then ⟨.statementEnd, [c], rest⟩
    else if c = sp ∨ c = ht ∨ c = lf ∨ c = cr then parseTokenLoop .initialWhitespace value rest
    else parseTokenLoop .tokenTypeNormal (value ++ [c]) rest
  | .singleQuote, value, c :: rest =>
    if c = singleQuote then ⟨.normal, value ++ [c], rest⟩
    else parseTokenLoop .singleQuote (value ++ [c]) rest
  | .doubleQuote, value, c :: rest =>
    if c = doubleQuote then ⟨.normal, value ++ [c], rest⟩
    else parseTokenLoop .doubleQuote (value ++ [c]) rest
  | .tokenTypeComment, value, c :: rest =>
    if c = lf ∨ c = cr then ⟨.comment, value, rest⟩
    else parseTokenLoop .tokenTypeComment (value ++ [c]) rest
  | .tokenTypeNormal, value, c :: rest =>
    -- the delimiter is put back
    if c = sp ∨ c = ht ∨ c = lf ∨ c = semicolon ∨ c = openBrace ∨ c = closeBrace then
      ⟨.normal, value, c :: rest⟩
    else parseTokenLoop .tokenTypeNormal (value ++ [c]) rest

/-- `ParseToken`. -/
def parseToken (input : Bytes) : ParsedToken := parseTokenLoop .initialWhitespace [] input

/-! ### The tree under construction -/

/-- The path to a config: the index of the statement whose block it goes into, block by block. -/
abbrev Pointer := List Nat

/-- The config a pointer points to. -/
def deref : Pointer → NginxConfig → Option NginxConfig
  | [], config => some config
  | i :: p, config => (config[i]?).bind fun s => s.childBlock.bind (deref p)

/-- Change the config a pointer points to. -/
def modifyAt : Pointer → (NginxConfig → NginxConfig) → NginxConfig → NginxConfig
  | [], f, config => f config
  | i :: p, f, config => config.modify i fun s => { s with childBlock := s.childBlock.map (modifyAt p f) }

/-- Change `statements_.back()`. -/
def modifyBack (f : NginxConfigStatement → NginxConfigStatement) (config : NginxConfig) : NginxConfig :=
  config.modify (config.length - 1) f

/-- The variables of the loop of `Parse`, with the config that it fills. -/
structure ParseState where
  config : NginxConfig
  configStack : List Pointer
  lastTokenType : TokenType
  blockCounter : Int

namespace ParseState

def start : ParseState := ⟨[], [[]], .start, 0⟩

/-- The body of the loop of `Parse` for a token that is no comment, error or end of the input; `none` is a
`break`. -/
def step (s : ParseState) (type : TokenType) (token : Bytes) : Option ParseState :=
  match s.configStack with
  | [] => none
  | top :: below =>
    match type with
    | .normal =>
      if s.lastTokenType = .start ∨ s.lastTokenType = .statementEnd ∨ s.lastTokenType = .startBlock ∨
          s.lastTokenType = .endBlock ∨ s.lastTokenType = .normal then
        let config :=
          if s.lastTokenType ≠ .normal then modifyAt top (fun c => c ++ [⟨[], none⟩]) s.config else s.config
        some { s with
          config := modifyAt top (modifyBack fun st => { st with tokens := st.tokens ++ [token] }) config
          lastTokenType := .normal }
      else none
    | .statementEnd =>
      if s.lastTokenType ≠ .normal then none else some { s with lastTokenType := .statementEnd }
    | .startBlock =>
      if s.lastTokenType ≠ .normal then none
      else
        let back := ((deref top s.config).getD []).length - 1
        some
          { config := modifyAt top (modifyBack fun st => { st with childBlock := some [] }) s.config
            configStack := (top ++ [back]) :: top :: below
            lastTokenType := .startBlock
            blockCounter := s.blockCounter + 1 }
    | .endBlock =>
      if (s.lastTokenType ≠ .statementEnd ∧ s.lastTokenType ≠ .startBlock ∧ s.lastTokenType ≠ .endBlock) ∨
          s.blockCounter ≤ 0 then none
      else
        some { s with configStack := below, lastTokenType := .endBlock, blockCounter := s.blockCounter - 1 }
    | _ => none

/-- The test of `Parse` at the end of the input. -/
def complete (s : ParseState) : Bool :=
  decide ((s.lastTokenType = .statementEnd ∨ s.lastTokenType = .endBlock ∨ s.lastTokenType = .start) ∧
    s.blockCounter = 0)

end ParseState

/-- The loop of `Parse`: what it returns, and the config. Every token but the last takes a byte off the
input, so the first argument, how often the loop may go round, can be one more than the length of the input. -/
def parseLoop : Nat → ParseState → Bytes → Bool × NginxConfig
  | 0, s, _ => (false, s.config)
  | rounds + 1, s, input =>
    let t := parseToken input
    if t.type = .error then (false, s.config)
    else if t.type = .comment then parseLoop rounds s t.rest
    else if t.type = .eof then (s.complete, s.config)
    else
      match s.step t.type t.value with
      | none => (false, s.config)
      | some s' => parseLoop rounds s' t.rest

/-- `Parse` into an empty config. -/
def parse (input : Bytes) : Bool × NginxConfig := parseLoop (input.length + 1) .start input

example :
    parse (bytes "server \x7b port 80; \x7d # done") =
      (true, [⟨[bytes "server"], some [⟨[bytes "port", bytes "80"], none⟩]⟩]) := by
  rfl

end NginxConfigParser

end WebServer
