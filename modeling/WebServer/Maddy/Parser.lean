import WebServer.Lib.Runs
import WebServer.Maddy.BlockParsers

/-!
# The markdown converter

`maddy::Parser` without a configuration: the block parsers, each with the parser that it has opened for the lines it
contains, and the loop over the lines of a text. A new parser gets the line that it was opened for, and may open the
next one for what it makes of that line; how many follow each other so is bounded by the length of the line
(`addLineWith_eq_addLine`).
-/

namespace WebServer

namespace Maddy

/-- A pointer to a block parser: its class, its members and its `childParser`. -/
inductive BlockParser
  | null
  | node (kind : Kind) (fields : Fields) (childParser : BlockParser)

/-- `Parser::getBlockParserForLine`, without a configuration. -/
def getBlockParserForLine (line : Bytes) : Option Kind :=
  if CodeBlockParser.isStartingLine line then some .codeBlock
  else if HeadlineParser.isStartingLine line then some .headline
  else if HorizontalLineParser.isStartingLine line then some .horizontalLine
  else if QuoteParser.isStartingLine line then some .quote
  else if TableParser.isStartingLine line then some .table
  else if ChecklistParser.isStartingLine line then some .checklist
  else if OrderedListParser.isStartingLine line then some .orderedList
  else if UnorderedListParser.isStartingLine line then some .unorderedList
  else if ParagraphParser.isStartingLine line then some .paragraph
  else none

namespace Kind

/-- The `getBlockParserForLineCallback` that a parser is made with. -/
def getBlockParserForLineCallback : Kind → Bytes → Option Kind
  | .quote, line => getBlockParserForLine line
  | .checklist, line => if ChecklistParser.isStartingLine line then some .checklist else none
  | .orderedList, line | .unorderedList, line =>
    if OrderedListParser.isStartingLine line then some .orderedList
    else if UnorderedListParser.isStartingLine line then some .unorderedList
    else none
  | _, _ => none

/-- `isInlineBlockAllowed`. -/
def isInlineBlockAllowed : Kind → Bool
  | .quote | .checklist | .orderedList | .unorderedList => true
  | _ => false

/-- The parser that a line is given to by one that has no child. -/
def newChild (kind : Kind) (line : Bytes) : Option Kind :=
  if kind.isInlineBlockAllowed then kind.getBlockParserForLineCallback line else none

/-- `isLineParserAllowed`. -/
def isLineParserAllowed : Kind → Bool
  | .codeBlock | .headline | .horizontalLine => false
  | _ => true

/-- `parseBlock`. The one of the table reads no line. -/
def parseBlock : Kind → Fields → Bytes → Except Fault (Fields × Bytes)
  | .codeBlock, f, line => .ok (CodeBlockParser.parseBlock f line)
  | .headline, f, line => .ok (f, HeadlineParser.parseBlock line)
  | .horizontalLine, f, line => .ok (f, HorizontalLineParser.parseBlock line)
  | .quote, f, line => .ok (f, QuoteParser.parseBlock line)
  | .table, f, line => .ok ({ f with result := f.result ++ TableParser.parseBlock f.table }, line)
  | .checklist, f, line => ChecklistParser.parseBlock f line
  | .orderedList, f, line => OrderedListParser.parseBlock f line
  | .unorderedList, f, line => UnorderedListParser.parseBlock f line
  | .paragraph, f, line => .ok (ParagraphParser.parseBlock f line)

end Kind

namespace BlockParser

/-- `IsFinished`. -/
def isFinished : BlockParser → Bool
  | .null => false
  | .node .headline _ _ => true
  | .node .horizontalLine _ _ => true
  | .node _ f _ => f.isFinished

/-- `GetResult`. -/
def result : BlockParser → Bytes
  | .null => []
  | .node _ f _ => f.result

/-- `make_shared`, if a parser was found. -/
def newParser : Option Kind → BlockParser
  | none => .null
  | some kind => .node kind {} .null

/-- A parser after a line was added to its child. -/
def withChild (kind : Kind) (f : Fields) (child : BlockParser) : BlockParser :=
  if child.isFinished then .node kind { f with result := f.result ++ child.result } .null else .node kind f child

/-- What `QuoteParser::AddLine` does in front of `parseBlock`. -/
def startQuote (kind : Kind) (f : Fields) : Fields :=
  if kind = .quote ∧ !f.isStarted then { f with result := f.result ++ bytes "<blockquote>", isStarted := true } else f

/-- What `QuoteParser::AddLine` does in front of the last line of its result, if the line that was added is empty. -/
def finishQuote (kind : Kind) (finish : Bool) (f : Fields) : Fields :=
  if kind = .quote ∧ finish then { f with result := f.result ++ bytes "</blockquote>", isFinished := true } else f

/-- A line that no child gets. -/
def appendLine (kind : Kind) (finish : Bool) (f : Fields) (line : Bytes) : BlockParser :=
  let line := if kind.isLineParserAllowed then runLineParser line else line
  let f := finishQuote kind finish f
  .node kind { f with result := f.result ++ line } .null

/-- `AddLine`, given what the first line does to a new parser: `TableParser::AddLine`, and in one
`BlockParser::AddLine` and `QuoteParser::AddLine`. -/
def addLineWith (first : Kind → Bytes → Except Fault BlockParser) : BlockParser → Bytes → Except Fault BlockParser
  | .null, _ => .ok .null
  | .node kind f child, line =>
    if kind = .table then (TableParser.addLine f line).map fun f => .node kind f child
    else do
      let (f, line') ← kind.parseBlock (startQuote kind f) line
      match child with
      | .null =>
        match kind.newChild line' with
        | some new => do
          let child ← first new line'
          .ok (withChild kind f child)
        | none => .ok (appendLine kind line.isEmpty f line')
      | .node .. => do
        let child ← addLineWith first child line'
        .ok (withChild kind f child)

/-- The first line of a new parser, where at most `n` more parsers are opened. -/
def firstLine : Nat → Kind → Bytes → Except Fault BlockParser
  | 0, kind, _ => .ok (.node kind {} .null)
  | n + 1, kind, line => addLineWith (firstLine n) (.node kind {} .null) line

/-- `AddLine`. -/
def addLine (p : BlockParser) (line : Bytes) : Except Fault BlockParser := addLineWith (firstLine (line.length + 2)) p line

end BlockParser

namespace Parser

/-- The loop of `Parser::Parse` for one line: the result so far and the current block parser. -/
def parseLine (s : Bytes × BlockParser) (line : Bytes) : Except Fault (Bytes × BlockParser) := do
  let currentBlockParser :=
    match s.2 with
    | .null => BlockParser.newParser (getBlockParserForLine line)
    | p => p
  let p ← currentBlockParser.addLine line
  .ok (if p.isFinished then (s.1 ++ p.result, .null) else (s.1, p))

/-- What `Parser::Parse` does behind the last line. -/
def finish (s : Bytes × BlockParser) : Except Fault Bytes := do
  let p ← s.2.addLine []
  .ok (if p.isFinished then s.1 ++ p.result else s.1)

/-- `Parser::Parse`. -/
def parse (markdown : Bytes) : Except Fault Bytes := do
  let s ← (getlines lf markdown).foldlM parseLine ([], .null)
  finish s

end Parser

end Maddy

end WebServer
