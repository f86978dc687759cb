import WebServer.Handler.RequestHandler
import WebServer.Lib.FindWord
import WebServer.Maddy.LineParsers

/-!
# The block parsers of the markdown converter

What each kind of block parser takes for its first line (`IsStartingLine`), and what it makes of a line that is
added to it (`parseBlock`, and for tables `AddLine`). The members of the parsers' classes are the fields of one
record; those of the table are used by the table only. Where `substr` throws and where a vector is indexed past its
end there is a fault instead of a result.
-/

namespace WebServer

namespace Maddy

open Lib

/-- The classes of block parsers. -/
inductive Kind
  | codeBlock | headline | horizontalLine | quote | table | checklist | orderedList | unorderedList | paragraph
  deriving DecidableEq, Repr

/-- The members of a block parser, as its constructor sets them. -/
structure Fields where
  isStarted : Bool := false
  isFinished : Bool := false
  currentBlock : Nat := 0
  currentRow : Nat := 0
  table : List (List (List Bytes)) := []
  result : Bytes := []

/-- `BlockParser::getIndentationWidth`. -/
def getIndentationWidth (line : Bytes) : Nat := (line.takeWhile isSpace).length

/-- `line.substr(2)`. -/
def substr2 (line : Bytes) : Except Fault Bytes := if 2 ≤ line.length then .ok (line.drop 2) else .error .outOfRange

/-- `line.find(word) != npos`. -/
def contains (line word : Bytes) : Bool := (Word.find? word line).isSome

/-- An expression behind `^`, replaced. -/
def replaceFront (r : Regex UInt8) (hr : r.consumes = true) (replacement : Replacement) (line : Bytes) : Bytes :=
  Pattern.replace ⟨.seq .bol r, hr⟩ replacement line

namespace CodeBlockParser

/-- "^(?:`){3}$". -/
def isStartingLine (line : Bytes) : Bool :=
  Regex.fullMatch (.seq .bol (.seq (Regex.times (Regex.word (bytes "`")) 3) .eol)) line

/-- `CodeBlockParser::parseBlock`. -/
def parseBlock (f : Fields) (line : Bytes) : Fields × Bytes :=
  if line = bytes "```" then
    if f.isStarted then ({ f with isFinished := true, isStarted := false }, bytes "</code></pre>")
    else ({ f with isStarted := true, isFinished := false }, bytes "<pre><code>\n")
  else (f, line ++ bytes "\n")

end CodeBlockParser

namespace HeadlineParser

/-- `(?:#){n} (.*)`. -/
def numbered (n : Nat) : Regex UInt8 :=
  .seq (Regex.times (Regex.word (bytes "#")) n) (.seq (Regex.word (bytes " ")) (.group 1 dots))

theorem numbered_consumes (n : Nat) : (numbered n).consumes = true := by
  have hsp : (Regex.word (bytes " ")).consumes = true := Regex.consumes_word (by simp [bytes])
  simp [numbered, Regex.consumes, hsp]

/-- `^(?:#){1,6} (.*)`. -/
def isStartingLine (line : Bytes) : Bool :=
  Regex.fullMatch (.seq .bol (.seq (Regex.word (bytes "#")) (.seq (Regex.upTo (Regex.word (bytes "#")) 5)
    (.seq (Regex.word (bytes " ")) (.group 1 dots))))) line

/-- `hlReplacement`. -/
def replacement (digit : String) : Replacement := tagged ("<h" ++ digit ++ ">") ("</h" ++ digit ++ ">")

/-- The levels of headlines: the expressions and the replacements. -/
def levels : List (Nat × String) := [(1, "1"), (2, "2"), (3, "3"), (4, "4"), (5, "5"), (6, "6")]

/-- `HeadlineParser::parseBlock`. -/
def parseBlock (line : Bytes) : Bytes :=
  levels.foldl (fun line l => replaceFront (numbered l.1) (numbered_consumes l.1) (replacement l.2) line) line

end HeadlineParser

namespace HorizontalLineParser

/-- `---$`. -/
def rule : Regex UInt8 := .seq (Regex.word (bytes "---")) .eol

theorem rule_consumes : rule.consumes = true := rfl

/-- `^---$`. -/
def isStartingLine (line : Bytes) : Bool := Regex.fullMatch (.seq .bol rule) line

/-- `HorizontalLineParser::parseBlock`. -/
def parseBlock (line : Bytes) : Bytes := replaceFront rule rule_consumes [.text (bytes "<hr/>")] line

end HorizontalLineParser

namespace QuoteParser

theorem withSpace_consumes : (Regex.word (bytes "> ")).consumes = true := rfl

theorem withoutSpace_consumes : (Regex.word (bytes ">")).consumes = true := rfl

/-- `^\>.*`. -/
def isStartingLine (line : Bytes) : Bool := Regex.fullMatch (.seq .bol (.seq (Regex.word (bytes ">")) dots)) line

/-- `QuoteParser::parseBlock`. -/
def parseBlock (line : Bytes) : Bytes :=
  let line := replaceFront (Regex.word (bytes "> ")) withSpace_consumes [] line
  let line := replaceFront (Regex.word (bytes ">")) withoutSpace_consumes [] line
  if line.isEmpty then line else line ++ bytes " "

end QuoteParser

namespace ParagraphParser

/-- `ParagraphParser::IsStartingLine`. -/
def isStartingLine (line : Bytes) : Bool := !line.isEmpty

/-- `ParagraphParser::parseBlock`. -/
def parseBlock (f : Fields) (line : Bytes) : Fields × Bytes :=
  if !f.isStarted then ({ f with isStarted := true }, bytes "<p>" ++ line ++ bytes " ")
  else if line.isEmpty then ({ f with isFinished := true }, line ++ bytes "</p>")
  else (f, line ++ bytes " ")

end ParagraphParser

/-! ### Lists -/

/-- The `parseBlock` of the lists: whether the line starts an item, the markers stripped, the tags in front of the
first item, between two items and behind the last one, and the tags that end the list in the middle of a line. -/
def listParseBlock (isStart : Bytes → Bool) (strip : Bytes → Bytes) (opening next closing : Bytes) (ends : List Bytes)
    (f : Fields) (line : Bytes) : Except Fault (Fields × Bytes) :=
  let isStartOfNewListItem := isStart line
  let indentation := getIndentationWidth line
  let line := strip line
  if !f.isStarted then .ok ({ f with isStarted := true }, opening ++ line)
  else if 2 ≤ indentation then (substr2 line).map fun line => (f, line)
  else if line.isEmpty || ends.any (contains line) then .ok ({ f with isFinished := true }, closing ++ line)
  else if isStartOfNewListItem then .ok (f, next ++ line)
  else .ok (f, line)

namespace ChecklistParser

theorem marker_consumes : (Regex.group 1 (Regex.word (bytes "- "))).consumes = true := rfl

theorem emptyBox_consumes : (Regex.word (bytes "[ ]")).consumes = true := rfl

theorem box_consumes : (Regex.word (bytes "[x]")).consumes = true := rfl

/-- `^- \[[x| ]\] .*`. -/
def isStartingLine (line : Bytes) : Bool :=
  Regex.fullMatch (.seq .bol (.seq (Regex.word (bytes "- [")) (.seq (.one fun c => c == ch 'x' || c == ch '|' || c == sp)
    (.seq (Regex.word (bytes "] ")) dots)))) line

/-- `^(- )`, `^\[ \]` and `^\[x\]`, one after the other. -/
def strip (line : Bytes) : Bytes :=
  let line := replaceFront (.group 1 (Regex.word (bytes "- "))) marker_consumes [] line
  let line := replaceFront (Regex.word (bytes "[ ]")) emptyBox_consumes [.text (bytes "<input type=\"checkbox\"/>")] line
  replaceFront (Regex.word (bytes "[x]")) box_consumes [.text (bytes "<input type=\"checkbox\" checked=\"checked\"/>")] line

/-- `ChecklistParser::parseBlock`. -/
def parseBlock (f : Fields) (line : Bytes) : Except Fault (Fields × Bytes) :=
  listParseBlock isStartingLine strip (bytes "<ul class=\"checklist\"><li><label>") (bytes "</label></li><li><label>")
    (bytes "</label></li></ul>") [bytes "</label></li><li><label>", bytes "</label></li></ul>"] f line

end ChecklistParser

/-- `[+*-]`. -/
def isBullet (c : UInt8) : Bool := c == ch '+' || c == ch '*' || c == ch '-'

/-- The tags that end a list of the two other kinds. -/
def listEnds : List Bytes := [bytes "</li><li>", bytes "</li></ol>", bytes "</li></ul>"]

namespace OrderedListParser

theorem number_consumes : (Regex.word (bytes "1. ")).consumes = true := rfl

theorem bullet_consumes : (Regex.group 1 (Regex.word (bytes "* "))).consumes = true := rfl

/-- `^1\. .*`. -/
def isStartingLine (line : Bytes) : Bool := Regex.fullMatch (.seq .bol (.seq (Regex.word (bytes "1. ")) dots)) line

/-- `^(?:1\. |\* ).*`. -/
def isStartOfNewListItem (line : Bytes) : Bool :=
  Regex.fullMatch (.seq .bol (.seq (.alt (Regex.word (bytes "1. ")) (Regex.word (bytes "* "))) dots)) line

/-- `^1\. ` and `^(\* )`, one after the other. -/
def strip (line : Bytes) : Bytes :=
  let line := replaceFront (Regex.word (bytes "1. ")) number_consumes [] line
  replaceFront (.group 1 (Regex.word (bytes "* "))) bullet_consumes [] line

/-- `OrderedListParser::parseBlock`. -/
def parseBlock (f : Fields) (line : Bytes) : Except Fault (Fields × Bytes) :=
  listParseBlock isStartOfNewListItem strip (bytes "<ol><li>") (bytes "</li><li>") (bytes "</li></ol>") listEnds f line

end OrderedListParser

namespace UnorderedListParser

/-- `([+*-] )`. -/
def marker : Regex UInt8 := .group 1 (.seq (.one isBullet) (Regex.word (bytes " ")))

theorem marker_consumes : marker.consumes = true := rfl

/-- `^[+*-] .*`. -/
def isStartingLine (line : Bytes) : Bool :=
  Regex.fullMatch (.seq .bol (.seq (.one isBullet) (.seq (Regex.word (bytes " ")) dots))) line

/-- `^([+*-] )`. -/
def strip (line : Bytes) : Bytes := replaceFront marker marker_consumes [] line

/-- `UnorderedListParser::parseBlock`. -/
def parseBlock (f : Fields) (line : Bytes) : Except Fault (Fields × Bytes) :=
  listParseBlock isStartingLine strip (bytes "<ul><li>") (bytes "</li><li>") (bytes "</li></ul>") listEnds f line

end UnorderedListParser

/-! ### Tables -/

/-- `std::getline` until the stream ends: the parts of a text that end with a delimiter, and what follows the last
delimiter if there is anything. -/
def getlines (delim : UInt8) : Bytes → List Bytes
  | [] => []
  | c :: rest =>
    if c = delim then [] :: getlines delim rest
    else
      match getlines delim rest with
      | [] => [[c]]
      | l :: ls => (c :: l) :: ls

namespace TableParser

/-- `TableParser::IsStartingLine`. -/
def isStartingLine (line : Bytes) : Bool := line == bytes "|table>"

/-- A line between two blocks. -/
def blockEnd : Bytes := bytes "- | - | -"

/-- The last line of a table. -/
def tableEnd : Bytes := bytes "|<table"

/-- An element without attributes. -/
def element (tag : String) (content : Bytes) : Bytes := bytes ("<" ++ tag ++ ">") ++ content ++ bytes ("</" ++ tag ++ ">")

/-- The loop over the rows of a block. -/
def blockHtml (isInHeader : Bool) (block : List (List Bytes)) : Bytes :=
  block.flatMap fun row => element "tr" (row.flatMap (element (if isInHeader then "th" else "td")))

/-- The loop over the blocks of the table. -/
def blocksHtml (hasHeader hasFooter : Bool) (size : Nat) : Bool → Nat → List (List (List Bytes)) → Bytes
  | _, _, [] => []
  | isFirstBlock, currentBlockNumber, block :: rest =>
    let html :=
      if hasHeader && isFirstBlock then element "thead" (blockHtml true block)
      else if hasFooter && currentBlockNumber + 1 == size then element "tfoot" (blockHtml false block)
      else element "tbody" (blockHtml false block)
    html ++ blocksHtml hasHeader hasFooter size false (currentBlockNumber + 1) rest

/-- `TableParser::parseBlock`. -/
def parseBlock (table : List (List (List Bytes))) : Bytes :=
  element "table" (blocksHtml (decide (1 < table.length)) (decide (3 ≤ table.length)) table.length true 0 table)

/-- `table[currentBlock].push_back(row)`. -/
def pushRow (table : List (List (List Bytes))) (currentBlock : Nat) : Except Fault (List (List (List Bytes))) :=
  match table[currentBlock]? with
  | none => .error .indexOutOfBounds
  | some block => .ok (table.set currentBlock (block ++ [[]]))

/-- `table[currentBlock][currentRow].push_back(segment)`. -/
def pushSegment (currentBlock currentRow : Nat) (table : List (List (List Bytes))) (segment : Bytes) :
    Except Fault (List (List (List Bytes))) :=
  match table[currentBlock]? with
  | none => .error .indexOutOfBounds
  | some block =>
    match block[currentRow]? with
    | none => .error .indexOutOfBounds
    | some row => .ok (table.set currentBlock (block.set currentRow (row ++ [runLineParser segment])))

/-- `TableParser::AddLine`. -/
def addLine (f : Fields) (line : Bytes) : Except Fault Fields :=
  if !f.isStarted && line == bytes "|table>" then .ok { f with isStarted := true }
  else if f.isStarted then
    if line = blockEnd then .ok { f with currentBlock := f.currentBlock + 1, currentRow := 0 }
    else if line = tableEnd then .ok { f with result := f.result ++ parseBlock f.table, isFinished := true }
    else do
      let table := if f.table.length < f.currentBlock + 1 then f.table ++ [[]] else f.table
      let table ← pushRow table f.currentBlock
      let table ← (getlines (ch '|') line).foldlM (pushSegment f.currentBlock f.currentRow) table
      .ok { f with table := table, currentRow := f.currentRow + 1 }
  else .ok f

end TableParser

end Maddy

end WebServer
