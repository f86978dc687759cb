import WebServer.Handler.StaticRequestHandler

/-!
# The markdown handler

`MarkdownHandler`: a form with the last ten submissions, or the page for a submission, which is also stored. The
text of a submission is cut out of the bytes of the request and decoded. The database and the markdown converter
are parameters.
-/

namespace WebServer

/-- What the handler asks the database. -/
structure Database where
  /-- The texts that `DBHelper` returns; `none` if it throws. -/
  dbHelper : Option (List Bytes)
  /-- What `insertMarkdown` returns; `none` if it throws. -/
  insertMarkdown : Bytes → Option Int

/-- `db_handler::getTenMarkdowns`, behind `DBHelper`. -/
def getTenMarkdowns (mds : List Bytes) : List Bytes :=
  (mds.zipIdx.filter fun md => decide ((mds.length : Int) - md.2 ≤ 10)).map Prod.fst

namespace MarkdownHandler

/-- `input_form_path`. -/
def inputFormPath : Bytes := bytes "../data/input_form.html"

/-- The row of a submission. -/
def postRow (parseMarkdown : Bytes → Bytes) (post : Bytes) : Bytes :=
  bytes "<tr><td>" ++ post ++ bytes "</td><td>" ++ parseMarkdown post ++ bytes "</td></tr>"

/-- The page of `createForm`. -/
def formPage (parseMarkdown : Bytes → Bytes) (content : Bytes) (posts : List Bytes) : Bytes :=
  content ++ bytes "<div><h3>10 Recent Markdown Submissions</h3></div>" ++
    bytes "<table><tr><th>Raw Input</th><th>Markdown</th>" ++ posts.flatMap (postRow parseMarkdown) ++
    bytes "</table>" ++ bytes "</body></html>"

/-- `createForm`. -/
def createForm (files : FileSystem) (db : Database) (parseMarkdown : Bytes → Bytes) : Except Fault Reply :=
  if files.isRegularFile inputFormPath then
    match files.read inputFormPath with
    | none => .ok (Reply.stockReply StatusCode.internalServerError)
    | some content =>
      match db.dbHelper with
      | none => .error .handlerFailed
      | some mds =>
        let page := formPage parseMarkdown content (getTenMarkdowns mds)
        .ok (Reply.withBody StatusCode.ok (bytes "text/html") page page.length)
  else .ok (Reply.stockReply StatusCode.internalServerError)

/-! ### A submission -/

/-- `isxdigit`. -/
def isXDigit (c : UInt8) : Bool :=
  (decide (ch '0' ≤ c) && decide (c ≤ ch '9')) || (decide (ch 'a' ≤ c) && decide (c ≤ ch 'f')) ||
    (decide (ch 'A' ≤ c) && decide (c ≤ ch 'F'))

/-- The value of a hexadecimal digit, as `urldecode2` computes it. -/
def hexValue (a : UInt8) : UInt8 :=
  let a := if ch 'a' ≤ a then a - (ch 'a' - ch 'A') else a
  if ch 'A' ≤ a then a - (ch 'A' - 10) else a - ch '0'

/-- A character that is no escape. -/
def plainChar (c : UInt8) : UInt8 := if c = ch '+' then sp else c

/-- `urldecode2`, for the characters in front of the NUL: what it stores in front of a NUL of its own. -/
def urldecode2 : Bytes → Bytes
  | c :: a :: b :: rest =>
    if c = ch '%' ∧ isXDigit a ∧ isXDigit b then (16 * hexValue a + hexValue b) :: urldecode2 rest
    else plainChar c :: urldecode2 (a :: b :: rest)
  | c :: rest => plainChar c :: urldecode2 rest
  | [] => []

example : urldecode2 (bytes "a%4A+%4") = bytes "aJ %4" := by decide

/-- `input_`. Where `find` returns `npos`, the next character is the first one; a length that is less than zero
wraps, and then the rest is taken. -/
def input (body : Bytes) : Bytes :=
  let trimmedUri := body.drop ((body.idxOf? sp).elim 0 (· + 1))
  let start := (trimmedUri.idxOf? (ch '=')).elim 0 (· + 1)
  match trimmedUri.idxOf? sp with
  | none => trimmedUri.drop start
  | some stop => if stop < start then trimmedUri.drop start else (trimmedUri.drop start).take (stop - start)

/-- `cleaned_input`: the array that the text is decoded into, as a C string, without carriage returns in front of
line feeds. -/
def cleanedInput (input : Bytes) : Bytes := replaceAll (cString (urldecode2 input)) crlf [lf]

/-- `viewMarkdown`. The array has as many elements as the text in front of its decoding. -/
def viewMarkdown (db : Database) (parseMarkdown : Bytes → Bytes) (req : Request) : Except Fault Reply :=
  if (input req.body).length < (urldecode2 (input req.body)).length + 1 then .error .bufferOverflow
  else
    match db.insertMarkdown (cleanedInput (input req.body)) with
    | none => .error .handlerFailed
    | some _ =>
      let htmlMarkdown := parseMarkdown (cleanedInput (input req.body))
      .ok (Reply.withBody StatusCode.ok (bytes "text/html") htmlMarkdown htmlMarkdown.length)

/-- `HandleRequest`. -/
def handleRequest (files : FileSystem) (db : Database) (parseMarkdown : Bytes → Bytes) (req : Request) :
    Except Fault Reply :=
  if req.uri = bytes "/markdown" then createForm files db parseMarkdown
  else if req.uri.take 30 = bytes "/markdown/view?markdown_input=" then viewMarkdown db parseMarkdown req
  else createForm files db parseMarkdown

end MarkdownHandler

end WebServer
