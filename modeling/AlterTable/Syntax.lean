import AlterTable.Grammar.Statement
import AlterTable.Parse
import AlterTable.Text

/-!
# From text to tree

`Node.ofText?` gives the tree of a statement, or the trace of what was expected instead. Whether
the failure was a refusal or fatal matters to alternatives only and is gone by then.
-/

namespace AlterTable.Parse

/-!
## Reports

How a trace is shown to the writer of the text. Each entry shows the line that it points into,
with a caret under the place; lines end at a line feed only, and columns count bytes. A text
without any character has no line to show.
-/

/-- A place of a text as its writer would look it up. -/
structure Spot where
  /-- The number of the line, from 1. -/
  number : Nat
  /-- The line, without the white space at its end. -/
  line : List Char
  /-- The number of the byte in the line, from 1. -/
  column : Nat
deriving DecidableEq, Repr, Inhabited

/-- The character does not end a line. -/
def isWithinLine (c : Char) : Bool :=
  c != '\n'

/-- Where in the lines of the text a place lies. -/
def Spot.ofCursor (text : List Char) (place : Cursor) : Spot :=
  let before := (Cursor.ofText text).upTo place
  let head := (before.reverse.takeWhile isWithinLine).reverse
  { number := before.count '\n' + 1
    line := Text.trimEnd (head ++ place.rest.takeWhile isWithinLine)
    column := Text.byteLength head + 1 }

/-- The line, and under it a caret at the column. -/
def Spot.render (s : Spot) : String :=
  String.ofList s.line ++ "\n" ++ String.ofList (List.replicate (s.column - 1) ' ') ++ "^\n"

/-- What was found where one character was expected. -/
def foundText (place : Cursor) : String :=
  match place.rest with
  | c :: _ => "found " ++ c.toString
  | [] => "got end of input"

/-- What is said of an entry of a trace about a text that has no character. -/
def Expectation.renderEmpty : Expectation → String
  | character c => s!"expected '{c}', got empty input\n"
  | expected => s!"in {expected.label}, got empty input\n"

/-- What is said of an entry of a trace about a text. -/
def Entry.render (text : List Char) (e : Entry) : String :=
  let spot := Spot.ofCursor text e.place
  match e.expected with
  | .character c =>
    s!"at line {spot.number}:\n{spot.render}expected '{c}', {foundText e.place}\n"
  | expected => s!"at line {spot.number}, in {expected.label}:\n{spot.render}"

/-- The report of a failure: its entries numbered from 0, each followed by an empty line. -/
def Trace.render (text : List Char) (t : Trace) : String :=
  String.join <| t.zipIdx.map fun (entry, index) =>
    let said := if text.isEmpty then entry.expected.renderEmpty else entry.render text
    s!"{index}: {said}\n"

end AlterTable.Parse

/-! ## Trees and errors -/

namespace AlterTable

/-- Why a text is not a statement. -/
structure SyntaxError where
  text : List Char
  trace : Parse.Trace
deriving DecidableEq, Repr, Inhabited

/-- The report of the error. -/
def SyntaxError.message (e : SyntaxError) : String :=
  "SQL Parse Error " ++ e.trace.render e.text

/-- The tree of a statement. -/
def Node.ofText? (statement : String) : Except SyntaxError Node :=
  let text := statement.toList
  match Grammar.statement (Parse.Cursor.ofText text) with
  | .done tree _ => .ok tree
  | .refused trace => .error { text, trace }
  | .fatal trace => .error { text, trace }

end AlterTable
