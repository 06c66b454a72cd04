import AlterTable.Reader
import AlterTable.Syntax

/-!
# Dialects

The SQL dialects that statements can be written in, and the way from a text to the statement
that it says: the text is read into a tree, and the tree by the reader of the dialect.
-/

namespace AlterTable

/-- An SQL dialect. -/
inductive Dialect where
  | mysql
deriving DecidableEq, Repr, Inhabited

/-- Why a text says no statement. -/
inductive Error where
  /-- The dialect is not known. -/
  | unsupported (dialect : String)
  /-- The text cannot be read. -/
  | syntaxError (error : SyntaxError)
  /-- The tree of the text lacks something. -/
  | readError (error : ReadError)
deriving DecidableEq, Repr, Inhabited

/-- The wording of the error. -/
def Error.message : Error → String
  | unsupported dialect => s!"Database type {dialect} is not supported"
  | syntaxError e => e.message
  | readError e => e.message

namespace Dialect

/-- The name of the dialect as it is shown. -/
def name : Dialect → String
  | mysql => "MySQL"

/-- The dialect with this name, in whatever letter case. -/
def ofName (s : String) : Except Error Dialect :=
  if Text.sameLetters s.toList mysql.name.toList then
    .ok mysql
  else
    .error (.unsupported s)

/-- What is read from a tree in this dialect. -/
def reader : Dialect → Reader
  | mysql => .mysql

/-- The statement that a text says in this dialect, with the layout after it if the one before
it is given. -/
def read (dialect : Dialect) (text : String) (table : Option Layout) : Except Error Statement :=
  match Node.ofText? text with
  | .error e => .error (.syntaxError e)
  | .ok tree =>
    match dialect.reader.read tree table with
    | .error e => .error (.readError e)
    | .ok s => .ok s

/-- A dialect is found by the name that it shows. -/
theorem ofName_name (d : Dialect) : ofName d.name = .ok d := by
  cases d
  rfl

end Dialect

end AlterTable
