import AlterTable.Dialect

/-!
# The command line

`alterant [-v] [-d dialect] statement columns` shows the columns of a table after a statement.
Options may stand anywhere; what is neither an option nor the value of one is positional, and
there have to be two of these. The number of positional arguments is checked first, then the
dialect, then the statement.
-/

namespace AlterTable.CommandLine

/-! ## Arguments -/

/-- The arguments sorted out. -/
structure Options where
  dialect : String := "mysql"
  positional : List String := []
deriving DecidableEq, Repr, Inhabited

/-- Sorts the arguments. A `-d` takes the argument behind it as the dialect, whatever that is,
and the last one counts; a `-v` asks for records of progress, which are not kept. -/
def Options.ofArguments : List String → Options → Options
  | [], o => o
  | "-v" :: args, o => ofArguments args o
  | ["-d"], o => { o with dialect := "" }
  | "-d" :: value :: args, o => ofArguments args { o with dialect := value }
  | arg :: args, o => ofArguments args { o with positional := o.positional ++ [arg] }

/-! ## Columns -/

/-- A column written as `name:type:pk`. A column without a type is text, and anything but `pk`
in the third place says nothing. -/
def readColumn (s : List Char) : Column :=
  let parts := s.splitOn ':'
  { name := String.ofList (parts.headD [])
    dataType := String.ofList (parts[1]?.getD "TEXT".toList)
    flags := { primaryKey := parts[2]?.any (Text.sameLetters · "pk".toList) } }

/-- Columns separated by commas. White space around a column does not count, and there is no
column where nothing is written. -/
def readLayout (s : String) : Layout :=
  (((s.toList.splitOn ',').map Text.trim).filter (!·.isEmpty)).map readColumn

/-! ## Report -/

/-- What a run leaves behind. -/
structure Report where
  status : Nat
  output : String := ""
  errors : String := ""
deriving DecidableEq, Repr, Inhabited

/-- How the program is called. -/
def usage : String :=
  "usage: alterant [-v] [-d mysql] \"ALTER TABLE ...\" name:type[:pk],..."

/-- The report of a run that failed. -/
def Report.failure (status : Nat) (e : Error) : Report :=
  { status, errors := s!"[ERROR] {e.message}\n" }

/-- The report of a statement that was read: the table's name, and a line for each column. -/
def Report.success (dialect : Dialect) (s : Statement) : Report :=
  let lines := s!"[INFO] {dialect.name} table {s.table}" :: (s.layout.getD []).render
  { status := 0, output := String.join (lines.map fun line => line ++ "\n") }

/-- What a run with these arguments leaves behind. -/
def run (args : List String) : Report :=
  let options := Options.ofArguments args {}
  match options.positional with
  | [text, columns] =>
    match Dialect.ofName options.dialect with
    | .error e => .failure 2 e
    | .ok dialect =>
      match dialect.read text (some (readLayout columns)) with
      | .error e => .failure 1 e
      | .ok s => .success dialect s
  | _ => { status := 2, errors := usage ++ "\n" }

end AlterTable.CommandLine
