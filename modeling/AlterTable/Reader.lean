import AlterTable.Node
import AlterTable.Statement

/-!
# From tree to statement

What a tree says: single nodes first, then the clauses of one kind, and then all kinds that a reader
knows. Parts are looked up breadth first under the node in question, wherever they stand there.
-/

namespace AlterTable

/-!
## Reading nodes

What single nodes say: the definition of a column, a position, the columns of a key. A part that
must be there and is not is an error that names the node and the part.
-/

/-- Why a tree says no statement. -/
inductive ReadError where
  /-- A node lacks a part that it must have. -/
  | missing (parent part : Rule)
  /-- The tree is not that of a statement. -/
  | unexpectedRoot (rule : Rule)
deriving DecidableEq, Repr, Inhabited

/-- The wording of the error. -/
def ReadError.message : ReadError → String
  | missing parent part => s!"{parent.name} node is missing its {part.name}"
  | unexpectedRoot rule => s!"Expected an AlterTable tree, got {rule.name}"

namespace Node

/-- The first node of a rule, which has to be there. -/
def require (n : Node) (r : Rule) : Except ReadError Node :=
  match n.first? r with
  | some found => .ok found
  | none => .error (.missing n.rule r)

/-- A node of this rule is found in the tree. -/
def hasPart (n : Node) (r : Rule) : Bool :=
  (n.first? r).isSome

/-- The columns named in the first list of key parts. -/
def keyColumns (n : Node) : List String :=
  match n.first? .keyParts with
  | some parts => (parts.all .columnName).map exactText
  | none => []

/-- The first column definition. The data type is taken as it is written; a flag is set where a
node for it is found anywhere in the definition. -/
def columnDefinition (n : Node) : Except ReadError Column := do
  let definition ← n.require .columnDefinition
  let column ← definition.require .columnName
  let type ← definition.require .dataType
  return {
    name := column.exactText
    dataType := type.text
    flags := {
      primaryKey := definition.hasPart .primaryKey
      notNull := definition.hasPart .notNull
      autoIncrement := definition.hasPart .autoIncrement } }

/-- The first position, as a move of the given column: behind the column that the position
names, or to the front if it names none. -/
def move? (n : Node) (column : String) : Option Move :=
  (n.first? .firstOrAfterColumn).map fun position =>
    { offset := position.start
      column := column
      place := match position.first? .columnName with
        | some anchor => .after anchor.exactText
        | none => .first }

/-- A node moves no column exactly if there is no position under it. -/
theorem move?_eq_none_iff {n : Node} {column : String} :
    n.move? column = none ↔ n.first? .firstOrAfterColumn = none := by
  simp [move?]

end Node

/-!
## Clauses

The kinds of clauses, and what a tree says by its clauses of one kind. A kind is read node by
node in breadth-first order up to the first fault, and what was read before the fault counts:
`Clause.apply` gives the statement with all of it recorded, and the fault if there is one.
-/

/-- A kind of clause that can be read from a tree. -/
inductive Clause where
  | tableName
  | dropColumn
  | addColumn
  | addIndex
  | dropIndex
  | renameIndex
  /-- A primary key that is added by nodes of the given rule. -/
  | primaryKey (rule : Rule)
  | dropPrimaryKey
  | changeColumn
  | modifyColumn
deriving DecidableEq, Repr, Inhabited

/-- What was found, or the fault in its place. -/
abbrev Finding := Except ReadError Fact

namespace Clause

/-! ### Single nodes -/

/-- The name of a table, part by part without quotes. -/
def plainTableName (text : List Char) : List Char :=
  List.intercalate ['.'] ((text.splitOn '.').map Text.unquote)

/-- The columns that a node adds. Only where it adds a single one can a position belong to it. -/
def findAdded (n : Node) : List Finding :=
  match n.all .columnDefinition with
  | [] => [.error (.missing .addColumn .columnDefinition)]
  | [single] => [do
      let column ← single.columnDefinition
      return .addColumn column (n.move? column.name)]
  | several => several.map fun node => do
      return .addColumn (← node.columnDefinition) none

/-- The index that a node adds. An index without a name is named after its first column. -/
def findIndex (n : Node) : Finding :=
  let columns := n.keyColumns
  let name? := ((n.first? .indexName).map Node.exactText).or columns.head?
  match name? with
  | some name => .ok (.addIndex { name, columns, unique := n.hasPart .unique })
  | none => .error (.missing .addIndex .keyParts)

/-- The new name that a node gives to an index. -/
def findRename (n : Node) : Finding :=
  match n.all .indexName with
  | [old, new] => .ok (.renameIndex { oldName := old.exactText, newName := new.exactText })
  | _ => .error (.missing .renameIndex .indexName)

/-- The primary key that a node of the rule adds, if it is about a primary key at all. -/
def findPrimaryKey (r : Rule) (n : Node) : List Finding :=
  if n.hasPart .primaryKey then
    match n.keyColumns with
    | [] => [.error (.missing r .keyParts)]
    | columns => [.ok (.addPrimaryKey columns)]
  else
    []

/-- The definition that a node gives to the column it names first. -/
def findChanged (n : Node) : Finding := do
  let old ← n.require .columnName
  let column ← n.columnDefinition
  return .changeColumn ⟨old.exactText, column⟩ (n.move? column.name)

/-- The definition that a node gives to a column that keeps its name. -/
def findModified (n : Node) : Finding := do
  let column ← n.columnDefinition
  return .changeColumn ⟨column.name, column⟩ (n.move? column.name)

/-! ### Whole trees -/

/-- What a tree says by its clauses of one kind, faults included. -/
def findings (root : Node) : Clause → List Finding
  | tableName => [do
      let node ← root.require .tableName
      return .table (String.ofList (plainTableName node.text.toList))]
  | dropColumn => (root.all .dropColumn).map fun node => do
      return .dropColumn (← node.require .columnName).exactText
  | addColumn => (root.all .addColumn).flatMap findAdded
  | addIndex => (root.all .addIndex).map findIndex
  | dropIndex => (root.all .dropIndex).map fun node => do
      return .dropIndex (← node.require .indexName).exactText
  | renameIndex => (root.all .renameIndex).map findRename
  | primaryKey r => (root.all r).flatMap (findPrimaryKey r)
  | dropPrimaryKey => if root.hasPart .dropPrimaryKey then [.ok .dropPrimaryKey] else []
  | changeColumn => (root.all .changeColumn).map findChanged
  | modifyColumn => (root.all .modifyColumn).map findModified

/-- The facts in front of the first fault, and the fault. -/
def upToFault : List Finding → List Fact × Option ReadError
  | [] => ([], none)
  | .error e :: _ => ([], some e)
  | .ok fact :: rest =>
    let (facts, fault) := upToFault rest
    (fact :: facts, fault)

/-- The statement with what the tree says by its clauses of one kind, up to the first fault. -/
def apply (clause : Clause) (root : Node) (s : Statement) : Statement × Option ReadError :=
  let (facts, fault) := upToFault (clause.findings root)
  (facts.foldl Statement.record s, fault)

/-! ### Laws -/

/-- Where nothing is faulty, every fact is kept. -/
theorem upToFault_map_ok (facts : List Fact) : upToFault (facts.map .ok) = (facts, none) := by
  induction facts with
  | nil => rfl
  | cons f fs ih => simp [upToFault, ih]

end Clause

/-!
## Readers

A reader is what tells one SQL dialect from another: the kinds of clauses that it reads, in the
order in which it reads them, and whether it moves columns afterwards. Reading a tree stops at
the first fault. If the layout of the table is known, the layout after the statement is worked
out as well; a reader that moves columns then also leaves the moves in written order.
-/

/-- What is read from a tree, and whether columns are moved. -/
structure Reader where
  clauses : List Clause
  movesColumns : Bool
deriving DecidableEq, Repr, Inhabited

namespace Reader

/-- The clauses that every dialect shares. -/
def base : Reader where
  clauses := [.tableName, .dropColumn]
  movesColumns := false

/-- The shared clauses and further ones behind them. -/
def extended (clauses : List Clause) (movesColumns : Bool) : Reader where
  clauses := base.clauses ++ clauses
  movesColumns := movesColumns

/-- Everything that MySQL says about columns, indexes and the primary key. -/
def mysql : Reader :=
  extended
    [.addColumn, .addIndex, .dropIndex, .renameIndex, .primaryKey .addConstraint,
     .dropPrimaryKey, .changeColumn, .modifyColumn]
    true

/-- The statement with what the tree says by clauses of these kinds. -/
def gather (root : Node) : List Clause → Statement → Except ReadError Statement
  | [], s => .ok s
  | clause :: clauses, s =>
    match clause.apply root s with
    | (s, none) => gather root clauses s
    | (_, some fault) => .error fault

/-- The statement with the layout that it makes of the table's. -/
def settle (reader : Reader) (s : Statement) (table : Layout) : Statement :=
  let redefined := s.redefined table
  if reader.movesColumns then
    { s with moves := Move.inOrder s.moves, layout := some (redefined.reorder s.moves) }
  else
    { s with layout := some redefined }

/-- The statement that a tree says, with the layout after it if the one before it is given. -/
def read (reader : Reader) (root : Node) (table : Option Layout) :
    Except ReadError Statement := do
  if root.rule ≠ .alterTable then
    throw (.unexpectedRoot root.rule)
  let s ← gather root reader.clauses {}
  return match table with
    | some l => reader.settle s l
    | none => s

end Reader

end AlterTable
