import AlterTable.Layout

/-!
# Statements

Everything that one `ALTER TABLE` statement changes, kind by kind, the facts of which a statement
is made up, and what it makes of the columns of its table. Recording a fact adds it behind what is
known already: no list loses or changes an entry, and a primary key that is dropped stays dropped.
-/

namespace AlterTable

/-! ## What is changed -/

/-- A column that gets a new definition, and perhaps a new name by it. -/
structure Change where
  oldName : String
  definition : Column
deriving DecidableEq, Repr, Inhabited

/-- An index over columns of the table. -/
structure Index where
  name : String
  columns : List String
  unique : Bool
deriving DecidableEq, Repr, Inhabited

/-- An index that gets a new name. -/
structure IndexRename where
  oldName : String
  newName : String
deriving DecidableEq, Repr, Inhabited

/-- What a statement changes. -/
structure Statement where
  table : String := ""
  addedColumns : List Column := []
  changedColumns : List Change := []
  droppedColumns : List String := []
  addedIndexes : List Index := []
  droppedIndexes : List String := []
  renamedIndexes : List IndexRename := []
  addedPrimaryKey : List String := []
  dropsPrimaryKey : Bool := false
  /-- In the order of the clause readers; in written order once they have been made. -/
  moves : List Move := []
  /-- The layout after the statement, known only if the one before it is. -/
  layout : Option Layout := none
deriving DecidableEq, Repr, Inhabited

/-- One thing that a clause says. -/
inductive Fact where
  | table (name : String)
  | addColumn (definition : Column) (move : Option Move)
  | changeColumn (change : Change) (move : Option Move)
  | dropColumn (name : String)
  | addIndex (index : Index)
  | dropIndex (name : String)
  | renameIndex (rename : IndexRename)
  | addPrimaryKey (columns : List String)
  | dropPrimaryKey
deriving DecidableEq, Repr, Inhabited

namespace Statement

/-- The definition that the statement gives to a column of this name: that of an added column
if there is one, else that of a changed one. -/
def definition? (s : Statement) (name : String) : Option Column :=
  (s.addedColumns ++ s.changedColumns.map Change.definition).find? (·.name == name)

/-- The statement with one more fact. -/
def record (s : Statement) : Fact → Statement
  | .table name => { s with table := name }
  | .addColumn definition move =>
    { s with addedColumns := s.addedColumns ++ [definition], moves := s.moves ++ move.toList }
  | .changeColumn change move =>
    { s with changedColumns := s.changedColumns ++ [change], moves := s.moves ++ move.toList }
  | .dropColumn name => { s with droppedColumns := s.droppedColumns ++ [name] }
  | .addIndex index => { s with addedIndexes := s.addedIndexes ++ [index] }
  | .dropIndex name => { s with droppedIndexes := s.droppedIndexes ++ [name] }
  | .renameIndex rename => { s with renamedIndexes := s.renamedIndexes ++ [rename] }
  | .addPrimaryKey columns => { s with addedPrimaryKey := s.addedPrimaryKey ++ columns }
  | .dropPrimaryKey => { s with dropsPrimaryKey := true }

end Statement

/-!
## The layout after a statement

What a statement makes of the columns of its table, apart from moving them. The steps stand in
a fixed order: a dropped primary key is taken off, columns are redefined, columns are dropped,
new columns are put behind the others, and an added primary key is put on. Each step finds its
columns by the names that the steps before it left.
-/

namespace Layout

/-- The layout without a primary key. -/
def clearPrimaryKey (l : Layout) : Layout :=
  l.map (·.setPrimaryKey false)

/-- The layout with the named columns added to the primary key. -/
def addPrimaryKey (l : Layout) (names : List String) : Layout :=
  l.map fun c => if names.contains c.name then c.setPrimaryKey true else c

/-- What becomes of a column by a new definition: a column stays in the primary key. -/
def redefine (old definition : Column) : Column :=
  if old.inPrimaryKey then definition.setPrimaryKey true else definition

/-- The layout with a new definition for the first column of the old name, if there is one. -/
def change (l : Layout) (c : Change) : Layout :=
  match l with
  | [] => []
  | column :: rest =>
    if column.name = c.oldName then redefine column c.definition :: rest
    else column :: change rest c

/-- The layout without the columns of these names. -/
def drop (l : Layout) (names : List String) : Layout :=
  l.filter fun c => !names.contains c.name

/-- A change keeps the number of columns. -/
@[simp] theorem length_change (l : Layout) (c : Change) : (l.change c).length = l.length := by
  induction l with
  | nil => rfl
  | cons column rest ih =>
    unfold change
    split <;> simp [ih]

/-- A change of a column that is not there changes nothing. -/
theorem change_of_not_mem {l : Layout} {c : Change} (h : c.oldName ∉ l.names) :
    l.change c = l := by
  induction l with
  | nil => rfl
  | cons column rest ih =>
    simp only [names, List.map_cons, List.mem_cons, not_or] at h
    simp [change, Ne.symm h.1, ih h.2]

end Layout

namespace Statement

/-- The layout that the statement makes of a layout, before any column is moved. -/
def redefined (s : Statement) (l : Layout) : Layout :=
  let kept := if s.dropsPrimaryKey then l.clearPrimaryKey else l
  let changed := s.changedColumns.foldl Layout.change kept
  (changed.drop s.droppedColumns ++ s.addedColumns).addPrimaryKey s.addedPrimaryKey

end Statement

end AlterTable
