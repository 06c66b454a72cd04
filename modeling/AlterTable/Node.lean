import AlterTable.Text

/-!
# Trees

A statement that has been read is a tree: each node carries the rule it was read by, its text,
the offset at which the text starts, and the nodes inside it. Trees may also come from
elsewhere, and nothing here assumes that a node's text contains those of its children: whoever
looks something up in a tree looks for a rule.

Nodes are looked up breadth first: `nodes` lists a tree level by level, from the node itself
downwards and on each level from left to right; `first?` and `all` filter that list by rule.
-/

namespace AlterTable

/-! ## Rules -/

/-- The kind of a node: the rule of the grammar that its text was read by. -/
inductive Rule where
  | alterTable
  | tableName
  | addColumn
  | columnDefinition
  | columnName
  | dataType
  | primaryKey
  | notNull
  | autoIncrement
  | columnAttribute
  | firstOrAfterColumn
  | addIndex
  | unique
  | indexName
  | keyParts
  | dropIndex
  | renameIndex
  | addConstraint
  | constraintName
  | dropPrimaryKey
  | dropColumn
  | changeColumn
  | modifyColumn
deriving DecidableEq, Repr, Inhabited

namespace Rule

/-- The name under which a rule appears in trees and messages. -/
def name : Rule → String
  | alterTable => "AlterTable"
  | tableName => "TableName"
  | addColumn => "AddColumn"
  | columnDefinition => "ColumnDefinition"
  | columnName => "ColumnName"
  | dataType => "DataType"
  | primaryKey => "PrimaryKey"
  | notNull => "NotNull"
  | autoIncrement => "AutoIncrement"
  | columnAttribute => "ColumnAttribute"
  | firstOrAfterColumn => "FirstOrAfterColumn"
  | addIndex => "AddIndex"
  | unique => "Unique"
  | indexName => "IndexName"
  | keyParts => "KeyParts"
  | dropIndex => "DropIndex"
  | renameIndex => "RenameIndex"
  | addConstraint => "AddConstraint"
  | constraintName => "ConstraintName"
  | dropPrimaryKey => "DropPrimaryKey"
  | dropColumn => "DropColumn"
  | changeColumn => "ChangeColumn"
  | modifyColumn => "ModifyColumn"

/-- Every rule once. -/
def all : List Rule :=
  [alterTable, tableName, addColumn, columnDefinition, columnName, dataType, primaryKey, notNull,
   autoIncrement, columnAttribute, firstOrAfterColumn, addIndex, unique, indexName, keyParts,
   dropIndex, renameIndex, addConstraint, constraintName, dropPrimaryKey, dropColumn,
   changeColumn, modifyColumn]

/-- The rule with this name, if there is one. -/
def ofName? (s : String) : Option Rule :=
  all.find? fun r => r.name == s

/-- A rule is found by its own name, so no two rules share one. -/
theorem ofName?_name (r : Rule) : ofName? r.name = some r := by
  cases r <;> decide

end Rule

/-! ## Nodes -/

/-- A node of a tree. -/
structure Node where
  rule : Rule
  text : String := ""
  /-- The offset in bytes of the first character of the text. -/
  start : Nat := 0
  children : List Node := []
deriving Inhabited

namespace Node

/-- The offset of the last byte of the text; an empty text at the very start ends at 0. -/
def stop (n : Node) : Nat :=
  n.start + Text.byteLength n.text.toList - 1

/-- The text with identifier quoting removed. -/
def exactText (n : Node) : String :=
  String.ofList (Text.unquote n.text.toList)

/-! ### Size -/

mutual

/-- The number of nodes of a tree. -/
def size : Node → Nat
  | ⟨_, _, _, children⟩ => sizes children + 1

/-- The number of nodes of several trees. -/
def sizes : List Node → Nat
  | [] => 0
  | n :: ns => size n + sizes ns

end

/-- A node counts itself and everything below it. -/
theorem size_eq (n : Node) : n.size = sizes n.children + 1 := by
  cases n
  rfl

/-- The nodes of two lists are counted one list after the other. -/
@[simp] theorem sizes_append (ns ms : List Node) : sizes (ns ++ ms) = sizes ns + sizes ms := by
  induction ns with
  | nil => simp [sizes]
  | cons n ns ih => simp [sizes, ih, Nat.add_assoc]

/-! ### Breadth-first lookup -/

/-- The nodes of the trees in a queue: each tree's root is listed when its turn comes, and the
root's children join the queue at its end. -/
def breadthFirst : List Node → List Node
  | [] => []
  | n :: queue => n :: breadthFirst (queue ++ n.children)
termination_by queue => sizes queue
decreasing_by simp [sizes, size_eq]; omega

/-- The nodes of the tree in breadth-first order. -/
def nodes (n : Node) : List Node :=
  breadthFirst [n]

/-- The first node of this rule in breadth-first order, the node itself included. -/
def first? (n : Node) (r : Rule) : Option Node :=
  n.nodes.find? (·.rule == r)

/-- Every node of this rule in breadth-first order, the node itself included. -/
def all (n : Node) (r : Rule) : List Node :=
  n.nodes.filter (·.rule == r)

/-- The node reached by looking up one rule after the other. -/
def follow? (n : Node) (path : List Rule) : Option Node :=
  path.foldlM first? n

/-- The first node of a rule leads the list of all of them. -/
theorem first?_eq_head?_all (n : Node) (r : Rule) : n.first? r = (n.all r).head? := by
  simp [first?, all, List.head?_filter]

/-- What is found has the rule that was asked for. -/
theorem rule_of_first? {n m : Node} {r : Rule} (h : n.first? r = some m) : m.rule = r := by
  simpa using List.find?_some h

end Node

end AlterTable
