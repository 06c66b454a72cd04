import AlterTable.Grammar.Token
import AlterTable.Node

/-!
# The grammar of statements

`ALTER TABLE name specification [, specification ...] [;]`, the part of the statement that can
be read. The alternatives of a specification are tried in the order of `specification`; a
clause that has been recognised by its first words is committed to.
-/

namespace AlterTable.Grammar

open AlterTable.Parse
open AlterTable.Parse.Parser

/-!
## Nodes for what was read

A node spans what was read for it, less the white space at either end. Here white space is all
that Unicode calls so, which is more than tokens skip: an identifier that begins or ends with
such a character has a text shorter than what was read, and one that consists of them has an
empty text, which then starts where the identifier ends.
-/

/-- The node for the text between two places. -/
def span (r : Rule) (c next : Cursor) (children : List Node) : Node :=
  let consumed := c.upTo next
  { rule := r
    text := String.ofList (Text.trim consumed)
    start := c.offset + Text.byteLength (consumed.takeWhile Text.isWhiteSpace)
    children := children }

/-- Reads the children of a node, and gives the node that spans what was read. -/
def node (r : Rule) (p : Parser (List Node)) : Parser Node := fun c =>
  match p c with
  | .done children next => .done (span r c next children) next
  | .refused t => .refused t
  | .fatal t => .fatal t

/-- A node without children. -/
def leaf (r : Rule) (p : Parser Unit) : Parser Node :=
  node r (do p; return [])

/-- A name as a node. -/
def name (r : Rule) : Parser Node :=
  leaf r identifier

/-- A node starts no earlier than its reading did. -/
theorem offset_le_start_span (r : Rule) (c next : Cursor) (children : List Node) :
    c.offset ≤ (span r c next children).start :=
  Nat.le_add_right _ _

/-!
## Column definitions

The definition of a column, name, data type and attributes, and the position that may follow
the definition where a single column is added, changed or modified.
-/

/-- A data type: a name, perhaps numbers in parentheses, perhaps `UNSIGNED`. -/
def dataType : Parser Node :=
  leaf .dataType do
    identifier
    let _ ← maybe numbers
    let _ ← maybe (keyword .unsigned)

/-- `UNIQUE [KEY]` -/
def uniqueAttribute : Parser Node :=
  leaf .unique do
    keyword .unique
    let _ ← maybe (keyword .key)

/-- `DEFAULT literal` -/
def defaultAttribute : Parser Node :=
  leaf .columnAttribute do
    keyword .default
    commit literal

/-- `COMMENT 'text'` -/
def commentAttribute : Parser Node :=
  leaf .columnAttribute do
    keyword .comment
    commit (do gap; string)

/-- An attribute of a column. -/
def columnAttribute : Parser Node :=
  choice
    [leaf .notNull (keywords [.not, .null]),
     leaf .columnAttribute (keywords [.null]),
     leaf .primaryKey (keywords [.primary, .key]),
     leaf .autoIncrement (keywords [.autoIncrement]),
     uniqueAttribute,
     defaultAttribute,
     commentAttribute]

/-- `name type [attribute ...]` -/
def definition : Parser Node :=
  node .columnDefinition do
    let column ← name .columnName
    let type ← named "data type" dataType
    let attributes ← many columnAttribute
    return column :: type :: attributes

/-- `FIRST | AFTER name` -/
def position : Parser Node :=
  node .firstOrAfterColumn (choice
    [do
      keyword .first
      return [],
     do
      keyword .after
      let anchor ← commit (named "after column" (name .columnName))
      return [anchor]])

/-!
## Indexes

The clauses about indexes and primary keys. A key part names a column; the length and the
sorting direction that may follow it leave no trace in the tree.
-/

/-- `INDEX | KEY` -/
def indexOrKey : Parser Unit :=
  choice [keyword .index, keyword .key]

/-- `name [(length)] [ASC | DESC]` -/
def keyPart : Parser Node := do
  let column ← name .columnName
  let _ ← maybe numbers
  let _ ← maybe (choice [keyword .asc, keyword .desc])
  return column

/-- `(key_part, ...)` -/
def keyParts : Parser Node :=
  node .keyParts (between (mark '(') (mark ')') (separatedBy (mark ',') keyPart))

/-- `UNIQUE [INDEX | KEY]`, or one of the two words alone; the former has a node. -/
def indexKind : Parser (Option Node) :=
  choice
    [do
      let unique ← leaf .unique (keywords [.unique])
      let _ ← maybe indexOrKey
      return some unique,
     do
      indexOrKey
      return none]

/-- `ADD {UNIQUE [INDEX | KEY] | INDEX | KEY} [name] (key_part, ...)` -/
def addIndex : Parser Node :=
  node .addIndex do
    keyword .add
    let unique ← indexKind
    commit do
      let index ← maybe (name .indexName)
      let parts ← keyParts
      return unique.toList ++ index.toList ++ [parts]

/-- `CONSTRAINT [name]` -/
def constraint : Parser (Option Node) := do
  keyword .constraint
  maybe (name .constraintName)

/-- `ADD [CONSTRAINT [name]] PRIMARY KEY (key_part, ...)` -/
def addConstraint : Parser Node :=
  node .addConstraint do
    keyword .add
    let symbol ← maybe constraint
    let primaryKey ← leaf .primaryKey (keywords [.primary, .key])
    let parts ← commit keyParts
    return symbol.join.toList ++ [primaryKey, parts]

/-- `DROP PRIMARY KEY` -/
def dropPrimaryKey : Parser Node :=
  leaf .dropPrimaryKey (keywords [.drop, .primary, .key])

/-- `DROP {INDEX | KEY} name` -/
def dropIndex : Parser Node :=
  node .dropIndex do
    keyword .drop
    indexOrKey
    let index ← commit (name .indexName)
    return [index]

/-- `RENAME {INDEX | KEY} name TO name` -/
def renameIndex : Parser Node :=
  node .renameIndex do
    keyword .rename
    indexOrKey
    commit do
      let old ← name .indexName
      keyword .toName
      let new ← name .indexName
      return [old, new]

/-! ## Statements -/

/-- `ADD [COLUMN] {definition [position] | (definition, ...)}` -/
def addColumn : Parser Node :=
  node .addColumn do
    keyword .add
    let _ ← maybe (keyword .column)
    commit (choice
      [between (mark '(') (mark ')') (separatedBy (mark ',') definition),
       do
        let column ← definition
        let place ← maybe position
        return column :: place.toList])

/-- `DROP [COLUMN] name` -/
def dropColumn : Parser Node :=
  node .dropColumn do
    keyword .drop
    let _ ← maybe (keyword .column)
    let column ← commit (name .columnName)
    return [column]

/-- `CHANGE [COLUMN] name definition [position]` -/
def changeColumn : Parser Node :=
  node .changeColumn do
    keyword .change
    let _ ← maybe (keyword .column)
    commit do
      let old ← name .columnName
      let column ← definition
      let place ← maybe position
      return old :: column :: place.toList

/-- `MODIFY [COLUMN] definition [position]` -/
def modifyColumn : Parser Node :=
  node .modifyColumn do
    keyword .modify
    let _ ← maybe (keyword .column)
    commit do
      let column ← definition
      let place ← maybe position
      return column :: place.toList

/-- One change to the table. -/
def specification : Parser Node :=
  named "alter specification" (choice
    [addIndex, addConstraint, addColumn, dropPrimaryKey, dropIndex, dropColumn, renameIndex,
     changeColumn, modifyColumn])

/-- `[schema.]table`, without white space before the dot. -/
def tableName : Parser Node :=
  leaf .tableName do
    identifier
    let _ ← maybe (do fixed ['.']; identifier)

/-- `ALTER TABLE name specification [, specification ...]` -/
def alterTable : Parser Node :=
  node .alterTable do
    keywords [.alter, .table]
    commit do
      let table ← named "table name" tableName
      let specifications ← separatedBy (mark ',') specification
      return table :: specifications

/-- A whole statement, perhaps with a semicolon and white space at its end. -/
def statement : Parser Node := do
  let tree ← alterTable
  let _ ← maybe (mark ';')
  gap
  endOfText
  return tree

end AlterTable.Grammar
