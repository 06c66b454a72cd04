import AlterTable.Proofs.Draft.Syntax

/-!
# Alterations

The ten kinds of alterations, the ways to write them, and what a draft as a whole says. What is
reported is grouped by kind. Moves are reported with the offsets of the words that begin their
positions: of added columns first, then of changed ones, then of modified ones.
-/

namespace AlterTable.Draft

open AlterTable.Grammar
open AlterTable.Parse

/-! ## Alterations -/

/-- One thing that is altered about a table. -/
inductive Alteration where
  | addColumn (column : Definition) (position : Option Position)
  | addColumns (columns : Several Definition)
  | addIndex (unique : Bool) (name : Option Name) (parts : Several KeyPart)
  | addPrimaryKey (symbol : Option Name) (parts : Several KeyPart)
  | dropPrimaryKey
  | dropIndex (name : Name)
  | dropColumn (name : Name)
  | renameIndex (old new : Name)
  | changeColumn (old : Name) (column : Definition) (position : Option Position)
  | modifyColumn (column : Definition) (position : Option Position)

/-- One of the two words for an index. -/
inductive IndexWord : List Lexeme → Prop
  | index : IndexWord [.word .index]
  | key : IndexWord [.word .key]

/-- The words for an index, unique or not. -/
inductive IndexKind : Bool → List Lexeme → Prop
  | plain {ls} : IndexWord ls → IndexKind false ls
  | unique : IndexKind true [.word .unique]
  | uniqueIndex {ls} : IndexWord ls → IndexKind true (.word .unique :: ls)

/-- The words for a constraint, which may be there without a name. -/
inductive SymbolWritten : Option Name → List Lexeme → Prop
  | absent : SymbolWritten none []
  | unnamed : SymbolWritten none [.word .constraint]
  | named {n : Name} : SymbolWritten (some n) [.word .constraint, n.lexeme]

/-- The lexeme of a name, if there is one. -/
def nameLexemes (name : Option Name) : List Lexeme :=
  name.toList.map Name.lexeme

namespace Alteration

/-- The ways to write an alteration. -/
inductive Written : Alteration → List Lexeme → Prop
  | addColumn {d p column ls} : Optional .column column → d.Written ls →
      Written (.addColumn d p) (.word .add :: (column ++ (ls ++ positionLexemes p)))
  | addColumns {ds column ls} : Optional .column column →
      Parenthesised Definition.Written ds ls →
      Written (.addColumns ds) (.word .add :: (column ++ ls))
  | addIndex {unique name parts kind ls} : IndexKind unique kind →
      Parenthesised KeyPart.Written parts ls →
      Written (.addIndex unique name parts) (.word .add :: (kind ++ (nameLexemes name ++ ls)))
  | addPrimaryKey {symbol parts constraint ls} : SymbolWritten symbol constraint →
      Parenthesised KeyPart.Written parts ls →
      Written (.addPrimaryKey symbol parts)
        (.word .add :: (constraint ++ (.word .primary :: .word .key :: ls)))
  | dropPrimaryKey : Written .dropPrimaryKey [.word .drop, .word .primary, .word .key]
  | dropIndex {n index} : IndexWord index →
      Written (.dropIndex n) (.word .drop :: (index ++ [n.lexeme]))
  | dropColumn {n column} : Optional .column column →
      Written (.dropColumn n) (.word .drop :: (column ++ [n.lexeme]))
  | renameIndex {old new index} : IndexWord index →
      Written (.renameIndex old new)
        (.word .rename :: (index ++ [old.lexeme, .word .toName, new.lexeme]))
  | changeColumn {old d p column ls} : Optional .column column → d.Written ls →
      Written (.changeColumn old d p)
        (.word .change :: (column ++ (old.lexeme :: (ls ++ positionLexemes p))))
  | modifyColumn {d p column ls} : Optional .column column → d.Written ls →
      Written (.modifyColumn d p) (.word .modify :: (column ++ (ls ++ positionLexemes p)))

/-! ## What alterations say -/

/-- The position that the alteration gives to a column. -/
def position? : Alteration → Option Position
  | addColumn _ p => p
  | changeColumn _ _ p => p
  | modifyColumn _ p => p
  | _ => none

/-- The columns that are added. -/
def added : Alteration → List Column
  | addColumn d _ => [d.column]
  | addColumns ds => ds.toList.map Definition.column
  | _ => []

/-- The column that is changed under its old name. -/
def changed : Alteration → List Change
  | changeColumn old d _ => [⟨old.value, d.column⟩]
  | _ => []

/-- The column that is changed and keeps its name. -/
def modified : Alteration → List Change
  | modifyColumn d _ => [⟨d.name.value, d.column⟩]
  | _ => []

/-- The column that is dropped. -/
def dropped : Alteration → List String
  | dropColumn n => [n.value]
  | _ => []

/-- The index that is added: one without a name is named after its first column. -/
def addedIndex : Alteration → List Index
  | addIndex unique name parts =>
    [{ name := (name.getD parts.first.column).value, columns := columnValues parts, unique }]
  | _ => []

/-- The index that is dropped. -/
def droppedIndex : Alteration → List String
  | dropIndex n => [n.value]
  | _ => []

/-- The index that is renamed. -/
def renamedIndex : Alteration → List IndexRename
  | renameIndex old new => [⟨old.value, new.value⟩]
  | _ => []

/-- The columns that are added to the primary key. -/
def addedKey : Alteration → List String
  | addPrimaryKey _ parts => columnValues parts
  | _ => []

/-- The primary key is dropped. -/
def dropsKey : Alteration → Bool
  | dropPrimaryKey => true
  | _ => false

/-- The move of an added column whose position begins at the offset. -/
def addedMove : Alteration × Nat → List Move
  | (addColumn d (some p), offset) => [⟨offset, d.name.value, p.place⟩]
  | _ => []

/-- The move of a changed column. -/
def changedMove : Alteration × Nat → List Move
  | (changeColumn _ d (some p), offset) => [⟨offset, d.name.value, p.place⟩]
  | _ => []

/-- The move of a modified column. -/
def modifiedMove : Alteration × Nat → List Move
  | (modifyColumn d (some p), offset) => [⟨offset, d.name.value, p.place⟩]
  | _ => []

/-- The alterations, each with the offset of its position if it has one. The offsets are those of
all positions in order. -/
def located : List Alteration → List Nat → List (Alteration × Nat)
  | [], _ => []
  | a :: as, marks =>
    match a.position? with
    | none => (a, 0) :: located as marks
    | some _ => (a, marks.headD 0) :: located as marks.tail

end Alteration

end AlterTable.Draft

namespace AlterTable

open AlterTable.Grammar
open AlterTable.Parse

/-! ## Drafts -/

/-- A statement without a text. -/
structure Draft where
  schema : Option Draft.Identifier
  table : Draft.Identifier
  alterations : Draft.Several Draft.Alteration

namespace Draft

/-- The ways to write the name of a table. -/
inductive TableWritten : Option Identifier → Identifier → List Lexeme → Prop
  | plain {table ls} : Identifier.Written table ls → TableWritten none table ls
  | qualified {schema table ls ls'} : Identifier.Written schema ls →
      Identifier.Written table ls' → TableWritten (some schema) table (ls ++ .dot :: ls')

/-- The ways to write a draft, with a semicolon behind it or without one. -/
def Written (d : Draft) (ls : List Lexeme) : Prop :=
  ∃ table alterations semicolon,
    ls = .word .alter :: .word .table :: (table ++ (alterations ++ semicolon)) ∧
    TableWritten d.schema d.table table ∧ Listed Alteration.Written d.alterations alterations ∧
    (semicolon = [] ∨ semicolon = [.mark .semicolon])

/-- The text renders the draft, with the positions at the given offsets. -/
def Renders (d : Draft) (text : List Char) (marks : List Nat) : Prop :=
  ∃ ls n, d.Written ls ∧ Lays ls (.ofText text) marks n ∧ Gap n.rest

/-- The name of the table, with its schema if there is one. -/
def tableValue (d : Draft) : String :=
  String.ofList (d.schema.elim d.table.text fun s => s.text ++ '.' :: d.table.text)

/-- What a text that renders the draft is read as. -/
def statement (d : Draft) (marks : List Nat) : Statement :=
  let as := d.alterations.toList
  let located := Alteration.located as marks
  { table := d.tableValue
    addedColumns := as.flatMap Alteration.added
    changedColumns := as.flatMap Alteration.changed ++ as.flatMap Alteration.modified
    droppedColumns := as.flatMap Alteration.dropped
    addedIndexes := as.flatMap Alteration.addedIndex
    droppedIndexes := as.flatMap Alteration.droppedIndex
    renamedIndexes := as.flatMap Alteration.renamedIndex
    addedPrimaryKey := as.flatMap Alteration.addedKey
    dropsPrimaryKey := as.any Alteration.dropsKey
    moves := located.flatMap Alteration.addedMove ++
      (located.flatMap Alteration.changedMove ++ located.flatMap Alteration.modifiedMove) }

end Draft

end AlterTable
