import AlterTable.Proofs.Grammar.Production

/-!
# The grammar of statements

`Production.statement` is the grammar that is read, one production for each of its parts. It says
which texts are statements and what their trees are, and nothing of the order in which
alternatives are tried, of words that commit to one, or of how far an option or a repetition goes.
-/

namespace AlterTable.Grammar.Production

/-! ## Building productions -/

/-- One part after the other. -/
def seqs : List Production → Production
  | [] => .empty
  | a :: as => .seq a (seqs as)

/-- One of the parts. -/
def alts : List Production → Production
  | [] => .never
  | a :: as => .alt a (alts as)

/-- The part or nothing. -/
def option (a : Production) : Production := .alt a .empty

/-- A keyword. -/
def keyword (k : Keyword) : Production := .token (.keyword k)

/-- Keywords one after the other. -/
def keywords (ks : List Keyword) : Production := seqs (ks.map keyword)

/-- A punctuation mark. -/
def mark (m : Mark) : Production := .token (.mark m)

/-- A node without children. -/
def leaf (r : Rule) (a : Production) : Production := .node r (.seq a .empty)

/-- A name as a node. -/
def name (r : Rule) : Production := leaf r (.token .identifier)

/-- The part once or more, with commas between. -/
def list (a : Production) : Production := seqs [a, .star (.seq (mark .comma) a)]

/-- The part in parentheses. -/
def parens (a : Production) : Production := seqs [mark .openParen, a, mark .closeParen]

variable {spelling : Token → List Char → List Char → Prop}
variable {c n : Parse.Cursor} {xs : List Node} {as : List Production}

/-- One of the alternatives derives what they derive together. -/
theorem derives_alts : Derives spelling (alts as) c xs n ↔ ∃ a ∈ as, Derives spelling a c xs n := by
  induction as with
  | nil => simp [alts]
  | cons a as ih => simp only [alts, derives_alt, ih, List.mem_cons, exists_eq_or_imp]

/-! ## Columns -/

/-- `(digits, ...)` -/
def numbers : Production := seqs [parens (list (.token .digits))]

/-- `identifier [numbers] [UNSIGNED]` -/
def dataType : Production :=
  leaf .dataType (seqs [.token .identifier, option numbers, option (keyword .unsigned)])

/-- `NOT NULL | NULL | PRIMARY KEY | AUTO_INCREMENT | UNIQUE [KEY] | DEFAULT literal |
COMMENT string` -/
def columnAttribute : Production :=
  alts
    [leaf .notNull (keywords [.not, .null]),
     leaf .columnAttribute (keywords [.null]),
     leaf .primaryKey (keywords [.primary, .key]),
     leaf .autoIncrement (keywords [.autoIncrement]),
     leaf .unique (seqs [keyword .unique, option (keyword .key)]),
     leaf .columnAttribute (.seq (keyword .default) (.token .literal)),
     leaf .columnAttribute (.seq (keyword .comment) (.token .string))]

/-- `name type attribute*` -/
def definition : Production :=
  .node .columnDefinition (seqs [name .columnName, dataType, .star columnAttribute])

/-- `FIRST | AFTER name` -/
def position : Production :=
  .node .firstOrAfterColumn
    (alts [seqs [keyword .first], seqs [keyword .after, name .columnName]])

/-! ## Indexes -/

/-- `INDEX | KEY` -/
def indexOrKey : Production := alts [keyword .index, keyword .key]

/-- `name [numbers] [ASC | DESC]` -/
def keyPart : Production :=
  seqs [name .columnName, option numbers, option (alts [keyword .asc, keyword .desc])]

/-- `(keyPart, ...)` -/
def keyParts : Production := .node .keyParts (parens (list keyPart))

/-- `UNIQUE [INDEX | KEY] | INDEX | KEY` -/
def indexKind : Production :=
  alts [seqs [leaf .unique (keywords [.unique]), option indexOrKey], seqs [indexOrKey]]

/-! ## Specifications -/

/-- `ADD (UNIQUE [INDEX | KEY] | INDEX | KEY) [name] keyParts` -/
def addIndex : Production :=
  .node .addIndex (seqs [keyword .add, indexKind, option (name .indexName), keyParts])

/-- `CONSTRAINT [name]` -/
def constraint : Production :=
  .seq (keyword .constraint) (option (name .constraintName))

/-- `ADD [CONSTRAINT [name]] PRIMARY KEY keyParts` -/
def addConstraint : Production :=
  .node .addConstraint (seqs
    [keyword .add, option constraint, leaf .primaryKey (keywords [.primary, .key]), keyParts])

/-- `definition [position] | (definition, ...)` -/
def addedColumns : Production :=
  alts [parens (list definition), seqs [definition, option position]]

/-- `ADD [COLUMN] addedColumns` -/
def addColumn : Production :=
  .node .addColumn (.seq (keyword .add) (.seq (option (keyword .column)) addedColumns))

/-- `DROP PRIMARY KEY` -/
def dropPrimaryKey : Production := .node .dropPrimaryKey (keywords [.drop, .primary, .key])

/-- `DROP (INDEX | KEY) name` -/
def dropIndex : Production :=
  .node .dropIndex (seqs [keyword .drop, indexOrKey, name .indexName])

/-- `DROP [COLUMN] name` -/
def dropColumn : Production :=
  .node .dropColumn (seqs [keyword .drop, option (keyword .column), name .columnName])

/-- `RENAME (INDEX | KEY) name TO name` -/
def renameIndex : Production :=
  .node .renameIndex (seqs
    [keyword .rename, indexOrKey, name .indexName, keyword .toName, name .indexName])

/-- `CHANGE [COLUMN] name definition [position]` -/
def changeColumn : Production :=
  .node .changeColumn (seqs
    [keyword .change, option (keyword .column), name .columnName, definition, option position])

/-- `MODIFY [COLUMN] definition [position]` -/
def modifyColumn : Production :=
  .node .modifyColumn (seqs
    [keyword .modify, option (keyword .column), definition, option position])

/-- One change to the table. -/
def specification : Production :=
  alts [addIndex, addConstraint, addColumn, dropPrimaryKey, dropIndex, dropColumn, renameIndex,
    changeColumn, modifyColumn]

/-! ## Statements -/

/-- `identifier['.' identifier]` -/
def tableName : Production :=
  leaf .tableName
    (seqs [.token .identifier, option (.seq (.token .dot) (.token .identifier))])

/-- `ALTER TABLE tableName specification, ...` -/
def alterTable : Production :=
  .node .alterTable
    (.seq (keywords [.alter, .table]) (seqs [tableName, list specification]))

/-- A whole text: `alterTable [;]` and white space. -/
def statement : Production :=
  seqs [alterTable, option (mark .semicolon), .token .space, .token .stop]

/-- The text is a statement if tokens are spelled like this. -/
def Derivable (spelling : Token → List Char → List Char → Prop) (text : List Char) : Prop :=
  ∃ trees n, statement.Derives spelling (Parse.Cursor.ofText text) trees n

/-- The text is a statement of the grammar. -/
def Generates (text : List Char) : Prop :=
  Derivable Token.Spelled text

/-- The text is a statement only if the Kelvin sign that it ends with is taken for `KEY`, or is a
name behind a `DROP` and not taken for it. -/
def Misleading (text : List Char) : Prop :=
  Derivable Token.Accepted text ∧ ¬ Derivable Token.Plain text

end AlterTable.Grammar.Production
