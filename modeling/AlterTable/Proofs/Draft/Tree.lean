import AlterTable.Proofs.Draft.Derivation
import AlterTable.Proofs.Text
import AlterTable.Reader

/-!
# Trees of drafts

The tree that the grammar derives for a draft, as far as readers look at it: one node for each
alteration behind that of the table's name, and in it the nodes of its names and definitions. The
node of a position starts at the offset that the draft is laid out with.
-/

namespace AlterTable.Draft

open AlterTable.Grammar
open AlterTable.Grammar.Production
open AlterTable.Parse

variable {c m n : Cursor} {marks : List Nat} {ls : List Lexeme} {k : Keyword}

/-! ## Positions -/

/-- The node of a position that begins at the offset. -/
inductive IsPosition : Position → Nat → Node → Prop
  | first {t : Node} : t.rule = .firstOrAfterColumn → t.children = [] →
      IsPosition .first t.start t
  | after {t : Node} {anchor a} : t.rule = .firstOrAfterColumn → t.children = [a] →
      IsName .columnName anchor a → IsPosition (.after anchor) t.start t

/-- The node of a position, if there is one. -/
inductive IsPlaced : Option Position → List Nat → List Node → Prop
  | none : IsPlaced none [] []
  | some {p offset t} : IsPosition p offset t → IsPlaced (some p) [offset] [t]

/-- A position is derived, and its node starts at the offset that it is laid out with. -/
theorem lays_position {p : Position} (h : Lays p.lexemes c marks n) : ∃ offset t,
    marks = [offset] ∧ Production.position.Derives Token.Spelled c [t] n ∧
      IsPosition p offset t := by
  cases p with
  | first =>
    obtain ⟨g, w, rfl, hg, hw, hover, -⟩ := lays_singleton.mp h
    have hd := derives_word h
    have htight := isTight_of_isWord (Keyword.isWord_of_lower hw) (ascii_of_lower hw) []
    rw [List.append_nil] at htight
    have hnode : Production.position.Derives Token.Spelled c
        [span .firstOrAfterColumn c n ([] ++ [])] n := .node (.left (.seq hd .empty))
    refine ⟨_, _, ?_, hnode, .first rfl rfl⟩
    rw [start_span hg htight hover]
    rfl
  | after anchor =>
    obtain ⟨m, ms, ms', rfl, h₁, h₂⟩ := lays_cons.mp h
    obtain ⟨rfl, a, hname, ha⟩ := lays_name h₂ .columnName
    have hd := derives_word h₁
    obtain ⟨g, w, rfl, hg, hw, hover, -⟩ := lays_singleton.mp h₁
    obtain ⟨v, hv⟩ := hname.over
    have htight := isTight_of_isWord (Keyword.isWord_of_lower hw) (ascii_of_lower hw) v
    have hboth := hover.trans hv
    rw [List.append_assoc] at hboth
    have hnode : Production.position.Derives Token.Spelled c
        [span .firstOrAfterColumn c n ([] ++ ([a] ++ []))] n :=
      .node (.right (.left (.seq hd (.seq hname .empty))))
    refine ⟨_, _, ?_, hnode, .after rfl rfl ha⟩
    rw [start_span hg htight hboth]
    rfl

/-- A position that may be missing is derived with at most one node. -/
theorem lays_maybePosition {p : Option Position} (h : Lays (positionLexemes p) c marks n) :
    ∃ ts, (Production.option .position).Derives Token.Spelled c ts n ∧ IsPlaced p marks ts := by
  cases p with
  | none =>
    obtain ⟨rfl, rfl⟩ := lays_nil.mp h
    exact ⟨[], .right .empty, .none⟩
  | some p =>
    obtain ⟨offset, t, rfl, hd, ht⟩ := lays_position h
    exact ⟨[t], .left hd, .some ht⟩

/-! ## Keys -/

/-- The node of a key part is that of its column. -/
def IsKeyPart (part : KeyPart) (t : Node) : Prop :=
  IsName .columnName part.column t

/-- The node of the columns of an index. -/
structure IsKey (parts : Several KeyPart) (t : Node) : Prop where
  rule : t.rule = .keyParts
  children : List.Forall₂ IsKeyPart parts.toList t.children

/-- However a key part is written, the grammar derives it with the node of its column. -/
theorem derivedBy_keyPart {part : KeyPart} (h : part.Written ls) :
    DerivedBy .keyPart (One IsKeyPart) part ls := by
  obtain ⟨ls', rfl, hnumbers⟩ := h
  intro c marks n hl
  obtain ⟨m, ms, ms', rfl, h₁, h₂⟩ := lays_cons.mp hl
  obtain ⟨m', ms, ms', rfl, h₂, h₃⟩ := lays_append.mp h₂
  obtain ⟨rfl, t, hname, ht⟩ := lays_name h₁ .columnName
  obtain ⟨rfl, hd⟩ := derives_numbers hnumbers h₂
  have hdirection : ms' = [] ∧ (Production.option (.alts [.keyword .asc, .keyword .desc])).Derives
      Token.Spelled m' [] n := by
    cases hdir : part.direction with
    | none =>
      rw [hdir] at h₃
      obtain ⟨rfl, rfl⟩ := lays_nil.mp h₃
      exact ⟨rfl, .right .empty⟩
    | some d =>
      rw [hdir] at h₃
      cases d with
      | ascending =>
        obtain ⟨hword, rfl⟩ := lays_word (by decide) h₃
        exact ⟨rfl, .left (.left hword)⟩
      | descending =>
        obtain ⟨hword, rfl⟩ := lays_word (by decide) h₃
        exact ⟨rfl, .left (.right (.left hword))⟩
  obtain ⟨rfl, hd'⟩ := hdirection
  exact ⟨_, .seq hname (.seq hd (.seq hd' .empty)), rfl, t, rfl, ht⟩

/-- The columns of an index are derived with one node over those of the columns. -/
theorem lays_key {parts : Several KeyPart} (h : Parenthesised KeyPart.Written parts ls)
    (hl : Lays ls c marks n) :
    marks = [] ∧ ∃ t, Production.keyParts.Derives Token.Spelled c [t] n ∧ IsKey parts t := by
  obtain ⟨ts, hd, hts⟩ := derives_parenthesised derivedBy_keyPart h hl
  obtain ⟨rfl, hall⟩ := hts.forall₂ id
  exact ⟨rfl, _, .node hd, rfl, hall⟩

/-! ## Alterations -/

/-- The node that says whether an index is unique. -/
inductive IsUnique : Bool → List Node → Prop
  | plain : IsUnique false []
  | unique {t : Node} : t.rule = .unique → t.children = [] → IsUnique true [t]

/-- The node of an alteration whose position, if there is one, begins at the offset. -/
inductive IsAlteration : Alteration → List Nat → Node → Prop
  | addColumn {d p marks t column place} : t.rule = .addColumn → t.children = column :: place →
      IsDefinition d column → IsPlaced p marks place → IsAlteration (.addColumn d p) marks t
  | addColumns {ds t} : t.rule = .addColumn →
      List.Forall₂ IsDefinition ds.toList t.children → IsAlteration (.addColumns ds) [] t
  | addIndex {unique name parts t kind names key} : t.rule = .addIndex →
      t.children = kind ++ (names ++ [key]) → IsUnique unique kind →
      List.Forall₂ (IsName .indexName) name.toList names → IsKey parts key →
      IsAlteration (.addIndex unique name parts) [] t
  | addPrimaryKey {symbol parts t symbols primary key} : t.rule = .addConstraint →
      t.children = symbols ++ [primary, key] →
      List.Forall₂ (IsName .constraintName) symbol.toList symbols →
      primary.rule = .primaryKey → primary.children = [] → IsKey parts key →
      IsAlteration (.addPrimaryKey symbol parts) [] t
  | dropPrimaryKey {t} : t.rule = .dropPrimaryKey → t.children = [] →
      IsAlteration .dropPrimaryKey [] t
  | dropIndex {n t a} : t.rule = .dropIndex → t.children = [a] → IsName .indexName n a →
      IsAlteration (.dropIndex n) [] t
  | dropColumn {n t a} : t.rule = .dropColumn → t.children = [a] → IsName .columnName n a →
      IsAlteration (.dropColumn n) [] t
  | renameIndex {old new t a b} : t.rule = .renameIndex → t.children = [a, b] →
      IsName .indexName old a → IsName .indexName new b →
      IsAlteration (.renameIndex old new) [] t
  | changeColumn {old d p marks t a column place} : t.rule = .changeColumn →
      t.children = a :: column :: place → IsName .columnName old a → IsDefinition d column →
      IsPlaced p marks place → IsAlteration (.changeColumn old d p) marks t
  | modifyColumn {d p marks t column place} : t.rule = .modifyColumn →
      t.children = column :: place → IsDefinition d column → IsPlaced p marks place →
      IsAlteration (.modifyColumn d p) marks t

/-- There is one node, and it is that of the alteration. -/
def OneAlteration (x : Alteration) (marks : List Nat) (ts : List Node) : Prop :=
  ∃ t, ts = [t] ∧ IsAlteration x marks t

/-- Either word for an index is derived without nodes. -/
theorem lays_indexWord (h : IndexWord ls) (hl : Lays ls c marks n) :
    Production.indexOrKey.Derives Token.Spelled c [] n ∧ marks = [] := by
  cases h with
  | index =>
    obtain ⟨hd, rfl⟩ := lays_word (by decide) hl
    exact ⟨.left hd, rfl⟩
  | key =>
    obtain ⟨hd, rfl⟩ := lays_word (by decide) hl
    exact ⟨.right (.left hd), rfl⟩

/-- The words for an index are derived with a node if it is unique. -/
theorem lays_indexKind {unique : Bool} (h : IndexKind unique ls) (hl : Lays ls c marks n) :
    marks = [] ∧ ∃ ts, Production.indexKind.Derives Token.Spelled c ts n ∧ IsUnique unique ts := by
  cases h with
  | plain hword =>
    obtain ⟨hd, rfl⟩ := lays_indexWord hword hl
    exact ⟨rfl, _, .right (.left (.seq hd .empty)), .plain⟩
  | unique =>
    obtain ⟨hd, rfl⟩ := lays_words [.unique] (by decide) hl
    have hnode := Derives.node (r := .unique) (.seq hd .empty)
    exact ⟨rfl, _, .left (.seq hnode (.seq (.right .empty) .empty)), .unique rfl rfl⟩
  | uniqueIndex hword =>
    obtain ⟨m, ms, ms', rfl, h₁, h₂⟩ := lays_cons.mp hl
    obtain ⟨hd, rfl⟩ := lays_words [.unique] (by decide) h₁
    obtain ⟨hd', rfl⟩ := lays_indexWord hword h₂
    have hnode := Derives.node (r := .unique) (.seq hd .empty)
    exact ⟨rfl, _, .left (.seq hnode (.seq (.left hd') .empty)), .unique rfl rfl⟩

/-- A name that may be missing. -/
theorem lays_maybeName {name : Option Name} (h : Lays (nameLexemes name) c marks n) (r : Rule) :
    marks = [] ∧ ∃ ts, (Production.option (.name r)).Derives Token.Spelled c ts n ∧
      List.Forall₂ (IsName r) name.toList ts := by
  cases name with
  | none =>
    obtain ⟨rfl, rfl⟩ := lays_nil.mp h
    exact ⟨rfl, [], .right .empty, .nil⟩
  | some name =>
    obtain ⟨rfl, t, hd, ht⟩ := lays_name h r
    exact ⟨rfl, [t], .left hd, .cons ht .nil⟩

/-- The words for a constraint are derived with a node for its symbol, if it has one. -/
theorem lays_symbol {symbol : Option Name} (h : SymbolWritten symbol ls)
    (hl : Lays ls c marks n) :
    marks = [] ∧ ∃ ts, (Production.option .constraint).Derives Token.Spelled c ts n ∧
      List.Forall₂ (IsName .constraintName) symbol.toList ts := by
  cases h with
  | absent =>
    obtain ⟨rfl, rfl⟩ := lays_nil.mp hl
    exact ⟨rfl, [], .right .empty, .nil⟩
  | unnamed =>
    obtain ⟨hd, rfl⟩ := lays_word (by decide) hl
    exact ⟨rfl, _, .left (.seq hd (.right .empty)), .nil⟩
  | named =>
    obtain ⟨m, ms, ms', rfl, h₁, h₂⟩ := lays_cons.mp hl
    obtain ⟨hd, rfl⟩ := lays_word (by decide) h₁
    obtain ⟨rfl, t, hd', ht⟩ := lays_name h₂ .constraintName
    exact ⟨rfl, _, .left (.seq hd (.left hd')), .cons ht .nil⟩

/-- A word, perhaps the word `COLUMN`, and what follows them. -/
theorem lays_columnClause {column : List Lexeme} (hk : k ≠ .first ∧ k ≠ .after)
    (h : Optional .column column) (hl : Lays (.word k :: (column ++ ls)) c marks n) :
    ∃ m₁ m₂, (Production.keyword k).Derives Token.Spelled c [] m₁ ∧
      (Production.option (.keyword .column)).Derives Token.Spelled m₁ [] m₂ ∧
      Lays ls m₂ marks n := by
  obtain ⟨m₁, ms, r₁, rfl, h₁, l₁⟩ := lays_cons.mp hl
  obtain ⟨m₂, ms', r₂, rfl, h₂, l₂⟩ := lays_append.mp l₁
  obtain ⟨hword, rfl⟩ := lays_word hk h₁
  obtain ⟨hcolumn, rfl⟩ := lays_optional (by decide) h h₂
  exact ⟨m₁, m₂, hword, hcolumn, l₂⟩

/-- A definition with a position behind it. -/
theorem lays_placedDefinition {d : Definition} {p : Option Position} (h : d.Written ls)
    (hl : Lays (ls ++ positionLexemes p) c marks n) :
    ∃ m t ps, Production.definition.Derives Token.Spelled c [t] m ∧
      (Production.option .position).Derives Token.Spelled m ps n ∧ IsDefinition d t ∧
      IsPlaced p marks ps := by
  obtain ⟨m, ms, ms', rfl, h₁, h₂⟩ := lays_append.mp hl
  obtain ⟨_, hd, rfl, t, rfl, ht⟩ := derivedBy_definition h h₁
  obtain ⟨ps, hps, hplaced⟩ := lays_maybePosition h₂
  exact ⟨m, t, ps, hd, hps, ht, hplaced⟩

/-- A column that is added with its position. -/
theorem lays_addColumn {d : Definition} {p : Option Position} {column : List Lexeme}
    (hcolumn : Optional .column column) (hd : d.Written ls)
    (hl : Lays (.word .add :: (column ++ (ls ++ positionLexemes p))) c marks n) :
    ∃ t, Production.addColumn.Derives Token.Spelled c [t] n ∧
      IsAlteration (.addColumn d p) marks t := by
  obtain ⟨m₁, m₂, hadd, hcol, l₂⟩ := lays_columnClause (by decide) hcolumn hl
  obtain ⟨m, t, ps, hd₁, hd₂, ht, hplaced⟩ := lays_placedDefinition hd l₂
  have hplace : addedColumns.Derives Token.Spelled m₂ _ n :=
    .right (.left (.seq hd₁ (.seq hd₂ .empty)))
  refine ⟨_, .node (.seq hadd (.seq hcol hplace)), .addColumn rfl ?_ ht hplaced⟩
  exact congrArg (t :: ·) (List.append_nil ps)

/-- Several columns that are added between parentheses. -/
theorem lays_addColumns {ds : Several Definition} {column : List Lexeme}
    (hcolumn : Optional .column column) (hds : Parenthesised Definition.Written ds ls)
    (hl : Lays (.word .add :: (column ++ ls)) c marks n) :
    ∃ t, Production.addColumn.Derives Token.Spelled c [t] n ∧
      IsAlteration (.addColumns ds) marks t := by
  obtain ⟨m₁, m₂, hadd, hcol, l₂⟩ := lays_columnClause (by decide) hcolumn hl
  obtain ⟨ts, hd₁, hts⟩ := derives_parenthesised derivedBy_definition hds l₂
  obtain ⟨rfl, hall⟩ := hts.forall₂ id
  exact ⟨_, .node (.seq hadd (.seq hcol (.left hd₁))), .addColumns rfl hall⟩

/-- An index that is added, unique or not. -/
theorem lays_addIndex {unique : Bool} {name : Option Name} {parts : Several KeyPart}
    {kind : List Lexeme} (hkind : IndexKind unique kind)
    (hparts : Parenthesised KeyPart.Written parts ls)
    (hl : Lays (.word .add :: (kind ++ (nameLexemes name ++ ls))) c marks n) :
    ∃ t, Production.addIndex.Derives Token.Spelled c [t] n ∧
      IsAlteration (.addIndex unique name parts) marks t := by
  obtain ⟨m₁, ms, r₁, rfl, h₁, l₁⟩ := lays_cons.mp hl
  obtain ⟨m₂, ms', r₂, rfl, h₂, l₂⟩ := lays_append.mp l₁
  obtain ⟨m₃, ms'', r₃, rfl, h₃, l₃⟩ := lays_append.mp l₂
  obtain ⟨hadd, rfl⟩ := lays_word (by decide) h₁
  obtain ⟨rfl, kinds, hd₁, hkinds⟩ := lays_indexKind hkind h₂
  obtain ⟨rfl, names, hd₂, hnames⟩ := lays_maybeName h₃ .indexName
  obtain ⟨rfl, key, hd₃, hkey⟩ := lays_key hparts l₃
  exact ⟨_, .node (.seq hadd (.seq hd₁ (.seq hd₂ (.seq hd₃ .empty)))),
    .addIndex rfl rfl hkinds hnames hkey⟩

/-- A primary key that is added, with or without a symbol. -/
theorem lays_addPrimaryKey {symbol : Option Name} {parts : Several KeyPart}
    {constraint : List Lexeme} (hsymbol : SymbolWritten symbol constraint)
    (hparts : Parenthesised KeyPart.Written parts ls)
    (hl : Lays (.word .add :: (constraint ++ (.word .primary :: .word .key :: ls))) c marks n) :
    ∃ t, Production.addConstraint.Derives Token.Spelled c [t] n ∧
      IsAlteration (.addPrimaryKey symbol parts) marks t := by
  obtain ⟨m₁, ms, r₁, rfl, h₁, l₁⟩ := lays_cons.mp hl
  obtain ⟨m₂, ms', r₂, rfl, h₂, l₂⟩ := lays_append.mp l₁
  have hsplit : Lays ([.word .primary, .word .key] ++ ls) m₂ r₂ n := l₂
  obtain ⟨m₃, ms'', r₃, rfl, h₃, l₃⟩ := lays_append.mp hsplit
  obtain ⟨hadd, rfl⟩ := lays_word (by decide) h₁
  obtain ⟨rfl, symbols, hd₁, hsymbols⟩ := lays_symbol hsymbol h₂
  obtain ⟨hwords, rfl⟩ := lays_words [.primary, .key] (by decide) h₃
  obtain ⟨rfl, key, hd₂, hkey⟩ := lays_key hparts l₃
  have hprimary := Derives.node (r := .primaryKey) (.seq hwords .empty)
  exact ⟨_, .node (.seq hadd (.seq hd₁ (.seq hprimary (.seq hd₂ .empty)))),
    .addPrimaryKey rfl rfl hsymbols rfl rfl hkey⟩

/-- The three words that drop the primary key. -/
theorem lays_dropPrimaryKey
    (hl : Lays [.word .drop, .word .primary, .word .key] c marks n) :
    ∃ t, Production.dropPrimaryKey.Derives Token.Spelled c [t] n ∧
      IsAlteration .dropPrimaryKey marks t := by
  obtain ⟨hwords, rfl⟩ := lays_words [.drop, .primary, .key] (by decide) hl
  exact ⟨_, .node hwords, .dropPrimaryKey rfl rfl⟩

/-- An index that is dropped. -/
theorem lays_dropIndex {name : Name} {index : List Lexeme} (hindex : IndexWord index)
    (hl : Lays (.word .drop :: (index ++ [name.lexeme])) c marks n) :
    ∃ t, Production.dropIndex.Derives Token.Spelled c [t] n ∧
      IsAlteration (.dropIndex name) marks t := by
  obtain ⟨m₁, ms, r₁, rfl, h₁, l₁⟩ := lays_cons.mp hl
  obtain ⟨m₂, ms', r₂, rfl, h₂, l₂⟩ := lays_append.mp l₁
  obtain ⟨hdrop, rfl⟩ := lays_word (by decide) h₁
  obtain ⟨hd₁, rfl⟩ := lays_indexWord hindex h₂
  obtain ⟨rfl, a, hd₂, ha⟩ := lays_name l₂ .indexName
  exact ⟨_, .node (.seq hdrop (.seq hd₁ (.seq hd₂ .empty))), .dropIndex rfl rfl ha⟩

/-- A column that is dropped. -/
theorem lays_dropColumn {name : Name} {column : List Lexeme} (hcolumn : Optional .column column)
    (hl : Lays (.word .drop :: (column ++ [name.lexeme])) c marks n) :
    ∃ t, Production.dropColumn.Derives Token.Spelled c [t] n ∧
      IsAlteration (.dropColumn name) marks t := by
  obtain ⟨m₁, m₂, hdrop, hcol, l₂⟩ := lays_columnClause (by decide) hcolumn hl
  obtain ⟨rfl, a, hd, ha⟩ := lays_name l₂ .columnName
  exact ⟨_, .node (.seq hdrop (.seq hcol (.seq hd .empty))), .dropColumn rfl rfl ha⟩

/-- An index that gets a new name. -/
theorem lays_renameIndex {old new : Name} {index : List Lexeme} (hindex : IndexWord index)
    (hl : Lays (.word .rename :: (index ++ [old.lexeme, .word .toName, new.lexeme])) c marks n) :
    ∃ t, Production.renameIndex.Derives Token.Spelled c [t] n ∧
      IsAlteration (.renameIndex old new) marks t := by
  obtain ⟨m₁, ms₁, r₁, rfl, h₁, l₁⟩ := lays_cons.mp hl
  obtain ⟨m₂, ms₂, r₂, rfl, h₂, l₂⟩ := lays_append.mp l₁
  obtain ⟨m₃, ms₃, r₃, rfl, h₃, l₃⟩ := lays_cons.mp l₂
  obtain ⟨m₄, ms₄, r₄, rfl, h₄, l₄⟩ := lays_cons.mp l₃
  obtain ⟨hrename, rfl⟩ := lays_word (by decide) h₁
  obtain ⟨hd₁, rfl⟩ := lays_indexWord hindex h₂
  obtain ⟨rfl, a, hd₂, ha⟩ := lays_name h₃ .indexName
  obtain ⟨hto, rfl⟩ := lays_word (by decide) h₄
  obtain ⟨rfl, b, hd₃, hb⟩ := lays_name l₄ .indexName
  exact ⟨_, .node (.seq hrename (.seq hd₁ (.seq hd₂ (.seq hto (.seq hd₃ .empty))))),
    .renameIndex rfl rfl ha hb⟩

/-- A column that is changed under its old name, with the position it gets. -/
theorem lays_changeColumn {old : Name} {d : Definition} {p : Option Position}
    {column : List Lexeme} (hcolumn : Optional .column column) (hd : d.Written ls)
    (hl : Lays (.word .change :: (column ++ (old.lexeme :: (ls ++ positionLexemes p))))
      c marks n) :
    ∃ t, Production.changeColumn.Derives Token.Spelled c [t] n ∧
      IsAlteration (.changeColumn old d p) marks t := by
  obtain ⟨m₁, m₂, hchange, hcol, l₂⟩ := lays_columnClause (by decide) hcolumn hl
  obtain ⟨m₃, ms, r₃, rfl, h₃, l₃⟩ := lays_cons.mp l₂
  obtain ⟨rfl, a, hd₀, ha⟩ := lays_name h₃ .columnName
  obtain ⟨m, t, ps, hd₁, hd₂, ht, hplaced⟩ := lays_placedDefinition hd l₃
  refine ⟨_, .node (.seq hchange (.seq hcol (.seq hd₀ (.seq hd₁ (.seq hd₂ .empty))))),
    .changeColumn rfl ?_ ha ht hplaced⟩
  exact congrArg (a :: t :: ·) (List.append_nil ps)

/-- A column that is modified, with the position it gets. -/
theorem lays_modifyColumn {d : Definition} {p : Option Position} {column : List Lexeme}
    (hcolumn : Optional .column column) (hd : d.Written ls)
    (hl : Lays (.word .modify :: (column ++ (ls ++ positionLexemes p))) c marks n) :
    ∃ t, Production.modifyColumn.Derives Token.Spelled c [t] n ∧
      IsAlteration (.modifyColumn d p) marks t := by
  obtain ⟨m₁, m₂, hmodify, hcol, l₂⟩ := lays_columnClause (by decide) hcolumn hl
  obtain ⟨m, t, ps, hd₁, hd₂, ht, hplaced⟩ := lays_placedDefinition hd l₂
  refine ⟨_, .node (.seq hmodify (.seq hcol (.seq hd₁ (.seq hd₂ .empty)))),
    .modifyColumn rfl ?_ ht hplaced⟩
  exact congrArg (t :: ·) (List.append_nil ps)

/-- However an alteration is written, one clause of the grammar derives it, with one node. -/
theorem derivedBy_alteration {x : Alteration} (h : x.Written ls) :
    DerivedBy .specification OneAlteration x ls := by
  intro c marks n hl
  suffices hclause : ∃ t, Production.specification.Derives Token.Spelled c [t] n ∧
      IsAlteration x marks t by
    obtain ⟨t, hd, ht⟩ := hclause
    exact ⟨[t], hd, t, rfl, ht⟩
  cases h with
  | addColumn hcolumn hdefinition =>
    obtain ⟨t, hd, ht⟩ := lays_addColumn hcolumn hdefinition hl
    exact ⟨t, derives_alts.mpr ⟨addColumn, by simp, hd⟩, ht⟩
  | addColumns hcolumn hdefinitions =>
    obtain ⟨t, hd, ht⟩ := lays_addColumns hcolumn hdefinitions hl
    exact ⟨t, derives_alts.mpr ⟨addColumn, by simp, hd⟩, ht⟩
  | addIndex hkind hparts =>
    obtain ⟨t, hd, ht⟩ := lays_addIndex hkind hparts hl
    exact ⟨t, derives_alts.mpr ⟨addIndex, by simp, hd⟩, ht⟩
  | addPrimaryKey hsymbol hparts =>
    obtain ⟨t, hd, ht⟩ := lays_addPrimaryKey hsymbol hparts hl
    exact ⟨t, derives_alts.mpr ⟨addConstraint, by simp, hd⟩, ht⟩
  | dropPrimaryKey =>
    obtain ⟨t, hd, ht⟩ := lays_dropPrimaryKey hl
    exact ⟨t, derives_alts.mpr ⟨dropPrimaryKey, by simp, hd⟩, ht⟩
  | dropIndex hindex =>
    obtain ⟨t, hd, ht⟩ := lays_dropIndex hindex hl
    exact ⟨t, derives_alts.mpr ⟨dropIndex, by simp, hd⟩, ht⟩
  | dropColumn hcolumn =>
    obtain ⟨t, hd, ht⟩ := lays_dropColumn hcolumn hl
    exact ⟨t, derives_alts.mpr ⟨dropColumn, by simp, hd⟩, ht⟩
  | renameIndex hindex =>
    obtain ⟨t, hd, ht⟩ := lays_renameIndex hindex hl
    exact ⟨t, derives_alts.mpr ⟨renameIndex, by simp, hd⟩, ht⟩
  | changeColumn hcolumn hdefinition =>
    obtain ⟨t, hd, ht⟩ := lays_changeColumn hcolumn hdefinition hl
    exact ⟨t, derives_alts.mpr ⟨changeColumn, by simp, hd⟩, ht⟩
  | modifyColumn hcolumn hdefinition =>
    obtain ⟨t, hd, ht⟩ := lays_modifyColumn hcolumn hdefinition hl
    exact ⟨t, derives_alts.mpr ⟨modifyColumn, by simp, hd⟩, ht⟩

/-! ## Tables -/

private theorem IsFirm.trim_eq {w : List Char} (hw : IsTight w) (hfirm : IsFirm w) :
    Text.trim w = w :=
  trim_gap_append gap_nil hw hfirm

/-- The text writes the identifier, perhaps between quotes. -/
structure Writes (i : Identifier) (w : List Char) : Prop where
  tight : ∀ v, IsTight (w ++ v)
  firm : IsFirm w
  unquote : Text.unquote w = i.text
  undotted : '.' ∉ w

private theorem Writes.unquote_gap_append {i : Identifier} {g w : List Char} (h : Writes i w)
    (hg : Gap g) : Text.unquote (g ++ w) = i.text := by
  have htight : IsTight w := by
    have := h.tight []
    rwa [List.append_nil] at this
  rw [← Text.unquote_trim, trim_gap_append hg htight h.firm, h.unquote]

/-- No identifier has a dot in it. -/
theorem Identifier.point_notMem (i : Identifier) : '.' ∉ i.text :=
  i.isWord.notMem rfl

/-- A bare identifier is written as it is. -/
theorem writes_bare (i : Identifier) : Writes i i.text where
  tight := isTight_of_isWord i.isWord i.ascii
  firm := isFirm_of_isWord i.isWord i.ascii
  unquote := by
    have htight := isTight_of_isWord i.isWord i.ascii []
    rw [List.append_nil] at htight
    rw [Text.unquote_of_notMem (i.isWord.notMem rfl),
      (isFirm_of_isWord i.isWord i.ascii).trim_eq htight]
  undotted := i.point_notMem

/-- Between quotes an identifier is written as well. -/
theorem writes_quoted (i : Identifier) :
    Writes i (Text.backQuote :: (i.text ++ [Text.backQuote])) where
  tight _ := rfl
  firm := isFirm_quoted i.text
  unquote := Text.unquote_quoted i.text
  undotted hmem := by
    rcases List.mem_cons.mp hmem with h | h
    · revert h
      decide
    · rcases List.mem_append.mp h with h | h
      · exact i.point_notMem h
      · revert h
        decide

/-- However an identifier is written, the grammar derives it from a text that writes it. -/
theorem lays_identifier {i : Identifier} (h : i.Written ls) (hl : Lays ls c marks n) :
    marks = [] ∧ (Production.token .identifier).Derives Token.Spelled c [] n ∧
      ∃ g w, Gap g ∧ c.Over (g ++ w) n ∧ Writes i w := by
  cases h with
  | bare =>
    obtain ⟨hd, rfl⟩ := lays_bare hl
    obtain ⟨g, w, -, hg, rfl, hover, -⟩ := lays_singleton.mp hl
    exact ⟨rfl, hd, g, i.text, hg, hover, writes_bare i⟩
  | quoted =>
    obtain ⟨g, w, rfl, hg, rfl, hover, -⟩ := lays_singleton.mp hl
    have hname : IsQuotedName (Text.backQuote :: (i.text ++ [Text.backQuote])) :=
      ⟨i.text, i.isWord.1, i.isWord.notMem rfl, rfl⟩
    exact ⟨rfl, .token (.quotedName hg hname) hover, g, _, hg, hover, writes_quoted i⟩

/-- The node of a table's name. -/
structure IsTable (d : Draft) (t : Node) : Prop where
  rule : t.rule = .tableName
  children : t.children = []
  name : String.ofList (Clause.plainTableName t.text.toList) = d.tableValue

/-- At a dot the parts of a name are told apart. -/
theorem plainTableName_append (v w : List Char) : Clause.plainTableName (v ++ '.' :: w) =
    Clause.plainTableName v ++ '.' :: Clause.plainTableName w := by
  have hne : ∀ s : List Char, (s.splitOn '.').map Text.unquote ≠ [] := fun s hnil =>
    List.splitOn_ne_nil _ _ (List.map_eq_nil_iff.mp hnil)
  rw [Clause.plainTableName, List.splitOn_append_cons_self, List.map_append,
    Text.intercalate_append (hne v) (hne w)]
  rfl

/-- Without a dot there is nothing to tell apart. -/
theorem plainTableName_of_notMem {w : List Char} (h : '.' ∉ w) :
    Clause.plainTableName w = Text.unquote w := by
  rw [Clause.plainTableName, List.splitOn_eq_singleton h, List.map_singleton,
    List.intercalate_singleton]

private theorem plainTableName_single {i : Identifier} {w : List Char} (h : Writes i w) :
    Clause.plainTableName w = i.text := by
  rw [plainTableName_of_notMem h.undotted, h.unquote]

private theorem plainTableName_pair {i j : Identifier} {g v w : List Char} (hv : Writes i v)
    (hg : Gap g) (hw : Writes j w) :
    Clause.plainTableName (v ++ '.' :: (g ++ w)) = i.text ++ '.' :: j.text := by
  have hpoint : '.' ∉ g ++ w := by
    intro hmem
    rcases List.mem_append.mp hmem with h | h
    · have := hg _ h
      revert this
      decide
    · exact hw.undotted h
  rw [plainTableName_append, plainTableName_single hv, plainTableName_of_notMem hpoint,
    hw.unquote_gap_append hg]

/-- A table's name is derived with one node that says the name. -/
theorem lays_table {d : Draft} (h : TableWritten d.schema d.table ls)
    (hl : Lays ls c marks n) : marks = [] ∧
      ∃ t, Production.tableName.Derives Token.Spelled c [t] n ∧ IsTable d t := by
  generalize hs : d.schema = schema at h
  generalize ht : d.table = table at h
  cases h with
  | plain hname =>
    obtain ⟨rfl, hd, g, w, hg, hover, hw⟩ := lays_identifier hname hl
    have htight := hw.tight []
    rw [List.append_nil] at htight
    refine ⟨rfl, _, .node (.seq (.seq hd (.seq (.right .empty) .empty)) .empty), rfl, rfl, ?_⟩
    rw [text_span hg htight hw.firm hover, String.toList_ofList, plainTableName_single hw,
      Draft.tableValue, hs, ht]
    rfl
  | qualified hschema hname =>
    obtain ⟨m₁, ms, r₁, rfl, h₁, l₁⟩ := lays_append.mp hl
    obtain ⟨m₂, ms', r₂, rfl, h₂, l₂⟩ := lays_cons.mp l₁
    obtain ⟨rfl, hd₁, g, v, hg, hover₁, hv⟩ := lays_identifier hschema h₁
    obtain ⟨hdot, rfl⟩ := lays_dot h₂
    obtain ⟨g', w', -, rfl, rfl, hover₂, -⟩ := lays_singleton.mp h₂
    obtain ⟨rfl, hd₂, g'', w, hg'', hover₃, hw⟩ := lays_identifier hname l₂
    have hover : c.Over (g ++ (v ++ '.' :: (g'' ++ w))) n := by
      have := hover₁.trans (hover₂.trans hover₃)
      simpa using this
    have hfirm : IsFirm (v ++ '.' :: (g'' ++ w)) := by
      have := hw.firm.append (v ++ '.' :: g'')
      simpa using this
    refine ⟨rfl, _, .node (.seq (.seq hd₁ (.seq (.left (.seq hdot hd₂)) .empty)) .empty), rfl, rfl,
      ?_⟩
    rw [text_span hg (hv.tight _) hfirm hover, String.toList_ofList, plainTableName_pair hv hg'' hw,
      Draft.tableValue, hs, ht]
    rfl

/-! ## Statements -/

/-- The tree of a draft whose positions begin at the offsets. -/
inductive IsStatement (d : Draft) (marks : List Nat) (t : Node) : Prop
  | intro {table nodes} : t.rule = .alterTable → t.children = table :: nodes → IsTable d table →
      Gathers OneAlteration d.alterations.toList marks nodes → IsStatement d marks t

/-- What renders a draft is derived, with a tree that says the draft. -/
theorem derives_of_renders {d : Draft} {text : List Char} (h : d.Renders text marks) :
    ∃ t n, Production.statement.Derives Token.Spelled (.ofText text) [t] n ∧
      IsStatement d marks t := by
  obtain ⟨ls, n, hwrites, hl, hn⟩ := h
  obtain ⟨table, alterations, semicolon, rfl, htable, halterations, hsemicolon⟩ := hwrites
  have hsplit : Lays ([.word .alter, .word .table] ++ (table ++ (alterations ++ semicolon)))
      (.ofText text) marks n := hl
  obtain ⟨m₁, ms, r₁, rfl, h₁, l₁⟩ := lays_append.mp hsplit
  obtain ⟨m₂, ms', r₂, rfl, h₂, l₂⟩ := lays_append.mp l₁
  obtain ⟨m₃, ms'', r₃, rfl, h₃, l₃⟩ := lays_append.mp l₂
  obtain ⟨hwords, rfl⟩ := lays_words [.alter, .table] (by decide) h₁
  obtain ⟨rfl, t, hd₁, ht⟩ := lays_table htable h₂
  obtain ⟨ts, hd₂, hts⟩ := derives_listed derivedBy_alteration halterations h₃
  have hend : r₃ = [] ∧ (Production.option (.mark .semicolon)).Derives Token.Spelled m₃ [] n := by
    rcases hsemicolon with rfl | rfl
    · obtain ⟨rfl, rfl⟩ := lays_nil.mp l₃
      exact ⟨rfl, .right .empty⟩
    · obtain ⟨hd, rfl⟩ := lays_mark l₃
      exact ⟨rfl, .left hd⟩
  obtain ⟨rfl, hd₃⟩ := hend
  let last : Cursor := ⟨n.offset + Text.byteLength n.rest, []⟩
  have hover : n.Over n.rest last := ⟨(List.append_nil _).symm, rfl⟩
  have hspace : (Production.token .space).Derives Token.Spelled n [] last :=
    .token (.space hn rfl) hover
  have hstop : (Production.token .stop).Derives Token.Spelled last [] last :=
    .token .stop (.refl last)
  have hnode := Derives.node (r := .alterTable) (.seq hwords (.seq hd₁ (.seq hd₂ .empty)))
  refine ⟨_, last, .seq hnode (.seq hd₃ (.seq hspace (.seq hstop .empty))), ?_⟩
  rw [List.append_nil]
  exact .intro rfl (congrArg (t :: ·) (List.append_nil ts)) ht hts

end AlterTable.Draft
