import AlterTable.Proofs.Statement.NamePlaces
import AlterTable.Proofs.Text

/-!
# What identifiers become as names

A column or an index is named by an identifier, between back-quotes or without. The name of a quoted
identifier is what stands between its quotes. An unquoted one loses the white space at either end of
it, since some of the characters of which it may consist are white space: so its name is the
identifier itself only if none of them stands at its ends, nothing is left of an identifier of white
space alone, and two identifiers that differ in such characters only become the same name.

These are the names that statements have (`names_of_ofText?`): every node that names something
stands at one of the places of which a statement's lists are made up, and was read from an
identifier.
-/

namespace AlterTable

open AlterTable.Grammar
open AlterTable.Parse
open AlterTable.Reader

/-- The rules of the nodes that name columns and indexes. -/
def nameRules : List Rule :=
  [.columnName, .indexName]

/-- The places at which columns and indexes are named. -/
def namePaths : List (List Rule) :=
  [[.addColumn, .columnDefinition, .columnName], [.addColumn, .firstOrAfterColumn, .columnName],
    [.addIndex, .indexName], [.addIndex, .keyParts, .columnName],
    [.addConstraint, .keyParts, .columnName], [.dropIndex, .indexName], [.dropColumn, .columnName],
    [.renameIndex, .indexName], [.changeColumn, .columnName],
    [.changeColumn, .columnDefinition, .columnName],
    [.changeColumn, .firstOrAfterColumn, .columnName],
    [.modifyColumn, .columnDefinition, .columnName],
    [.modifyColumn, .firstOrAfterColumn, .columnName]]

/-- An unquoted identifier. -/
def IsBareName (w : List Char) : Prop :=
  IsWord w ∧ Keyword.reserves w = false

/-- The node spans the part `w` of the text, in front of `r`, and white space before it. -/
def Node.StandsFor (u : Node) (w r : List Char) (text : String) : Prop :=
  ∃ c n v g, (Cursor.ofText text.toList).Over v c ∧ Gap g ∧ c.Over (g ++ w) n ∧ n.rest = r ∧
    u = span u.rule c n []

/-- The node stands for an identifier. -/
inductive Node.IsNamed (u : Node) (text : String) : Prop
  | quoted {q r : List Char} : q ≠ [] → Text.backQuote ∉ q →
      u.StandsFor (Text.backQuote :: (q ++ [Text.backQuote])) r text →
      u.exactText = String.ofList q → IsNamed u text
  | bare {w r : List Char} : IsBareName w → Ends r → u.StandsFor w r text → IsNamed u text

/-- The name of the node is the identifier without the white space at its ends. -/
structure Node.NamedAs (u : Node) (w : List Char) : Prop where
  exactText : u.exactText = String.ofList (Text.trim w)
  eq_iff : u.exactText = String.ofList w ↔ Text.IsTrimmed w
  eq_empty_iff : u.exactText = "" ↔ ∀ d ∈ w, Text.isWhiteSpace d = true

/-! ## Single nodes -/

namespace Node.StandsFor

variable {u : Node} {w r : List Char} {text : String}

/-- What a node stands for is its name, without quotes. -/
theorem exactText_eq (h : u.StandsFor w r text) :
    u.exactText = String.ofList (Text.unquote w) := by
  obtain ⟨c, n, v, g, -, hg, hover, -, hu⟩ := h
  have htext : u.text.toList = Text.trim w := by
    rw [hu]
    show (String.ofList (Text.trim (c.upTo n))).toList = _
    rw [hover.upTo_eq, String.toList_ofList, Text.trim_append hg.isWhiteSpace]
  rw [Node.exactText, htext, Text.unquote_trim]

private theorem namedAs (h : u.StandsFor w r text) (hw : IsWord w) : u.NamedAs w := by
  have hname : u.exactText = String.ofList (Text.trim w) := by
    rw [h.exactText_eq, Text.unquote_of_notMem (hw.notMem rfl)]
  refine ⟨hname, ?_, ?_⟩
  · rw [hname, String.ofList_inj, Text.trim_eq_self_iff]
  · rw [hname, ← String.ofList_nil, String.ofList_inj, Text.trim_eq_nil_iff]

end Node.StandsFor

/-! ## Trees of texts -/

namespace Grammar.Production

private theorem eq_of_nameRules : ∀ p ∈ statement.parts, p.1 ∈ nameRules →
    p.2 = .seq (.token .identifier) .empty := by
  decide +kernel

private theorem mem_namePaths :
    ∀ path ∈ belowRoot.paths, (∃ r ∈ nameRules, path.getLast? = some r) →
    path ∈ namePaths := by
  decide +kernel

end Grammar.Production

namespace Node

variable {text : String} {tree u : Node}

/-- Whatever names a column or an index was read from an identifier. -/
theorem isNamed_of_within (h : Node.ofText? text = .ok tree) (hu : u.Within tree)
    (hrule : u.rule ∈ nameRules) : u.IsNamed text := by
  obtain ⟨n, hd⟩ := ofText?_eq_ok_iff_derives.mp h
  obtain ⟨⟨r, a⟩, hp, c, m, xs, v, -, rfl, hpart, hv, -⟩ :=
    hd.exists_part (List.mem_singleton_self _) hu
  obtain rfl : a = .seq (.token .identifier) .empty := Production.eq_of_nameRules _ hp hrule
  obtain ⟨_, _, _, rfl, hname, hend⟩ := Production.derives_seq.mp hpart
  obtain ⟨rfl, rfl⟩ := Production.derives_empty.mp hend
  obtain ⟨rfl, w, hw, hover⟩ := Production.derives_token.mp hname
  cases hw.spelled nofun with
  | @quotedName g _ _ hg hquoted =>
    obtain ⟨q, hne, hq, rfl⟩ := hquoted
    have hstands : (span r c m []).StandsFor (Text.backQuote :: (q ++ [Text.backQuote]))
        m.rest text := ⟨c, m, v, g, hv, hg, hover, rfl, rfl⟩
    refine .quoted hne hq hstands ?_
    rw [List.append_nil, hstands.exactText_eq, Text.unquote_quoted]
  | bareName hg hword hfree hends =>
    exact .bare ⟨hword, hfree⟩ hends ⟨c, m, v, _, hv, hg, hover, rfl, rfl⟩

/-- Whatever names a column or an index stands at one of the places that are known. -/
theorem exists_namePath (h : Node.ofText? text = .ok tree) (hu : u.Within tree)
    (hrule : u.rule ∈ nameRules) : ∃ path ∈ namePaths, u ∈ tree.along path := by
  obtain ⟨n, hd⟩ := ofText?_eq_ok_iff_derives.mp h
  obtain ⟨m, hroot, hbelow⟩ := hd.exists_below
  rcases within_iff.mp hu with rfl | ⟨t, ht, hut⟩
  · rw [hroot] at hrule
    exact absurd hrule (by decide)
  · obtain ⟨path, hpath, hmem⟩ := hbelow.exists_path ht hut
    exact ⟨_, Production.mem_namePaths _ hpath ⟨_, hrule, rule_of_mem_along hmem⟩,
      mem_along_cons ht hmem⟩

end Node

/-! ## Statements -/

/-- The names of a statement are those of its nodes that stand for identifiers, and a node that
stands for an unquoted identifier has it as its name, without the white space at its ends. -/
theorem names_of_ofText? {text : String} {tree : Node} (h : Node.ofText? text = .ok tree) :
    (∀ table, ∃ s, mysql.read tree table = .ok s ∧ s.NamedBy tree) ∧
      (∀ u : Node, u.Within tree → u.rule ∈ nameRules →
        (∃ path ∈ namePaths, u ∈ tree.along path) ∧ u.IsNamed text) ∧
      (∀ (u : Node) (w r : List Char), u.StandsFor w r text → IsBareName w → u.NamedAs w) ∧
      ∀ (u u' : Node) (w w' r r' : List Char), u.StandsFor w r text → IsBareName w →
        u'.StandsFor w' r' text → IsBareName w' →
          (u.exactText = u'.exactText ↔ Text.trim w = Text.trim w') := by
  refine ⟨exists_read_namedBy h, fun u hu hrule => ?_, fun u w r hw hbare => hw.namedAs hbare.1, ?_⟩
  · exact ⟨Node.exists_namePath h hu hrule, Node.isNamed_of_within h hu hrule⟩
  · intro u u' w w' r r' hw hbare hw' hbare'
    rw [(hw.namedAs hbare.1).exactText, (hw'.namedAs hbare'.1).exactText, String.ofList_inj]

/-- A statement with identifiers that consist of white space and end with it. -/
def blanks : String :=
  "ALTER TABLE t DROP \u00a0, DROP a, DROP a\u00a0"

/-- A no-break space as a name and at the end of one is not recorded. -/
theorem names_of_ofText?_blanks : ∃ tree, Node.ofText? blanks = .ok tree ∧
    ∃ s, mysql.read tree none = .ok s ∧ s.NamedBy tree ∧ s.droppedColumns = ["", "a", "a"] := by
  have hnames : (Node.ofText? blanks).toOption.map (Node.names [.dropColumn, .columnName]) =
      some ["", "a", "a"] := by
    decide +kernel
  cases h : Node.ofText? blanks with
  | error e =>
    rw [h] at hnames
    cases hnames
  | ok tree =>
    rw [h] at hnames
    obtain ⟨s, hs, hnamed⟩ := (names_of_ofText? h).1 none
    exact ⟨tree, rfl, s, hs, hnamed, hnamed.droppedColumns.trans (Option.some.inj hnames)⟩

end AlterTable
