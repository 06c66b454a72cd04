import AlterTable.Proofs.Grammar.Occurrences
import AlterTable.Proofs.Statement.ReadingOrder

/-!
# Where the names of a statement stand

Each name that a statement has is the name of a node at one of the places where the grammar reads a
name, and each list of the statement has the names at its places, all of them and in written order
(`Statement.NamedBy`). The places of a list are told by a path of rules from the root, since trees
of texts are regular.
-/

namespace AlterTable

open AlterTable.Draft (ruleOf)
open AlterTable.Node (Free Sole)

/-- The columns that a place is told by. -/
def Move.anchors (m : Move) : List String :=
  match m.place with
  | .first => []
  | .after anchor => [anchor]

/-- The name of the index that a node adds: its own or that of its first column. -/
def Node.indexName (n : Node) : List String :=
  (n.names [.indexName] ++ n.names [.keyParts, .columnName]).take 1

/-- The name of the column that a node moves, if it has a position. -/
def Node.movedName (n : Node) : List String :=
  (n.along [.firstOrAfterColumn]).flatMap fun _ => n.names [.columnDefinition, .columnName]

/-! ## Single nodes -/

namespace Node

variable {n d k : Node} {r : Rule} {o : Option Node} {column : String}

/-- A sole part is found where it is required. -/
theorem Sole.require_eq {u : Node} (h : Sole r n.children (Option.some u)) (hn : n.rule ≠ r) :
    n.require r = .ok u := by
  rw [require, h.first?_eq hn]

private theorem Sole.names_eq {u : Node} (h : Sole r n.children (Option.some u))
    (path : List Rule) : n.names (r :: path) = u.names path := by
  rw [h.names_cons]
  exact List.flatMap_singleton ..

/-- The one part of the rule, if a node needs it and has no other one. -/
theorem exists_require (h : n.Complete) (hn : n.Regular) (hneeds : r ∈ n.rule.needs)
    (hsoles : r ∈ n.rule.soles) : ∃ u, n.require r = .ok u ∧ Sole r n.children (some u) ∧
      u.rule = r ∧ u.Complete ∧ u.Regular := by
  obtain ⟨u, hu⟩ := hn.exists_sole h hsoles hneeds
  have hwithin := within_of_mem_children hu.mem
  exact ⟨u, hu.require_eq (Regular.rule_ne_of_mem_soles hsoles), hu, hu.rule_eq, h.within hwithin,
    hn.within hwithin⟩

/-- A definition says a column of the name that stands in it. -/
theorem exists_columnDefinition (h : d.Complete) (hd : d.Regular)
    (hrule : d.rule = .columnDefinition) (hfirst : n.require .columnDefinition = .ok d) :
    ∃ c, n.columnDefinition = .ok c ∧ d.names [.columnName] = [c.name] := by
  obtain ⟨u, hrequire, hu, -⟩ := exists_require (r := .columnName) h hd
    (by rw [hrule]; decide) (by rw [hrule]; decide)
  obtain ⟨type, htype, -⟩ := h.require (r := .dataType) (by rw [hrule]; decide)
  rw [columnDefinition, bind_eq_of_ok hfirst, bind_eq_of_ok hrequire, bind_eq_of_ok htype]
  exact ⟨_, rfl, hu.names_eq []⟩

/-- The one definition in a node says a column of the name that stands in it. -/
theorem exists_columnDefinition_of_sole (h : n.Complete) (hn : n.Regular)
    (hneeds : .columnDefinition ∈ n.rule.needs) (hsoles : .columnDefinition ∈ n.rule.soles) :
    ∃ c, n.columnDefinition = .ok c ∧ n.names [.columnDefinition, .columnName] = [c.name] := by
  obtain ⟨d, hrequire, hd, hrule, hcomplete, hregular⟩ := exists_require h hn hneeds hsoles
  obtain ⟨c, hc, hname⟩ := exists_columnDefinition hcomplete hregular hrule hrequire
  exact ⟨c, hc, (hd.names_eq _).trans hname⟩

private theorem column_of_move? (h : Sole .firstOrAfterColumn n.children o)
    (hn : n.rule ≠ .firstOrAfterColumn)
    (hname : n.names [.columnDefinition, .columnName] = [column]) :
    (n.move? column).toList.map Move.column = n.movedName := by
  rw [movedName, along_singleton, h.filter_eq, hname, move?, h.first?_eq hn]
  cases o <;> rfl

/-- The place of a move is told by the name that stands in the position. -/
theorem anchors_of_move? (hregular : n.Regular) (h : Sole .firstOrAfterColumn n.children o)
    (hn : n.rule ≠ .firstOrAfterColumn) (column : String) :
    (n.move? column).toList.flatMap Move.anchors = n.names [.firstOrAfterColumn, .columnName] := by
  rw [h.names_cons, move?, h.first?_eq hn]
  cases o with
  | none => rfl
  | some p =>
    have hrule : p.rule = .firstOrAfterColumn := h.rule_eq
    obtain ⟨o, ho⟩ := hregular.sole p (within_of_mem_children h.mem) .columnName
      (by rw [hrule]; decide)
    have hfirst := ho.first?_eq (by rw [hrule]; decide)
    have hnames : p.names [.columnName] = o.toList.map exactText := by
      rw [names_singleton, ho.filter_eq]
    show Move.anchors _ ++ [] = p.names [.columnName] ++ []
    rw [hnames]
    dsimp only
    rw [hfirst]
    cases o <;> rfl

/-- The columns of a key are named right in its parts. -/
theorem keyColumns_eq_names (h : n.Complete) (hn : n.Regular) (hneeds : .keyParts ∈ n.rule.needs)
    (hsoles : .keyParts ∈ n.rule.soles) : n.keyColumns = n.names [.keyParts, .columnName] := by
  obtain ⟨k, -, hk, hrule, -, hregular⟩ := exists_require h hn hneeds hsoles
  have hfirst := hk.first?_eq (Regular.rule_ne_of_mem_soles hsoles)
  rw [hk.names_eq, keyColumns, hfirst]
  show (k.all .columnName).map exactText = _
  rw [hregular.all_eq (by rw [hrule]; decide)]
  rfl

end Node

/-! ## Single clauses -/

namespace Clause

variable {n : Node}

/-- The one column that is dropped or the one index is the one that stands in the node. -/
theorem factsIn_of_sole {fact : String → Fact} {r : Rule} {clause : Clause}
    (hclause : Draft.findingsIn clause n = [do return fact (← n.require r).exactText])
    (h : n.Complete) (hn : n.Regular) (hneeds : r ∈ n.rule.needs) (hsoles : r ∈ n.rule.soles) :
    ∃ name, clause.factsIn n = [fact name] ∧ n.names [r] = [name] := by
  obtain ⟨u, hrequire, hu, -⟩ := Node.exists_require h hn hneeds hsoles
  refine ⟨u.exactText, ?_, hu.names_eq []⟩
  rw [factsIn, hclause, bind_eq_of_ok hrequire]
  rfl

/-- A clause that drops a column says the name that stands in it. -/
theorem factsIn_dropColumn (h : n.Complete) (hn : n.Regular) (hrule : n.rule = .dropColumn) :
    ∃ name, Clause.dropColumn.factsIn n = [.dropColumn name] ∧ n.names [.columnName] = [name] :=
  factsIn_of_sole rfl h hn (by rw [hrule]; decide) (by rw [hrule]; decide)

/-- A clause that drops an index says the name that stands in it. -/
theorem factsIn_dropIndex (h : n.Complete) (hn : n.Regular) (hrule : n.rule = .dropIndex) :
    ∃ name, Clause.dropIndex.factsIn n = [.dropIndex name] ∧ n.names [.indexName] = [name] :=
  factsIn_of_sole rfl h hn (by rw [hrule]; decide) (by rw [hrule]; decide)

/-- A clause that renames an index says the two names that stand in it. -/
theorem factsIn_renameIndex (h : n.Complete) (hn : n.Regular) (hrule : n.rule = .renameIndex) :
    ∃ old new, Clause.renameIndex.factsIn n = [.renameIndex ⟨old, new⟩] ∧
      n.names [.indexName] = [old, new] := by
  obtain ⟨old, new, hall⟩ := h.names n .self hrule
  refine ⟨old.exactText, new.exactText, ?_, ?_⟩
  · show [findRename n].filterMap Except.toOption = _
    rw [findRename, hall]
    rfl
  · rw [Node.names, ← hn.all_eq (by rw [hrule]; decide), hall]
    rfl

/-- A clause that adds a primary key says the names in its parentheses. -/
theorem factsIn_primaryKey (h : n.Complete) (hn : n.Regular) (hrule : n.rule = .addConstraint) :
    (Clause.primaryKey .addConstraint).factsIn n =
      [.addPrimaryKey (n.names [.keyParts, .columnName])] := by
  have hneeds : .keyParts ∈ n.rule.needs := by
    rw [hrule]
    decide
  have hne := h.keyColumns_ne_nil hneeds
  have hnames := Node.keyColumns_eq_names h hn hneeds (by rw [hrule]; decide)
  show (findPrimaryKey .addConstraint n).filterMap Except.toOption = _
  rw [findPrimaryKey, if_pos (hn.keyed n .self hrule), ← hnames]
  cases hcolumns : n.keyColumns with
  | nil => exact absurd hcolumns hne
  | cons column columns => rfl

/-- An index without a name of its own has that of its first column. -/
theorem factsIn_addIndex (h : n.Complete) (hn : n.Regular) (hrule : n.rule = .addIndex) :
    ∃ index, Clause.addIndex.factsIn n = [.addIndex index] ∧ n.indexName = [index.name] ∧
      index.columns = n.names [.keyParts, .columnName] := by
  have hneeds : .keyParts ∈ n.rule.needs := by
    rw [hrule]
    decide
  obtain ⟨o, ho⟩ := hn.sole n .self .indexName (by rw [hrule]; decide)
  have hfirst := ho.first?_eq (by rw [hrule]; decide)
  have hnames := Node.keyColumns_eq_names h hn hneeds (by rw [hrule]; decide)
  obtain ⟨column, columns, hcolumns⟩ := List.exists_cons_of_ne_nil (h.keyColumns_ne_nil hneeds)
  have hown : n.names [.indexName] = o.toList.map Node.exactText := by
    rw [Node.names_singleton, ho.filter_eq]
  rw [Node.indexName, hown, ← hnames]
  show ∃ index, [findIndex n].filterMap Except.toOption = _ ∧ _
  rw [findIndex, hfirst, hcolumns]
  cases o <;> exact ⟨_, rfl, rfl, rfl⟩

/-- The node defines the column, and its position is about it. -/
structure Defines (n : Node) (column : Column) : Prop where
  name : n.names [.columnDefinition, .columnName] = [column.name]
  moved : (n.move? column.name).toList.map Move.column = n.movedName
  anchors : (n.move? column.name).toList.flatMap Move.anchors =
    n.names [.firstOrAfterColumn, .columnName]

private theorem defines_of_name {column : Column} (hn : n.Regular)
    (hposition : .firstOrAfterColumn ∈ n.rule.soles)
    (hname : n.names [.columnDefinition, .columnName] = [column.name]) : Defines n column := by
  obtain ⟨o, ho⟩ := hn.sole n .self _ hposition
  have hne := Node.Regular.rule_ne_of_mem_soles hposition
  exact ⟨hname, Node.column_of_move? ho hne hname, Node.anchors_of_move? hn ho hne _⟩

/-- A clause that modifies a column says the name in its definition. -/
theorem factsIn_modifyColumn (h : n.Complete) (hn : n.Regular) (hrule : n.rule = .modifyColumn) :
    ∃ column, Clause.modifyColumn.factsIn n =
      [.changeColumn ⟨column.name, column⟩ (n.move? column.name)] ∧ Defines n column := by
  obtain ⟨column, hcolumn, hname⟩ := Node.exists_columnDefinition_of_sole h hn
    (by rw [hrule]; decide) (by rw [hrule]; decide)
  refine ⟨column, ?_, defines_of_name hn (by rw [hrule]; decide) hname⟩
  show [findModified n].filterMap Except.toOption = _
  rw [findModified, bind_eq_of_ok hcolumn]
  rfl

/-- A clause that changes a column says the name in front and the one in its definition. -/
theorem factsIn_changeColumn (h : n.Complete) (hn : n.Regular) (hrule : n.rule = .changeColumn) :
    ∃ old column, Clause.changeColumn.factsIn n =
      [.changeColumn ⟨old, column⟩ (n.move? column.name)] ∧ n.names [.columnName] = [old] ∧
        Defines n column := by
  obtain ⟨column, hcolumn, hname⟩ := Node.exists_columnDefinition_of_sole h hn
    (by rw [hrule]; decide) (by rw [hrule]; decide)
  obtain ⟨old, rest, hchildren, hold, hrest⟩ := hn.changed n .self hrule
  have hrequire : n.require .columnName = .ok old := by
    refine Draft.require_eq (Node.first?_of_child (by rw [hrule]; decide) ?_)
    rw [hchildren, List.find?_cons_of_pos (by simp [hold])]
  have hnames : n.names [.columnName] = [old.exactText] := by
    rw [Node.names_singleton, hchildren, List.filter_cons_of_pos (by simp [hold]),
      List.filter_eq_nil_iff.mpr fun t ht => by simpa using hrest t ht]
    rfl
  refine ⟨old.exactText, column, ?_, hnames, defines_of_name hn (by rw [hrule]; decide) hname⟩
  show [findChanged n].filterMap Except.toOption = _
  rw [findChanged, bind_eq_of_ok hrequire, bind_eq_of_ok hcolumn]
  rfl

/-- Definitions that are added have the names that stand in them. -/
theorem names_of_definitions {ds : List Node} (move : Column → Option Move)
    (hds : ∀ d ∈ ds, ∃ c, d.columnDefinition = .ok c ∧ d.names [.columnName] = [c.name]) :
    (((ds.map fun d => (do
        let c ← d.columnDefinition
        return .addColumn c (move c) : Finding)).filterMap Except.toOption).flatMap
      Fact.added).map Column.name = ds.flatMap (Node.names [.columnName]) := by
  induction ds with
  | nil => rfl
  | cons d ds ih =>
    obtain ⟨⟨c, hc, hname⟩, hds⟩ := List.forall_mem_cons.mp hds
    rw [List.map_cons, bind_eq_of_ok hc, List.flatMap_cons, ← ih hds, hname]
    rfl

/-- A clause that adds columns says the names in its definitions. -/
theorem names_of_addColumn (h : n.Complete) (hn : n.Regular) (hrule : n.rule = .addColumn) :
    ((Clause.addColumn.factsIn n).flatMap Fact.added).map Column.name =
      n.names [.columnDefinition, .columnName] := by
  have hall : n.all .columnDefinition = n.along [.columnDefinition] :=
    hn.all_eq (by rw [hrule]; decide)
  have hne := h.all_ne_nil (r := .columnDefinition) (by rw [hrule]; decide)
  have hds : ∀ d ∈ n.all .columnDefinition,
      ∃ c, d.columnDefinition = .ok c ∧ d.names [.columnName] = [c.name] := by
    intro d hd
    obtain ⟨hwithin, hd⟩ := Node.mem_all_iff.mp hd
    refine Node.exists_columnDefinition (h.within hwithin) (hn.within hwithin) hd ?_
    exact Draft.require_eq (Node.first?_self hd)
  rw [Node.names_cons, ← Node.along_singleton, ← hall]
  show (((findAdded n).filterMap Except.toOption).flatMap Fact.added).map Column.name = _
  rw [findAdded]
  split
  next hnil => exact absurd hnil hne
  next d hsingle =>
    rw [hsingle] at hds ⊢
    exact names_of_definitions (fun c => n.move? c.name) hds
  next => exact names_of_definitions (fun _ => none) hds

/-- A node that adds columns moves one only if it adds a single one. -/
theorem moves_of_addColumn (h : n.Complete) (hn : n.Regular) (hclause : n.IsClause)
    (hrule : n.rule = .addColumn) :
    ((Clause.addColumn.factsIn n).flatMap Fact.moves).map Move.column = n.movedName ∧
      ((Clause.addColumn.factsIn n).flatMap Fact.moves).flatMap Move.anchors =
        n.names [.firstOrAfterColumn, .columnName] := by
  have hmoves : (Clause.addColumn.factsIn n).flatMap Fact.moves = (findAdded n).flatMap movesOf :=
    flatMap_moves _
  rw [hmoves]
  rcases hclause.single hrule with hfree | ⟨d, hd⟩
  · have hsole : Sole .firstOrAfterColumn n.children none := .none hfree
    have hnone : n.along [.firstOrAfterColumn] = [] := by
      rw [Node.along_singleton, hsole.filter_eq]
      rfl
    rw [movesOf_findAdded_of_free hfree hclause.rule_ne, Node.movedName, hnone, hsole.names_cons]
    exact ⟨rfl, rfl⟩
  · have hall : n.all .columnDefinition = [d] := hd.all_eq (by rw [hrule]; decide)
    have hwithin := Node.within_of_mem_children hd.mem
    obtain ⟨column, hcolumn, hname⟩ := Node.exists_columnDefinition (h.within hwithin)
      (hn.within hwithin) hd.rule_eq (Draft.require_eq (Node.first?_self hd.rule_eq))
    have hdefines : Defines n column := defines_of_name hn (by rw [hrule]; decide)
      ((hd.names_eq _).trans hname)
    have hfound : findAdded n = [.ok (.addColumn column (n.move? column.name))] := by
      rw [findAdded, hall]
      dsimp only
      rw [bind_eq_of_ok hcolumn]
      rfl
    rw [hfound, List.flatMap_singleton]
    exact ⟨hdefines.moved, hdefines.anchors⟩

end Clause

/-! ## Statements -/

/-- The names of the statement are those that stand in the tree, each list with the names at its
places and in written order. The moves are perhaps put into another order than the clauses have. -/
structure Statement.NamedBy (s : Statement) (root : Node) : Prop where
  addedColumns : s.addedColumns.map Column.name =
    root.names [.addColumn, .columnDefinition, .columnName]
  droppedColumns : s.droppedColumns = root.names [.dropColumn, .columnName]
  oldNames : s.changedColumns.map Change.oldName = root.names [.changeColumn, .columnName] ++
    root.names [.modifyColumn, .columnDefinition, .columnName]
  newNames : s.changedColumns.map (·.definition.name) =
    root.names [.changeColumn, .columnDefinition, .columnName] ++
      root.names [.modifyColumn, .columnDefinition, .columnName]
  addedIndexes : s.addedIndexes.map Index.name = (root.along [.addIndex]).flatMap Node.indexName
  indexColumns : s.addedIndexes.map Index.columns =
    (root.along [.addIndex]).map (Node.names [.keyParts, .columnName])
  droppedIndexes : s.droppedIndexes = root.names [.dropIndex, .indexName]
  renamedIndexes : s.renamedIndexes.map (fun r => [r.oldName, r.newName]) =
    (root.along [.renameIndex]).map (Node.names [.indexName])
  addedPrimaryKey : s.addedPrimaryKey = root.names [.addConstraint, .keyParts, .columnName]
  movedColumns : (s.moves.map Move.column).Perm
    (placingRules.flatMap fun r => (root.along [r]).flatMap Node.movedName)
  anchors : (s.moves.flatMap Move.anchors).Perm
    (placingRules.flatMap fun r => root.names [r, .firstOrAfterColumn, .columnName])

namespace Clause

variable {root : Node} {α : Type}

/-- What the clauses of a kind say is what their nodes say, one after the other. -/
theorem flatMap_facts_eq (h : root.Orderly) (hregular : root.Regular) (clause : Clause)
    (hclause : clause ∈ nodewise) {say : Fact → List α} {f : Node → List α}
    (hsay : ∀ t : Node, t.Complete → t.Regular → t.IsClause → t.rule = ruleOf clause →
      (clause.factsIn t).flatMap say = f t) :
    (clause.facts root).flatMap say = (root.along [ruleOf clause]).flatMap f := by
  rw [facts_of_nodewise h hclause, factsAmong, List.flatMap_assoc,
    Node.along_singleton]
  refine List.flatMap_congr fun t ht => ?_
  obtain ⟨ht, hrule⟩ := List.mem_filter.mp ht
  have hwithin := Node.within_of_mem_children ht
  exact hsay t (h.complete.within hwithin) (hregular.within hwithin) (h.clauses t ht)
    (by simpa using hrule)

end Clause

namespace Reader

variable {root : Node}

/-- The changed columns have the names that stand in the tree. -/
theorem changes_names (h : root.Orderly) (hregular : root.Regular) :
    (changes root .changeColumn).map Change.oldName = root.names [.changeColumn, .columnName] ∧
      (changes root .changeColumn).map (·.definition.name) =
        root.names [.changeColumn, .columnDefinition, .columnName] := by
  have hchange : ∀ {g : Change → String} {path : List Rule},
      (∀ t : Node, ∀ old column, t.names [.columnName] = [old] → Clause.Defines t column →
        t.names path = [g ⟨old, column⟩]) →
      (changes root .changeColumn).map g = root.names (.changeColumn :: path) := by
    intro g path hg
    rw [changes, List.map_flatMap, Node.names_cons, ← Node.along_singleton]
    refine Clause.flatMap_facts_eq h hregular .changeColumn (by decide) fun t ht hn _ hrule => ?_
    obtain ⟨old, column, hfacts, hold, hdefines⟩ := Clause.factsIn_changeColumn ht hn hrule
    rw [hfacts, hg t old column hold hdefines]
    rfl
  exact ⟨hchange fun t old column hold _ => hold, hchange fun t old column _ hd => hd.name⟩

/-- The modified columns have the names that stand in the tree. -/
theorem modifications_names (h : root.Orderly) (hregular : root.Regular) :
    (changes root .modifyColumn).map Change.oldName =
        root.names [.modifyColumn, .columnDefinition, .columnName] ∧
      (changes root .modifyColumn).map (·.definition.name) =
        root.names [.modifyColumn, .columnDefinition, .columnName] := by
  have hmodify : ∀ {g : Change → String},
      (∀ column : Column, g ⟨column.name, column⟩ = column.name) →
        (changes root .modifyColumn).map g =
          root.names [.modifyColumn, .columnDefinition, .columnName] := by
    intro g hg
    rw [changes, List.map_flatMap, Node.names_cons, ← Node.along_singleton]
    refine Clause.flatMap_facts_eq h hregular .modifyColumn (by decide) fun t ht hn _ hrule => ?_
    obtain ⟨column, hfacts, hdefines⟩ := Clause.factsIn_modifyColumn ht hn hrule
    rw [hfacts, hdefines.name]
    exact congrArg (fun name => [name]) (hg column)
  exact ⟨hmodify fun _ => rfl, hmodify fun _ => rfl⟩

/-- The moves that the clauses of one kind say are named in them. -/
theorem movesFrom_names (h : root.Orderly) (hregular : root.Regular) {clause : Clause}
    (hclause : clause ∈ [Clause.addColumn, .changeColumn, .modifyColumn]) :
    (movesFrom root clause).map Move.column =
        (root.along [ruleOf clause]).flatMap Node.movedName ∧
      (movesFrom root clause).flatMap Move.anchors =
        root.names [ruleOf clause, .firstOrAfterColumn, .columnName] := by
  have hnodewise : clause ∈ Clause.nodewise := by
    revert clause
    decide
  have hnode : ∀ t : Node, t.Complete → t.Regular → t.IsClause → t.rule = ruleOf clause →
      ((clause.factsIn t).flatMap Fact.moves).map Move.column = t.movedName ∧
        ((clause.factsIn t).flatMap Fact.moves).flatMap Move.anchors =
          t.names [.firstOrAfterColumn, .columnName] := by
    intro t ht hn hclauseOf hrule
    rcases List.mem_cons.mp hclause with rfl | hclause
    · exact Clause.moves_of_addColumn ht hn hclauseOf hrule
    · rcases List.mem_pair.mp hclause with rfl | rfl
      · obtain ⟨old, column, hfacts, -, hdefines⟩ := Clause.factsIn_changeColumn ht hn hrule
        rw [hfacts, List.flatMap_singleton]
        exact ⟨hdefines.moved, hdefines.anchors⟩
      · obtain ⟨column, hfacts, hdefines⟩ := Clause.factsIn_modifyColumn ht hn hrule
        rw [hfacts, List.flatMap_singleton]
        exact ⟨hdefines.moved, hdefines.anchors⟩
  constructor
  · rw [movesFrom, List.map_flatMap]
    refine Clause.flatMap_facts_eq h hregular clause hnodewise fun t ht hn ht' hrule => ?_
    rw [← List.map_flatMap]
    exact (hnode t ht hn ht' hrule).1
  · rw [movesFrom, List.flatMap_assoc, Node.names_cons, ← Node.along_singleton]
    refine Clause.flatMap_facts_eq h hregular clause hnodewise fun t ht hn ht' hrule => ?_
    rw [← List.flatMap_assoc]
    exact (hnode t ht hn ht' hrule).2

/-- What is gathered from an orderly tree has the names that stand in it. -/
theorem namedBy_gathered (h : root.Orderly) (hregular : root.Regular) :
    (gathered mysql.clauses root).NamedBy root where
  addedColumns := by
    rw [gathered_mysql, List.map_flatMap, Node.names_cons, ← Node.along_singleton]
    refine Clause.flatMap_facts_eq h hregular .addColumn (by decide) fun t ht hn _ hrule => ?_
    rw [← List.map_flatMap]
    exact Clause.names_of_addColumn ht hn hrule
  droppedColumns := by
    rw [gathered_mysql, Node.names_cons, ← Node.along_singleton]
    refine Clause.flatMap_facts_eq h hregular .dropColumn (by decide) fun t ht hn _ hrule => ?_
    obtain ⟨name, hfacts, hname⟩ := Clause.factsIn_dropColumn ht hn hrule
    rw [hfacts, hname]
    rfl
  oldNames := by
    rw [gathered_mysql, List.map_append, (changes_names h hregular).1,
      (modifications_names h hregular).1]
  newNames := by
    rw [gathered_mysql, List.map_append, (changes_names h hregular).2,
      (modifications_names h hregular).2]
  addedIndexes := by
    rw [gathered_mysql, List.map_flatMap]
    refine Clause.flatMap_facts_eq h hregular .addIndex (by decide) fun t ht hn _ hrule => ?_
    obtain ⟨index, hfacts, hname, -⟩ := Clause.factsIn_addIndex ht hn hrule
    rw [hfacts, hname]
    rfl
  indexColumns := by
    rw [gathered_mysql, List.map_flatMap, List.map_eq_flatMap]
    refine Clause.flatMap_facts_eq h hregular .addIndex (by decide) fun t ht hn _ hrule => ?_
    obtain ⟨index, hfacts, -, hcolumns⟩ := Clause.factsIn_addIndex ht hn hrule
    rw [hfacts, ← hcolumns]
    rfl
  droppedIndexes := by
    rw [gathered_mysql, Node.names_cons, ← Node.along_singleton]
    refine Clause.flatMap_facts_eq h hregular .dropIndex (by decide) fun t ht hn _ hrule => ?_
    obtain ⟨name, hfacts, hname⟩ := Clause.factsIn_dropIndex ht hn hrule
    rw [hfacts, hname]
    rfl
  renamedIndexes := by
    rw [gathered_mysql, List.map_flatMap, List.map_eq_flatMap]
    refine Clause.flatMap_facts_eq h hregular .renameIndex (by decide) fun t ht hn _ hrule => ?_
    obtain ⟨old, new, hfacts, hnames⟩ := Clause.factsIn_renameIndex ht hn hrule
    rw [hfacts, hnames]
    rfl
  addedPrimaryKey := by
    rw [gathered_mysql, Node.names_cons, ← Node.along_singleton]
    refine Clause.flatMap_facts_eq h hregular (.primaryKey .addConstraint) (by decide)
      fun t ht hn _ hrule => ?_
    rw [Clause.factsIn_primaryKey ht hn hrule]
    exact List.append_nil _
  movedColumns := by
    rw [gathered_mysql, List.map_append, List.map_append,
      (movesFrom_names h hregular (by decide)).1, (movesFrom_names h hregular (by decide)).1,
      (movesFrom_names h hregular (by decide)).1, List.append_assoc]
    show List.Perm _ (_ ++ (_ ++ (_ ++ [])))
    rw [List.append_nil]
    exact .refl _
  anchors := by
    rw [gathered_mysql, List.flatMap_append, List.flatMap_append,
      (movesFrom_names h hregular (by decide)).2, (movesFrom_names h hregular (by decide)).2,
      (movesFrom_names h hregular (by decide)).2, List.append_assoc]
    show List.Perm _ (_ ++ (_ ++ (_ ++ [])))
    rw [List.append_nil]
    exact .refl _

/-- With the layout of the table at hand, the moves are put in order and nothing else is renamed. -/
theorem namedBy_settle {s : Statement} (h : s.NamedBy root) (l : Layout) :
    (mysql.settle s l).NamedBy root := by
  have hmoves := Move.inOrder_perm s.moves
  exact ⟨h.addedColumns, h.droppedColumns, h.oldNames, h.newNames, h.addedIndexes, h.indexColumns,
    h.droppedIndexes, h.renamedIndexes, h.addedPrimaryKey, (hmoves.map _).trans h.movedColumns,
    (hmoves.flatMap_right _).trans h.anchors⟩

/-- Whatever is read of the tree of a text is named by it. -/
theorem exists_read_namedBy {text : String} {tree : Node} (h : Node.ofText? text = .ok tree)
    (table : Option Layout) : ∃ s, mysql.read tree table = .ok s ∧ s.NamedBy tree := by
  have hnone := read_of_ofText? h
  have hnamed := namedBy_gathered (Node.orderly_of_ofText? h) (Node.regular_of_ofText? h)
  cases table with
  | none => exact ⟨_, hnone, hnamed⟩
  | some l => exact ⟨_, read_some_eq_ok hnone l, namedBy_settle hnamed l⟩

end Reader

end AlterTable
