import AlterTable.Proofs.Statement.Clausewise
import AlterTable.Proofs.Statement.Redefinition

/-!
# The order of reading

The kinds of clauses can be read in any order. Most lists of a statement are filled by clauses of
one kind only. Three kinds share the list of moves, which offsets put in order in the end. Two kinds
share the list of redefined columns, and this one shows the order: columns that keep their names may
come before the ones that get new names. To the layout even that makes no difference, unless a
column that keeps its name is one that gets a new name in the same statement, or has the name that
another one gets.
-/

namespace AlterTable

open AlterTable.Draft

/-! ## Changes that commute -/

namespace Layout

variable {c m : Change} {changes modified : List Change}

/-- A column that gets a new name, and one of another name that keeps it, can be redefined in either
order. -/
theorem change_comm (hkeeps : m.oldName = m.definition.name) (hold : c.oldName ≠ m.definition.name)
    (hnew : c.definition.name ≠ m.definition.name) (l : Layout) :
    (l.change c).change m = (l.change m).change c := by
  have hm : ∀ name, name ≠ m.definition.name → name ≠ m.oldName := fun name hne => hkeeps ▸ hne
  induction l with
  | nil => rfl
  | cons x l ih =>
    by_cases hc : x.name = c.oldName
    · have hxm : x.name ≠ m.oldName := hc ▸ hm _ hold
      rw [change_cons hc, change, change, name_redefine, if_neg (hm _ hnew), if_neg hxm,
        change_cons hc]
    · by_cases hxm : x.name = m.oldName
      · rw [change_cons hxm, change, change, if_neg hc, name_redefine, if_neg (Ne.symm hold),
          change_cons hxm]
      · rw [change, change, if_neg hc, if_neg hxm, change, change, if_neg hc, if_neg hxm, ih]

private theorem foldl_change_comm_one (hkeeps : m.oldName = m.definition.name)
    (hapart : ∀ c ∈ changes, c.oldName ≠ m.definition.name ∧ c.definition.name ≠ m.definition.name)
    (l : Layout) : changes.foldl change (l.change m) = (changes.foldl change l).change m := by
  induction changes generalizing l with
  | nil => rfl
  | cons c changes ih =>
    obtain ⟨⟨hold, hnew⟩, hrest⟩ := List.forall_mem_cons.mp hapart
    rw [List.foldl_cons, List.foldl_cons, ← change_comm hkeeps hold hnew, ih hrest]

/-- So it is with any number of columns of either sort. -/
theorem foldl_change_comm (hkeeps : ∀ m ∈ modified, m.oldName = m.definition.name)
    (hapart : ∀ c ∈ changes, ∀ m ∈ modified,
      c.oldName ≠ m.definition.name ∧ c.definition.name ≠ m.definition.name) (l : Layout) :
    (changes ++ modified).foldl change l = (modified ++ changes).foldl change l := by
  induction modified generalizing l with
  | nil => rw [List.append_nil, List.nil_append]
  | cons m modified ih =>
    obtain ⟨hm, hrest⟩ := List.forall_mem_cons.mp hkeeps
    have hapartM := fun c hc => hapart c hc m List.mem_cons_self
    have hapartRest := fun c hc m' hm' => hapart c hc m' (List.mem_cons_of_mem m hm')
    rw [List.cons_append, List.foldl_cons, ← ih hrest hapartRest, List.foldl_append,
      List.foldl_append, List.foldl_cons, foldl_change_comm_one hm hapartM]

end Layout

/-! ## The name of the table -/

namespace Reader

variable {root : Node} {clauses : List Clause}

/-- The table is named by the one clause that names it. -/
theorem foldl_tableOr_facts (hclauses : clauses.Perm mysql.clauses) :
    (clauses.flatMap (Clause.facts root)).foldl Fact.tableOr "" =
      (Clause.facts root .tableName).foldl Fact.tableOr "" := by
  have hmem : Clause.tableName ∈ clauses := hclauses.mem_iff.mpr (by decide)
  obtain ⟨front, back, rfl⟩ := List.append_of_mem hmem
  have hsub : (front ++ back).Sublist (front ++ Clause.tableName :: back) :=
    (List.sublist_cons_self _ _).append_left front
  have honce : Clause.tableName ∉ front ++ back := by
    have hnodup : (front ++ Clause.tableName :: back).Nodup := hclauses.nodup_iff.mpr (by decide)
    exact (List.nodup_cons.mp (List.nodup_middle.mp hnodup)).1
  have hother : ∀ cs : List Clause, (∀ c ∈ cs, c ∈ front ++ back) → ∀ name,
      (cs.flatMap (Clause.facts root)).foldl Fact.tableOr name = name := by
    intro cs hcs name
    refine foldl_tableOr (fun f hf htable => ?_) name
    obtain ⟨c, hc, hfc⟩ := List.mem_flatMap.mp hf
    have hsaid := mem_sayings_of_perm hclauses c (hsub.subset (hcs c hc)) f hfc
    cases f with
    | table name' =>
      obtain rfl := List.mem_singleton.mp hsaid
      exact honce (hcs _ hc)
    | _ => simp [sayings] at htable
  rw [List.flatMap_append, List.flatMap_cons, List.foldl_append, List.foldl_append,
    hother front fun c hc => List.mem_append_left _ hc,
    hother back fun c hc => List.mem_append_right _ hc]

/-! ## Redefined columns -/

private theorem eq_or_swap_of_perm_pair {α : Type} {a b : α} {l : List α} (h : l.Perm [a, b]) :
    l = [a, b] ∨ l = [b, a] := by
  obtain ⟨x, y, rfl⟩ := List.length_eq_two.mp h.length_eq
  rcases List.mem_pair.mp (h.subset List.mem_cons_self) with rfl | rfl
  · obtain rfl := List.singleton_perm_singleton.mp h.cons_inv
    exact .inl rfl
  · obtain rfl := List.singleton_perm_singleton.mp (h.trans (.swap ..)).cons_inv
    exact .inr rfl

/-- The redefinitions of one kind come before those of the other. -/
theorem flatMap_changed_of_perm (hclauses : clauses.Perm mysql.clauses) :
    (clauses.flatMap (Clause.facts root)).flatMap Fact.changed =
        changes root .changeColumn ++ changes root .modifyColumn ∨
      (clauses.flatMap (Clause.facts root)).flatMap Fact.changed =
        changes root .modifyColumn ++ changes root .changeColumn := by
  have hperm : (clauses.filter ([.changeColumn, .modifyColumn].contains ·)).Perm
      [.changeColumn, .modifyColumn] := hclauses.filter _
  rw [flatMap_changed_eq hclauses]
  rcases eq_or_swap_of_perm_pair hperm with h | h
  · rw [h, List.flatMap_cons, List.flatMap_singleton]
    exact .inl rfl
  · rw [h, List.flatMap_cons, List.flatMap_singleton]
    exact .inr rfl

/-! ## Statements -/

/-- Apart from redefined columns and moves, what is gathered is the same in every order. -/
theorem gathered_eq_of_perm (hclauses : clauses.Perm mysql.clauses) (root : Node) :
    gathered clauses root = { gathered mysql.clauses root with
      changedColumns := (gathered clauses root).changedColumns
      moves := (gathered clauses root).moves } := by
  -- Both orders are compared with what the one kind says by itself.
  have hone : ∀ {α : Type} {say : Fact → List α} {k : Clause}, SaidBy say [k] →
      mysql.clauses.filter ([k].contains ·) = [k] →
      (clauses.flatMap (Clause.facts root)).flatMap say =
        (mysql.clauses.flatMap (Clause.facts root)).flatMap say := by
    intro α say k hsay hk
    rw [flatMap_facts_of_one hsay hk hclauses, flatMap_facts_of_one hsay hk (.refl _)]
  have htable : (clauses.flatMap (Clause.facts root)).foldl Fact.tableOr "" =
      (mysql.clauses.flatMap (Clause.facts root)).foldl Fact.tableOr "" := by
    rw [foldl_tableOr_facts hclauses, foldl_tableOr_facts (.refl _)]
  have hdropsKey : (clauses.flatMap (Clause.facts root)).any Fact.dropsKey =
      (mysql.clauses.flatMap (Clause.facts root)).any Fact.dropsKey :=
    (hclauses.flatMap_right _).any_eq
  rw [gathered, gathered, Statement.foldl_record, Statement.foldl_record, htable,
    hone saidBy_added rfl, hone saidBy_dropped rfl, hone saidBy_addedIndex rfl,
    hone saidBy_droppedIndex rfl, hone saidBy_renamedIndex rfl, hone saidBy_addedKey rfl,
    hdropsKey]

/-- Redefined columns of the two kinds are apart: none that keeps its name has a name that another
one has before or after it is renamed. -/
def ChangesApart (root : Node) : Prop :=
  ∀ c ∈ changes root .changeColumn, ∀ m ∈ changes root .modifyColumn,
    c.oldName ≠ m.definition.name ∧ c.definition.name ≠ m.definition.name
deriving Decidable

/-- To a layout the order does not matter, if the redefined columns of the two kinds are apart. -/
theorem redefined_gathered_of_perm (hclauses : clauses.Perm mysql.clauses)
    (hapart : ChangesApart root) (l : Layout) :
    (gathered clauses root).redefined l = (gathered mysql.clauses root).redefined l := by
  have hsame := gathered_eq_of_perm hclauses root
  have hchanged := changedColumns_gathered clauses root
  have hmysql := changedColumns_gathered mysql.clauses root
  rw [flatMap_changed_mysql] at hmysql
  refine Statement.redefined_congr ?_ ?_ ?_ ?_ fun kept _ => ?_
  · rw [hsame]
  · rw [hsame]
  · rw [hsame]
  · rw [hsame]
  · rw [hchanged, hmysql]
    rcases flatMap_changed_of_perm hclauses with h | h
    · rw [h]
    · rw [h]
      exact (Layout.foldl_change_comm (fun _ => oldName_of_modified) hapart kept).symm

/-- Whatever the order in which the kinds of clauses are read, a text that has a tree says the same,
but that the columns that keep their names may come before those that get new names. -/
theorem read_of_perm (text : String) (tree : Node) (clauses : List Clause) (l : Layout)
    (h : Node.ofText? text = .ok tree) (hclauses : clauses.Perm mysql.clauses)
    (hapart : ChangesApart tree) :
    ∃ s s', mysql.read tree (some l) = .ok s ∧
      Reader.read ⟨clauses, true⟩ tree (some l) = .ok s' ∧
      s' = { s with changedColumns := s'.changedColumns } ∧
      s.changedColumns = changes tree .changeColumn ++ changes tree .modifyColumn ∧
      (s'.changedColumns = s.changedColumns ∨
        s'.changedColumns = changes tree .modifyColumn ++ changes tree .changeColumn) := by
  have horderly := Node.orderly_of_ofText? h
  have hmysql := flatMap_changed_mysql tree
  refine ⟨_, _, read_of_orderly horderly (.refl _) l, read_of_orderly horderly hclauses l, ?_, ?_,
    ?_⟩
  · rw [redefined_gathered_of_perm hclauses hapart, gathered_eq_of_perm hclauses tree]
  · show (gathered mysql.clauses tree).changedColumns = _
    rw [changedColumns_gathered, hmysql]
  · show (gathered clauses tree).changedColumns = (gathered mysql.clauses tree).changedColumns ∨ _
    rw [changedColumns_gathered, changedColumns_gathered, hmysql]
    exact flatMap_changed_of_perm hclauses

/-- A statement that modifies a column before it renames another one. -/
def modifyingFirst : String :=
  "alter table t modify a int first, change b c date after a, add d int"

/-- All kinds of clauses read in reverse order, with a change and a modification of different
columns. -/
theorem read_of_perm_reverse : ∃ tree, Node.ofText? modifyingFirst = .ok tree ∧
    mysql.clauses.reverse.Perm mysql.clauses ∧ ChangesApart tree ∧
    (changes tree .changeColumn).map Change.oldName = ["b"] ∧
    (changes tree .modifyColumn).map Change.oldName = ["a"] ∧
    ∃ s s', mysql.read tree (some Statement.pair) = .ok s ∧
      Reader.read ⟨mysql.clauses.reverse, true⟩ tree (some Statement.pair) = .ok s' ∧
      s' = { s with changedColumns := s'.changedColumns } ∧
      s.changedColumns = changes tree .changeColumn ++ changes tree .modifyColumn ∧
      (s'.changedColumns = s.changedColumns ∨
        s'.changedColumns = changes tree .modifyColumn ++ changes tree .changeColumn) := by
  have hsaid : (Node.ofText? modifyingFirst).toOption.map (fun tree =>
      (decide (ChangesApart tree), (changes tree .changeColumn).map Change.oldName,
        (changes tree .modifyColumn).map Change.oldName)) = some (true, ["b"], ["a"]) := by
    decide +kernel
  cases h : Node.ofText? modifyingFirst with
  | error fault =>
    rw [h] at hsaid
    cases hsaid
  | ok tree =>
    rw [h] at hsaid
    obtain ⟨hdecide, hnames⟩ := Prod.mk.inj (Option.some.inj hsaid)
    obtain ⟨hchange, hmodify⟩ := Prod.mk.inj hnames
    have hapart : ChangesApart tree := of_decide_eq_true hdecide
    have hclauses := List.reverse_perm mysql.clauses
    exact ⟨tree, rfl, hclauses, hapart, hchange, hmodify,
      read_of_perm modifyingFirst tree _ Statement.pair h hclauses hapart⟩

end Reader

/-!
## Statements kind by kind

Each list of a statement holds what the clauses of one kind say. Two lists take from more than one
kind: the redefined columns from `CHANGE` and `MODIFY`, and the moves from these two and `ADD`.
-/

/-- The kinds of clauses that are read node by node. -/
def Clause.nodewise : List Clause :=
  [.dropColumn, .addColumn, .addIndex, .dropIndex, .renameIndex, .primaryKey .addConstraint,
    .changeColumn, .modifyColumn]

/-- In an orderly tree clauses that are read node by node are children of the statement. -/
theorem Clause.facts_of_nodewise {root : Node} {clause : Clause} (h : root.Orderly)
    (hclause : clause ∈ nodewise) : clause.facts root = clause.factsAmong root.children := by
  have hmysql : clause ∈ Reader.mysql.clauses ∧ clause ≠ .tableName ∧ clause ≠ .dropPrimaryKey := by
    revert clause
    decide
  obtain ⟨hmysql, hname, hkey⟩ := hmysql
  exact facts_eq_factsAmong h hmysql hname hkey

namespace Reader

open AlterTable.Draft

/-- The moves that the tree says by clauses of one kind. -/
def movesFrom (root : Node) (clause : Clause) : List Move :=
  (clause.facts root).flatMap Fact.moves

/-- Moves are recorded kind by kind: of added columns, of changed ones and of modified ones. -/
theorem flatMap_moves_mysql (root : Node) :
    (mysql.clauses.flatMap (Clause.facts root)).flatMap Fact.moves =
      movesFrom root .addColumn ++ movesFrom root .changeColumn ++
        movesFrom root .modifyColumn := by
  rw [flatMap_of_sayings _ (mem_sayings_of_perm (.refl _)) saidBy_moves]
  show movesFrom root .addColumn ++ (movesFrom root .changeColumn ++
    (movesFrom root .modifyColumn ++ [])) = _
  rw [List.append_nil, List.append_assoc]

/-- What is gathered, each list from the kinds of clauses that fill it. -/
theorem gathered_mysql (root : Node) : gathered mysql.clauses root =
    { table := (Clause.facts root .tableName).foldl Fact.tableOr ""
      addedColumns := (Clause.facts root .addColumn).flatMap Fact.added
      changedColumns := changes root .changeColumn ++ changes root .modifyColumn
      droppedColumns := (Clause.facts root .dropColumn).flatMap Fact.dropped
      addedIndexes := (Clause.facts root .addIndex).flatMap Fact.addedIndex
      droppedIndexes := (Clause.facts root .dropIndex).flatMap Fact.droppedIndex
      renamedIndexes := (Clause.facts root .renameIndex).flatMap Fact.renamedIndex
      addedPrimaryKey := (Clause.facts root (.primaryKey .addConstraint)).flatMap Fact.addedKey
      dropsPrimaryKey := root.hasPart .dropPrimaryKey
      moves := movesFrom root .addColumn ++ movesFrom root .changeColumn ++
        movesFrom root .modifyColumn } := by
  rw [gathered, Statement.foldl_record, foldl_tableOr_facts (.refl _), flatMap_changed_mysql,
    flatMap_moves_mysql, any_dropsKey_mysql, flatMap_facts_of_one saidBy_added rfl (.refl _),
    flatMap_facts_of_one saidBy_dropped rfl (.refl _),
    flatMap_facts_of_one saidBy_addedIndex rfl (.refl _),
    flatMap_facts_of_one saidBy_droppedIndex rfl (.refl _),
    flatMap_facts_of_one saidBy_renamedIndex rfl (.refl _),
    flatMap_facts_of_one saidBy_addedKey rfl (.refl _)]
  rfl

/-- The tree of a text says what is gathered from it. -/
theorem read_of_ofText? {text : String} {tree : Node} (h : Node.ofText? text = .ok tree) :
    mysql.read tree none = .ok (gathered mysql.clauses tree) := by
  obtain ⟨hcomplete, hroot⟩ := Node.complete_of_ofText? h
  exact read_of_complete hcomplete hroot

end Reader

end AlterTable
