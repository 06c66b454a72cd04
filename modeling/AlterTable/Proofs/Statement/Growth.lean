import AlterTable.Proofs.Statement.Clausewise

/-!
# Statements only grow

Reading a tree for clauses of one kind adds to the lists of a statement and takes nothing from
them, and it stays in the fields of its kind. That does not depend on the tree: a fault ends the
reading, and what was found in front of it is recorded all the same. So it holds of any sequence of
readings over one statement, whatever faults there are on the way.

A column that is redefined goes with its position, if it has one. The nodes in front of the fault
say their definitions and their moves both, and the nodes behind it say neither
(`redefinesAlong_apply`), so no move is without the definition that it belongs to.
-/

namespace AlterTable

/-! ## Fields -/

namespace Statement

/-- The fields of a statement. -/
inductive Field where
  | table
  | addedColumns
  | changedColumns
  | droppedColumns
  | addedIndexes
  | droppedIndexes
  | renamedIndexes
  | addedPrimaryKey
  | dropsPrimaryKey
  | moves
  | layout
deriving DecidableEq, Repr

/-- Two statements say the same in a field. -/
def SameIn (s s' : Statement) : Field → Prop
  | .table => s'.table = s.table
  | .addedColumns => s'.addedColumns = s.addedColumns
  | .changedColumns => s'.changedColumns = s.changedColumns
  | .droppedColumns => s'.droppedColumns = s.droppedColumns
  | .addedIndexes => s'.addedIndexes = s.addedIndexes
  | .droppedIndexes => s'.droppedIndexes = s.droppedIndexes
  | .renamedIndexes => s'.renamedIndexes = s.renamedIndexes
  | .addedPrimaryKey => s'.addedPrimaryKey = s.addedPrimaryKey
  | .dropsPrimaryKey => s'.dropsPrimaryKey = s.dropsPrimaryKey
  | .moves => s'.moves = s.moves
  | .layout => s'.layout = s.layout

/-- One statement comes from another by adding to its lists. A primary key that is dropped stays
dropped, and the layout afterwards is not touched. -/
structure Grows (s s' : Statement) : Prop where
  addedColumns : s.addedColumns <+: s'.addedColumns
  changedColumns : s.changedColumns <+: s'.changedColumns
  droppedColumns : s.droppedColumns <+: s'.droppedColumns
  addedIndexes : s.addedIndexes <+: s'.addedIndexes
  droppedIndexes : s.droppedIndexes <+: s'.droppedIndexes
  renamedIndexes : s.renamedIndexes <+: s'.renamedIndexes
  addedPrimaryKey : s.addedPrimaryKey <+: s'.addedPrimaryKey
  moves : s.moves <+: s'.moves
  dropsPrimaryKey : s.dropsPrimaryKey = true → s'.dropsPrimaryKey = true
  layout : s'.layout = s.layout

variable {s s' s'' : Statement} {field : Field} {facts : List Fact}

/-- A statement says the same as itself. -/
theorem SameIn.refl (s : Statement) (field : Field) : s.SameIn s field := by
  cases field <;> rfl

/-- What does not change in two steps does not change in both. -/
theorem SameIn.trans (h : s.SameIn s' field) (h' : s'.SameIn s'' field) : s.SameIn s'' field := by
  cases field <;> exact Eq.trans h' h

/-- A statement grows into itself. -/
theorem Grows.refl (s : Statement) : s.Grows s := by
  constructor <;> simp

/-- A statement that grows twice has grown. -/
theorem Grows.trans (h : s.Grows s') (h' : s'.Grows s'') : s.Grows s'' where
  addedColumns := h.addedColumns.trans h'.addedColumns
  changedColumns := h.changedColumns.trans h'.changedColumns
  droppedColumns := h.droppedColumns.trans h'.droppedColumns
  addedIndexes := h.addedIndexes.trans h'.addedIndexes
  droppedIndexes := h.droppedIndexes.trans h'.droppedIndexes
  renamedIndexes := h.renamedIndexes.trans h'.renamedIndexes
  addedPrimaryKey := h.addedPrimaryKey.trans h'.addedPrimaryKey
  moves := h.moves.trans h'.moves
  dropsPrimaryKey hs := h'.dropsPrimaryKey (h.dropsPrimaryKey hs)
  layout := h'.layout.trans h.layout

end Statement

open Statement (Field)

/-- The fields that a fact goes into. -/
def Fact.fields : Fact → List Field
  | .table _ => [.table]
  | .addColumn .. => [.addedColumns, .moves]
  | .changeColumn .. => [.changedColumns, .moves]
  | .dropColumn _ => [.droppedColumns]
  | .addIndex _ => [.addedIndexes]
  | .dropIndex _ => [.droppedIndexes]
  | .renameIndex _ => [.renamedIndexes]
  | .addPrimaryKey _ => [.addedPrimaryKey]
  | .dropPrimaryKey => [.dropsPrimaryKey]

/-- The fields that belong to a kind of clause. -/
def Clause.fields : Clause → List Field
  | .tableName => [.table]
  | .dropColumn => [.droppedColumns]
  | .addColumn => [.addedColumns, .moves]
  | .addIndex => [.addedIndexes]
  | .dropIndex => [.droppedIndexes]
  | .renameIndex => [.renamedIndexes]
  | .primaryKey _ => [.addedPrimaryKey]
  | .dropPrimaryKey => [.dropsPrimaryKey]
  | .changeColumn => [.changedColumns, .moves]
  | .modifyColumn => [.changedColumns, .moves]

/-! ## Recording facts -/

namespace Statement

variable {s : Statement} {field : Field} {facts : List Fact}

/-- Recording facts makes a statement grow. -/
theorem grows_foldl_record (facts : List Fact) (s : Statement) :
    s.Grows (facts.foldl record s) := by
  rw [foldl_record]
  constructor <;> simp +contextual

/-- Recording a fact touches no field but those of the fact. -/
theorem sameIn_record (s : Statement) {fact : Fact} (h : field ∉ fact.fields) :
    s.SameIn (s.record fact) field := by
  cases fact <;> cases field <;> simp_all [Fact.fields, SameIn, record]

private theorem sameIn_foldl_record (s : Statement) (h : ∀ fact ∈ facts, field ∉ fact.fields) :
    s.SameIn (facts.foldl record s) field := by
  induction facts generalizing s with
  | nil => exact .refl s field
  | cons fact facts ih =>
    obtain ⟨hfact, hfacts⟩ := List.forall_mem_cons.mp h
    exact (sameIn_record s hfact).trans (ih _ hfacts)

end Statement

/-! ## Reading up to the first fault -/

namespace Clause

variable {root n : Node} {fact : Fact} {clause : Clause} {field : Field} {ns : List Node}
variable {find : Node → Finding} {facts : List Fact} {fault : Option ReadError}
variable {changes : List Change} {moves : List Move}

/-- A reading records the facts in front of the first fault, and reports the fault. -/
theorem apply_eq (clause : Clause) (root : Node) (s : Statement) : clause.apply root s =
    ((upToFault (clause.findings root)).1.foldl Statement.record s,
      (upToFault (clause.findings root)).2) :=
  rfl

/-- What is found begins with the facts in front of the first fault and goes on with the fault, if
there is one. -/
theorem exists_eq_append_of_upToFault {findings : List Finding}
    (h : upToFault findings = (facts, fault)) :
    ∃ rest, findings = facts.map .ok ++ rest ∧ rest.head? = fault.map .error := by
  induction findings generalizing facts with
  | nil =>
    cases h
    exact ⟨[], rfl, rfl⟩
  | cons finding findings ih =>
    cases finding with
    | error e =>
      cases h
      exact ⟨.error e :: findings, rfl, rfl⟩
    | ok fact =>
      cases h
      obtain ⟨rest, hfindings, hrest⟩ := ih rfl
      exact ⟨rest, congrArg (.ok fact :: ·) hfindings, hrest⟩

private theorem mem_findings_of_upToFault (h : upToFault (clause.findings root) = (facts, fault))
    (hfact : fact ∈ facts) : .ok fact ∈ clause.findings root := by
  obtain ⟨rest, hfindings, -⟩ := exists_eq_append_of_upToFault h
  rw [hfindings]
  exact List.mem_append_left _ (List.mem_map_of_mem hfact)

/-- What a kind of clauses says is recorded in the fields of the kind. -/
theorem fields_eq_of_mem_sayings (h : clause ∈ Draft.sayings fact) :
    fact.fields = clause.fields := by
  cases fact with
  | changeColumn => rcases List.mem_pair.mp h with rfl | rfl <;> rfl
  | _ =>
    obtain rfl := List.mem_singleton.mp h
    rfl

/-- What a kind of clause says goes into the fields that belong to it. -/
theorem fields_eq_of_mem_findings (h : .ok fact ∈ clause.findings root) :
    fact.fields = clause.fields := by
  by_cases hkey : ∃ r, clause = .primaryKey r
  · -- Primary keys may be looked for in nodes of any rule, so no reader's list helps here.
    obtain ⟨r, rfl⟩ := hkey
    obtain ⟨n, -, hn⟩ := List.mem_flatMap.mp h
    unfold findPrimaryKey at hn
    split at hn
    next =>
      split at hn
      next => cases List.mem_singleton.mp hn
      next =>
        cases List.mem_singleton.mp hn
        rfl
    next => cases hn
  · have hmysql : clause ∈ Reader.mysql.clauses := by
      cases clause with
      | primaryKey r => exact absurd ⟨r, rfl⟩ hkey
      | _ => decide
    exact fields_eq_of_mem_sayings (mem_sayings hmysql (mem_facts_iff.mpr h))

/-- Every reading makes the statement grow, also one that ends in a fault. -/
theorem grows_apply (clause : Clause) (root : Node) (s : Statement) :
    s.Grows (clause.apply root s).1 :=
  Statement.grows_foldl_record _ s

/-- A reading touches no field but those of its kind of clauses. -/
theorem sameIn_apply (clause : Clause) (root : Node) (s : Statement) (h : field ∉ clause.fields) :
    s.SameIn (clause.apply root s).1 field := by
  refine Statement.sameIn_foldl_record s fun fact hfact => ?_
  rwa [fields_eq_of_mem_findings (mem_findings_of_upToFault rfl hfact)]

/-! ## Columns that are redefined -/

/-- The changes that nodes say, one for each node, and the moves of those nodes that have a
position. -/
inductive Redefine : List Node → List Change → List Move → Prop
  | nil : Redefine [] [] []
  | cons {n : Node} {c : Change} {ns : List Node} {changes : List Change} {moves : List Move} :
      n.columnDefinition = .ok c.definition → Redefine ns changes moves →
      Redefine (n :: ns) (c :: changes) ((n.move? c.definition.name).toList ++ moves)

/-- There is a move for each node that has a position. -/
theorem Redefine.length_moves (h : Redefine ns changes moves) :
    moves.length = ns.countP (·.hasPart .firstOrAfterColumn) := by
  induction h with
  | nil => rfl
  | @cons n c ns changes moves _ _ ih =>
    rw [List.length_append, ih, List.countP_cons, Node.hasPart, Node.move?]
    cases n.first? .firstOrAfterColumn <;> simp [Nat.add_comm]

/-- There is one change for each node. -/
theorem Redefine.length_changes (h : Redefine ns changes moves) : changes.length = ns.length := by
  induction h with
  | nil => rfl
  | cons _ _ ih => rw [List.length_cons, List.length_cons, ih]

/-- Each move is of a column that is redefined. -/
theorem Redefine.exists_change (h : Redefine ns changes moves) {m : Move} (hm : m ∈ moves) :
    ∃ c ∈ changes, c.definition.name = m.column := by
  induction h with
  | nil => cases hm
  | @cons n c ns changes moves _ _ ih =>
    rcases List.mem_append.mp hm with hm | hm
    · obtain ⟨position, -, rfl⟩ := Option.map_eq_some_iff.mp (Option.mem_toList.mp hm)
      exact ⟨c, List.mem_cons_self, rfl⟩
    · obtain ⟨c', hc', hname⟩ := ih hm
      exact ⟨c', List.mem_cons_of_mem _ hc', hname⟩

private theorem redefine_of_map_eq
    (hfind : ∀ n fact, find n = .ok fact → ∃ c, n.columnDefinition = .ok c.definition ∧
      fact = .changeColumn c (n.move? c.definition.name))
    (h : ns.map find = facts.map .ok) :
    Redefine ns (facts.flatMap Fact.changed) (facts.flatMap Fact.moves) := by
  induction ns generalizing facts with
  | nil =>
    obtain rfl := List.map_eq_nil_iff.mp h.symm
    exact .nil
  | cons n ns ih =>
    cases facts with
    | nil => cases h
    | cons fact facts =>
      obtain ⟨hn, hns⟩ := List.cons.inj h
      obtain ⟨c, hc, rfl⟩ := hfind n fact hn
      exact .cons hc (ih hns)

/-- What nodes at the front of a list say has been heard: a change of each of them and a move of
each that has a position, so that every move is of a column which is redefined. All nodes are heard
just if there is no fault. -/
structure Heard (ns : List Node) (fault : Option ReadError) (changes : List Change)
    (moves : List Move) : Prop where
  redefine : Redefine (ns.take changes.length) changes moves
  length_moves : moves.length =
    (ns.take changes.length).countP (·.hasPart .firstOrAfterColumn)
  exists_change : ∀ m ∈ moves, ∃ c ∈ changes, c.definition.name = m.column
  fault_eq_none_iff : fault = none ↔ changes.length = ns.length

private theorem heard_of_upToFault
    (hfind : ∀ n fact, find n = .ok fact → ∃ c, n.columnDefinition = .ok c.definition ∧
      fact = .changeColumn c (n.move? c.definition.name))
    (h : upToFault (ns.map find) = (facts, fault)) :
    Heard ns fault (facts.flatMap Fact.changed) (facts.flatMap Fact.moves) := by
  obtain ⟨rest, hfindings, hrest⟩ := exists_eq_append_of_upToFault h
  have hlength : ns.length = facts.length + rest.length := by
    simpa using congrArg List.length hfindings
  have hfront : (ns.take facts.length).map find = facts.map .ok := by
    rw [List.map_take, hfindings, List.take_left' (List.length_map _)]
  have hredefine := redefine_of_map_eq hfind hfront
  have hchanges : (facts.flatMap Fact.changed).length = facts.length := by
    rw [hredefine.length_changes, List.length_take, hlength]
    exact Nat.min_eq_left (Nat.le_add_right _ _)
  rw [← hchanges] at hredefine
  refine ⟨hredefine, hredefine.length_moves, fun m => hredefine.exists_change, ?_⟩
  have hnone : fault = none ↔ rest = [] := by
    rw [← List.head?_eq_none_iff, hrest, Option.map_eq_none_iff]
  rw [hnone, hchanges, hlength, ← List.length_eq_zero_iff]
  omega

/-- What is added to a statement by redefinitions is heard of nodes from a list. -/
def RedefinesAlong (ns : List Node) (s s' : Statement) (fault : Option ReadError) : Prop :=
  ∃ changes moves, s'.changedColumns = s.changedColumns ++ changes ∧
    s'.moves = s.moves ++ moves ∧ Heard ns fault changes moves

/-- Reading changed or modified columns adds a redefinition for each node that is heard. -/
theorem redefinesAlong_apply (hclause : clause = .changeColumn ∨ clause = .modifyColumn)
    (root : Node) (s : Statement) :
    RedefinesAlong (root.all (Draft.ruleOf clause)) s (clause.apply root s).1
      (clause.apply root s).2 := by
  have hfind : ∃ find, clause.findings root = (root.all (Draft.ruleOf clause)).map find ∧
      ∀ n fact, find n = .ok fact → ∃ c, n.columnDefinition = .ok c.definition ∧
        fact = .changeColumn c (n.move? c.definition.name) := by
    rcases hclause with rfl | rfl
    · refine ⟨findChanged, rfl, fun n fact h => ?_⟩
      obtain ⟨old, column, -, hcolumn, rfl⟩ := exists_of_findChanged h
      exact ⟨⟨old.exactText, column⟩, hcolumn, rfl⟩
    · refine ⟨findModified, rfl, fun n fact h => ?_⟩
      obtain ⟨column, hcolumn, rfl⟩ := exists_of_findModified h
      exact ⟨⟨column.name, column⟩, hcolumn, rfl⟩
  obtain ⟨find, hfindings, hfind⟩ := hfind
  rw [apply_eq, hfindings]
  refine ⟨_, _, ?_, ?_, heard_of_upToFault hfind rfl⟩
  · rw [Statement.foldl_record]
  · rw [Statement.foldl_record]

/-! ## Readings one after the other -/

/-- What a reading of a tree for clauses of one kind makes of a statement, also where it ends in a
fault. -/
structure Extends (clause : Clause) (root : Node) (s s' : Statement) (fault : Option ReadError) :
    Prop where
  grows : s.Grows s'
  frame : ∀ field ∉ clause.fields, s.SameIn s' field
  redefines : clause = .changeColumn ∨ clause = .modifyColumn →
    RedefinesAlong (root.all (Draft.ruleOf clause)) s s' fault

/-- One reading extends a statement as its kind of clauses allows. -/
theorem extends_apply (clause : Clause) (root : Node) (s : Statement) :
    Extends clause root s (clause.apply root s).1 (clause.apply root s).2 where
  grows := grows_apply clause root s
  frame _ := sameIn_apply clause root s
  redefines hclause := redefinesAlong_apply hclause root s

end Clause

namespace Statement

variable {s : Statement} {steps : List (Clause × Node)} {field : Field}

/-- The statement after readings of one tree each for clauses of one kind. A fault ends the reading
in which it is found and none of the others. -/
def after (s : Statement) (steps : List (Clause × Node)) : Statement :=
  steps.foldl (fun s step => (step.1.apply step.2 s).1) s

/-- A run of readings makes the statement grow. -/
theorem grows_after (s : Statement) (steps : List (Clause × Node)) : s.Grows (s.after steps) := by
  induction steps generalizing s with
  | nil => exact .refl s
  | cons step steps ih => exact (Clause.grows_apply step.1 step.2 s).trans (ih _)

/-- A field that none of the readings is about stays the same. -/
theorem sameIn_after (s : Statement) (h : ∀ step ∈ steps, field ∉ step.1.fields) :
    s.SameIn (s.after steps) field := by
  induction steps generalizing s with
  | nil => exact .refl s field
  | cons step steps ih =>
    obtain ⟨hstep, hsteps⟩ := List.forall_mem_cons.mp h
    exact (Clause.sameIn_apply step.1 step.2 s hstep).trans (ih _ hsteps)

/-- In a sequence of readings over one statement each of them only adds to the fields of its kind,
and so does the whole sequence to the fields of all its kinds. -/
theorem extends_after (s : Statement) (steps : List (Clause × Node)) :
    (∀ front clause root back, steps = front ++ (clause, root) :: back →
      ∃ fault,
        Clause.Extends clause root (s.after front) (s.after (front ++ [(clause, root)])) fault ∧
        clause.apply root (s.after front) = (s.after (front ++ [(clause, root)]), fault)) ∧
      s.Grows (s.after steps) ∧
      ∀ field, (∀ step ∈ steps, field ∉ step.1.fields) → s.SameIn (s.after steps) field := by
  refine ⟨fun front clause root back _ => ?_, grows_after s steps, fun _ => sameIn_after s⟩
  have hafter : s.after (front ++ [(clause, root)]) = (clause.apply root (s.after front)).1 := by
    rw [after, List.foldl_append]
    rfl
  rw [hafter]
  exact ⟨_, Clause.extends_apply clause root (s.after front), rfl⟩

end Statement

end AlterTable
