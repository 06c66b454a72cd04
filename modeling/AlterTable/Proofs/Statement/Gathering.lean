import AlterTable.Reader

/-!
# Gathering facts

Where no clause is faulty, reading a tree records all its facts in the order of the reader, and
each list of the statement holds what the facts of its kind say, in that order.
-/

namespace AlterTable

/-! ## What single facts say -/

namespace Fact

/-- The name of the table, as far as the fact tells. -/
def tableOr (name : String) : Fact → String
  | table name' => name'
  | _ => name

/-- The column that is added. -/
def added : Fact → List Column
  | addColumn d _ => [d]
  | _ => []

/-- The column that is changed. -/
def changed : Fact → List Change
  | changeColumn c _ => [c]
  | _ => []

/-- The column that is dropped. -/
def dropped : Fact → List String
  | dropColumn name => [name]
  | _ => []

/-- The index that is added. -/
def addedIndex : Fact → List Index
  | addIndex index => [index]
  | _ => []

/-- The index that is dropped. -/
def droppedIndex : Fact → List String
  | dropIndex name => [name]
  | _ => []

/-- The index that is renamed. -/
def renamedIndex : Fact → List IndexRename
  | renameIndex rename => [rename]
  | _ => []

/-- The columns that are added to the primary key. -/
def addedKey : Fact → List String
  | addPrimaryKey columns => columns
  | _ => []

/-- The primary key is dropped. -/
def dropsKey : Fact → Bool
  | dropPrimaryKey => true
  | _ => false

/-- The move that goes with the fact. -/
def moves : Fact → List Move
  | addColumn _ move => move.toList
  | changeColumn _ move => move.toList
  | _ => []

end Fact

/-! ## What several facts say -/

namespace Statement

/-- Recording facts adds to each list what the facts say of it. -/
theorem foldl_record (facts : List Fact) (s : Statement) : facts.foldl record s =
    { table := facts.foldl Fact.tableOr s.table
      addedColumns := s.addedColumns ++ facts.flatMap Fact.added
      changedColumns := s.changedColumns ++ facts.flatMap Fact.changed
      droppedColumns := s.droppedColumns ++ facts.flatMap Fact.dropped
      addedIndexes := s.addedIndexes ++ facts.flatMap Fact.addedIndex
      droppedIndexes := s.droppedIndexes ++ facts.flatMap Fact.droppedIndex
      renamedIndexes := s.renamedIndexes ++ facts.flatMap Fact.renamedIndex
      addedPrimaryKey := s.addedPrimaryKey ++ facts.flatMap Fact.addedKey
      dropsPrimaryKey := s.dropsPrimaryKey || facts.any Fact.dropsKey
      moves := s.moves ++ facts.flatMap Fact.moves
      layout := s.layout } := by
  induction facts generalizing s with
  | nil => simp
  | cons f facts ih =>
    rw [List.foldl_cons, ih]
    cases f <;>
      simp [record, Fact.tableOr, Fact.added, Fact.changed, Fact.dropped, Fact.addedIndex,
        Fact.droppedIndex, Fact.renamedIndex, Fact.addedKey, Fact.dropsKey, Fact.moves]

end Statement

namespace Reader

variable {root : Node}

/-- Clauses without a fault are gathered. -/
theorem gather_eq_ok {facts : Clause → List Fact} {clauses : List Clause}
    (h : ∀ c ∈ clauses, c.findings root = (facts c).map .ok) (s : Statement) :
    gather root clauses s = .ok ((clauses.flatMap facts).foldl Statement.record s) := by
  induction clauses generalizing s with
  | nil => rfl
  | cons c clauses ih =>
    obtain ⟨hc, hclauses⟩ := List.forall_mem_cons.mp h
    have happly : c.apply root s = ((facts c).foldl Statement.record s, none) := by
      rw [Clause.apply, hc, Clause.upToFault_map_ok]
    rw [gather, happly, List.flatMap_cons, List.foldl_append]
    exact ih hclauses _

/-- If no kind of clauses has a fault, the reading records all facts. -/
theorem read_eq_ok {reader : Reader} {facts : Clause → List Fact} (hroot : root.rule = .alterTable)
    (h : ∀ c ∈ reader.clauses, c.findings root = (facts c).map .ok) :
    reader.read root none = .ok ((reader.clauses.flatMap facts).foldl Statement.record {}) := by
  rw [read, if_neg (by simp [hroot])]
  show Except.bind (gather root reader.clauses {}) _ = _
  rw [gather_eq_ok h]
  rfl

/-- With the layout of the table, what is read without it is settled. -/
theorem read_some_eq_ok {reader : Reader} {s : Statement} (h : reader.read root none = .ok s)
    (table : Layout) : reader.read root (some table) = .ok (reader.settle s table) := by
  rw [read] at h ⊢
  split at h
  next => cases h
  next hroot =>
    rw [if_neg hroot]
    cases hs : gather root reader.clauses {} with
    | error e =>
      rw [hs] at h
      cases h
    | ok s' =>
      rw [hs] at h
      cases h
      rfl

end Reader

end AlterTable
