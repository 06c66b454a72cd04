import AlterTable.Proofs.Draft.RoundTrip
import AlterTable.Proofs.Node.MapStart
import AlterTable.Proofs.Statement.Orderly
import Mathlib.Data.List.Flatten

/-!
# Statements clause by clause

What an orderly tree says is what its clauses say, kind by kind and within each kind one after the
other. Only the moves of all kinds are in written order, and these are the moves of the clauses one
after the other. Where in the text the clauses stand makes no difference but to the offsets.
-/

namespace AlterTable

open AlterTable.Draft

/-! ## Facts by kind -/

namespace Clause

variable {root n : Node} {fact : Fact} {clause : Clause}

/-- A fact is said if it is found, and faults are no facts. -/
theorem mem_facts_iff : fact ∈ clause.facts root ↔ .ok fact ∈ clause.findings root := by
  rw [facts, List.mem_filterMap]
  constructor
  · rintro ⟨finding, hfinding, hfact⟩
    cases finding with
    | error e => cases hfact
    | ok fact' =>
      cases hfact
      exact hfinding
  · intro h
    exact ⟨.ok fact, h, rfl⟩

private theorem exists_of_bind_eq_ok {ε α β : Type} {x : Except ε α} {f : α → Except ε β} {b : β}
    (h : x >>= f = .ok b) : ∃ a, x = .ok a ∧ f a = .ok b := by
  cases x with
  | error e => cases h
  | ok a => exact ⟨a, rfl, h⟩

private theorem exists_of_mem_findAdded (h : .ok fact ∈ findAdded n) :
    ∃ d move, fact = .addColumn d move := by
  unfold findAdded at h
  split at h
  next => cases List.mem_singleton.mp h
  next =>
    obtain ⟨column, -, hfact⟩ := exists_of_bind_eq_ok (List.mem_singleton.mp h).symm
    cases hfact
    exact ⟨_, _, rfl⟩
  next =>
    obtain ⟨u, -, hu⟩ := List.mem_map.mp h
    obtain ⟨column, -, hfact⟩ := exists_of_bind_eq_ok hu
    cases hfact
    exact ⟨_, _, rfl⟩

private theorem exists_of_findIndex (h : findIndex n = .ok fact) :
    ∃ index, fact = .addIndex index := by
  unfold findIndex at h
  dsimp only at h
  split at h
  next =>
    cases h
    exact ⟨_, rfl⟩
  next => cases h

private theorem exists_of_findRename (h : findRename n = .ok fact) :
    ∃ rename, fact = .renameIndex rename := by
  unfold findRename at h
  split at h
  next =>
    cases h
    exact ⟨_, rfl⟩
  next => cases h

private theorem exists_of_mem_findPrimaryKey {r : Rule} (h : .ok fact ∈ findPrimaryKey r n) :
    ∃ columns, fact = .addPrimaryKey columns := by
  unfold findPrimaryKey at h
  split at h
  next =>
    split at h
    next => cases List.mem_singleton.mp h
    next =>
      cases List.mem_singleton.mp h
      exact ⟨_, rfl⟩
  next => cases h

/-- A column that is changed was found with its old name and its definition. -/
theorem exists_of_findChanged (h : findChanged n = .ok fact) :
    ∃ old column, n.require .columnName = .ok old ∧ n.columnDefinition = .ok column ∧
      fact = .changeColumn ⟨old.exactText, column⟩ (n.move? column.name) := by
  obtain ⟨old, hold, h⟩ := exists_of_bind_eq_ok h
  obtain ⟨column, hcolumn, h⟩ := exists_of_bind_eq_ok h
  cases h
  exact ⟨old, column, hold, hcolumn, rfl⟩

/-- A column that is modified was found with its definition. -/
theorem exists_of_findModified (h : findModified n = .ok fact) :
    ∃ column, n.columnDefinition = .ok column ∧
      fact = .changeColumn ⟨column.name, column⟩ (n.move? column.name) := by
  obtain ⟨column, hcolumn, h⟩ := exists_of_bind_eq_ok h
  cases h
  exact ⟨column, hcolumn, rfl⟩

/-- A kind of clauses says facts of its own kinds only. -/
theorem mem_sayings (hclause : clause ∈ Reader.mysql.clauses) (h : fact ∈ clause.facts root) :
    clause ∈ sayings fact := by
  rw [mem_facts_iff] at h
  cases clause with
  | tableName =>
    obtain ⟨n, -, hfact⟩ := exists_of_bind_eq_ok (List.mem_singleton.mp h).symm
    cases hfact
    exact List.mem_singleton_self _
  | dropColumn =>
    obtain ⟨n, -, hn⟩ := List.mem_map.mp h
    obtain ⟨name, -, hfact⟩ := exists_of_bind_eq_ok hn
    cases hfact
    exact List.mem_singleton_self _
  | addColumn =>
    obtain ⟨n, -, hn⟩ := List.mem_flatMap.mp h
    obtain ⟨d, move, rfl⟩ := exists_of_mem_findAdded hn
    exact List.mem_singleton_self _
  | addIndex =>
    obtain ⟨n, -, hn⟩ := List.mem_map.mp h
    obtain ⟨index, rfl⟩ := exists_of_findIndex hn
    exact List.mem_singleton_self _
  | dropIndex =>
    obtain ⟨n, -, hn⟩ := List.mem_map.mp h
    obtain ⟨name, -, hfact⟩ := exists_of_bind_eq_ok hn
    cases hfact
    exact List.mem_singleton_self _
  | renameIndex =>
    obtain ⟨n, -, hn⟩ := List.mem_map.mp h
    obtain ⟨rename, rfl⟩ := exists_of_findRename hn
    exact List.mem_singleton_self _
  | primaryKey r =>
    obtain rfl : r = .addConstraint := by
      simpa [Reader.mysql, Reader.extended, Reader.base] using hclause
    obtain ⟨n, -, hn⟩ := List.mem_flatMap.mp h
    obtain ⟨columns, rfl⟩ := exists_of_mem_findPrimaryKey hn
    exact List.mem_singleton_self _
  | dropPrimaryKey =>
    rw [findings] at h
    split at h
    next =>
      cases List.mem_singleton.mp h
      exact List.mem_singleton_self _
    next => cases h
  | changeColumn =>
    obtain ⟨n, -, hn⟩ := List.mem_map.mp h
    obtain ⟨old, column, -, -, rfl⟩ := exists_of_findChanged hn
    exact List.mem_cons_self
  | modifyColumn =>
    obtain ⟨n, -, hn⟩ := List.mem_map.mp h
    obtain ⟨column, -, rfl⟩ := exists_of_findModified hn
    exact List.mem_cons_of_mem _ List.mem_cons_self

end Clause

/-! ## Facts node by node -/

namespace Clause

variable {root n : Node} {clause : Clause}

/-- What a node says as one of the clauses of a kind. -/
def factsIn (clause : Clause) (t : Node) : List Fact :=
  (findingsIn clause t).filterMap Except.toOption

/-- What the nodes of a kind among several say. -/
def factsAmong (clause : Clause) (ts : List Node) : List Fact :=
  (ts.filter (·.rule == ruleOf clause)).flatMap clause.factsIn

/-- What nodes say by clauses of a kind is said by a node of the kind. -/
theorem exists_of_mem_factsAmong {fact : Fact} {ts : List Node} (h : fact ∈ clause.factsAmong ts) :
    ∃ t ∈ ts, t.rule = ruleOf clause ∧ fact ∈ clause.factsIn t := by
  obtain ⟨t, ht, hfact⟩ := List.mem_flatMap.mp h
  obtain ⟨hmem, hrule⟩ := List.mem_filter.mp ht
  exact ⟨t, hmem, beq_iff_eq.mp hrule, hfact⟩

/-- What nodes of two lists say is what those of the first say and then those of the second. -/
theorem factsAmong_append (clause : Clause) (ts us : List Node) :
    clause.factsAmong (ts ++ us) = clause.factsAmong ts ++ clause.factsAmong us := by
  rw [factsAmong, List.filter_append, List.flatMap_append]
  rfl

/-- A node of the kind in front says what it has to say first. -/
theorem factsAmong_cons_of_eq (h : n.rule = ruleOf clause) (ts : List Node) :
    clause.factsAmong (n :: ts) = clause.factsIn n ++ clause.factsAmong ts := by
  rw [factsAmong, List.filter_cons_of_pos (by simpa using h), List.flatMap_cons]
  rfl

/-- A node of another kind in front says nothing. -/
theorem factsAmong_cons_of_ne (h : n.rule ≠ ruleOf clause) (ts : List Node) :
    clause.factsAmong (n :: ts) = clause.factsAmong ts := by
  rw [factsAmong, List.filter_cons_of_neg (by simpa using h)]
  rfl

private theorem ruleOf_mem_clauseRules (h : clause ∈ Reader.mysql.clauses) :
    ruleOf clause ∈ clauseRules :=
  List.mem_map_of_mem h

/-- A kind of clauses that is read node by node says what the nodes right below the root say. -/
theorem facts_eq_factsAmong (h : root.Orderly) (hclause : clause ∈ Reader.mysql.clauses)
    (htable : clause ≠ .tableName) (hkey : clause ≠ .dropPrimaryKey) :
    clause.facts root = clause.factsAmong root.children := by
  rw [facts, findings_eq_flatMap htable hkey, h.all_eq (ruleOf_mem_clauseRules hclause),
    List.filterMap_flatMap]
  rfl

private theorem factsIn_mapStart (f : Nat → Nat) (clause : Clause) (t : Node) :
    clause.factsIn (t.mapStart f) = (clause.factsIn t).map (Fact.mapOffset f) := by
  rw [factsIn, factsIn, findingsIn_mapStart, List.filterMap_map, List.map_filterMap]
  refine List.filterMap_congr fun finding _ => ?_
  cases finding <;> rfl

/-- Nodes with other offsets say the same, with other offsets. -/
theorem factsAmong_mapStart (f : Nat → Nat) (clause : Clause) (ts : List Node) :
    clause.factsAmong (ts.map (Node.mapStart f)) =
      (clause.factsAmong ts).map (Fact.mapOffset f) := by
  rw [factsAmong, factsAmong, Node.filter_rule_mapStart, List.flatMap_map, List.map_flatMap]
  exact List.flatMap_congr fun t _ => factsIn_mapStart f clause t

end Clause

/-! ## Moves clause by clause -/

namespace Node

/-- The moves that the node of a clause says. -/
def moves (t : Node) : List Move :=
  match t.rule with
  | .addColumn => (Clause.findAdded t).flatMap Clause.movesOf
  | .changeColumn => Clause.movesOf (Clause.findChanged t)
  | .modifyColumn => Clause.movesOf (Clause.findModified t)
  | _ => []

variable {t root : Node} {r : Rule}

private theorem moves_of_addColumn (h : t.rule = .addColumn) :
    t.moves = (Clause.findAdded t).flatMap Clause.movesOf := by
  rw [moves, h]

/-- The move of a changed column is the one that is read with it. -/
theorem moves_of_changeColumn (h : t.rule = .changeColumn) :
    t.moves = Clause.movesOf (Clause.findChanged t) := by
  rw [moves, h]

/-- The move of a modified column is the one that is read with it. -/
theorem moves_of_modifyColumn (h : t.rule = .modifyColumn) :
    t.moves = Clause.movesOf (Clause.findModified t) := by
  rw [moves, h]

private theorem moves_of_notMem (h : t.rule ∉ placingRules) : t.moves = [] := by
  unfold moves
  split
  next hrule => exact absurd (hrule ▸ by decide) h
  next hrule => exact absurd (hrule ▸ by decide) h
  next hrule => exact absurd (hrule ▸ by decide) h
  next => rfl

/-- Other offsets are other offsets of moves. -/
theorem moves_mapStart (f : Nat → Nat) (t : Node) :
    (t.mapStart f).moves = t.moves.map (Move.mapOffset f) := by
  have hfinding : ∀ finding : Finding, Clause.movesOf (Clause.mapOffset f finding) =
      (Clause.movesOf finding).map (Move.mapOffset f) := by
    intro finding
    rcases finding with _ | fact
    · rfl
    · exact fact.moves_mapOffset f
  unfold moves
  rw [rule_mapStart]
  split
  · rw [Clause.findAdded_mapStart, List.flatMap_map, List.map_flatMap]
    exact List.flatMap_congr fun finding _ => hfinding finding
  · rw [Clause.findChanged_mapStart, hfinding]
  · rw [Clause.findModified_mapStart, hfinding]
  · rfl

/-- The moves of a clause have the words of the positions in it. -/
theorem IsClause.words_moves (ht : t.IsClause) (h : t.Complete) :
    t.moves.map Move.word = t.words := by
  by_cases hrule : t.rule ∈ placingRules
  · rcases List.mem_cons.mp hrule with hadd | hrule
    · rw [moves_of_addColumn hadd, Clause.words_findAdded h ht hadd]
    · rcases List.mem_pair.mp hrule with hchange | hmodify
      · rw [moves_of_changeColumn hchange, Clause.words_findChanged h ht hchange]
      · rw [moves_of_modifyColumn hmodify, Clause.words_findModified h ht hmodify]
  · rw [moves_of_notMem hrule, words, outermost_of_ne ht.rule_ne,
      (ht.free hrule).outermosts_eq_nil]
    rfl

namespace Orderly

/-- The moves of the clauses stand in the order of their words. -/
theorem ascending_moves (h : root.Orderly) :
    (root.children.flatMap moves).Pairwise (·.offset < ·.offset) := by
  have hwords : (root.children.flatMap moves).map Move.word = root.words := by
    rw [words_of_alterTable root h.rule, List.map_flatMap]
    refine List.flatMap_congr fun t ht => ?_
    exact (h.clauses t ht).words_moves (h.complete.within (within_of_mem_children ht))
  have hascending := h.ascending
  rw [← hwords, List.pairwise_map] at hascending
  simpa only [Move.offset_word] using hascending

end Orderly

end Node

namespace Clause

variable {root : Node}

/-- One kind of clauses finds the moves of the nodes of its kind. -/
theorem moves_facts (h : root.Orderly) (clause : Clause) :
    (clause.facts root).flatMap Fact.moves =
      clause.placing.flatMap fun r => (root.children.filter (·.rule == r)).flatMap Node.moves := by
  have hnodes : ∀ {r : Rule} {f : Node → List Move}, r ∈ clauseRules →
      (∀ t : Node, t.rule = r → t.moves = f t) →
      (root.all r).flatMap f = [r].flatMap fun r =>
        (root.children.filter (·.rule == r)).flatMap Node.moves := by
    intro r f hr hf
    rw [h.all_eq hr, List.flatMap_singleton]
    refine List.flatMap_congr fun t ht => ?_
    exact (hf t (by simpa using (List.mem_filter.mp ht).2)).symm
  rw [facts, flatMap_moves]
  cases clause with
  | addColumn =>
    rw [findings, List.flatMap_assoc]
    exact hnodes (by decide) fun t => Node.moves_of_addColumn
  | changeColumn =>
    rw [findings, List.flatMap_map]
    exact hnodes (by decide) fun t => Node.moves_of_changeColumn
  | modifyColumn =>
    rw [findings, List.flatMap_map]
    exact hnodes (by decide) fun t => Node.moves_of_modifyColumn
  | _ =>
    rw [List.flatMap_eq_nil_iff.mpr (movesOf_eq_nil rfl)]
    rfl

end Clause

/-! ## Lists by kind -/

namespace Reader

variable {root : Node} {clauses : List Clause}

/-- Each kind of clauses says facts of its own kinds only. -/
theorem mem_sayings_of_perm (hclauses : clauses.Perm mysql.clauses) :
    ∀ c ∈ clauses, ∀ f ∈ c.facts root, c ∈ sayings f :=
  fun _ hc _ => Clause.mem_sayings (hclauses.mem_iff.mp hc)

/-- What is said by clauses of one kind only is the same in every order. -/
theorem flatMap_facts_of_one {α : Type} {say : Fact → List α} {k : Clause}
    (hsay : SaidBy say [k]) (hk : mysql.clauses.filter ([k].contains ·) = [k])
    (hclauses : clauses.Perm mysql.clauses) :
    (clauses.flatMap (Clause.facts root)).flatMap say = (k.facts root).flatMap say := by
  have hfilter : clauses.filter ([k].contains ·) = [k] := by
    have hperm := hclauses.filter ([k].contains ·)
    rw [hk] at hperm
    exact hperm.eq_singleton
  rw [flatMap_of_sayings [k] (mem_sayings_of_perm hclauses) hsay, hfilter, List.flatMap_singleton]

/-- The redefinitions that the tree says by clauses of one kind. -/
def changes (root : Node) (clause : Clause) : List Change :=
  (clause.facts root).flatMap Fact.changed

/-- A modified column keeps its name. -/
theorem oldName_of_modified {m : Change} (hm : m ∈ changes root .modifyColumn) :
    m.oldName = m.definition.name := by
  obtain ⟨fact, hfact, hchanged⟩ := List.mem_flatMap.mp hm
  obtain ⟨n, -, hn⟩ := List.mem_map.mp (Clause.mem_facts_iff.mp hfact)
  obtain ⟨column, -, rfl⟩ := Clause.exists_of_findModified hn
  obtain rfl := List.mem_singleton.mp hchanged
  rfl

/-- Redefinitions are read from the clauses of two kinds. -/
theorem flatMap_changed_eq (hclauses : clauses.Perm mysql.clauses) :
    (clauses.flatMap (Clause.facts root)).flatMap Fact.changed =
      (clauses.filter ([.changeColumn, .modifyColumn].contains ·)).flatMap (changes root) :=
  flatMap_of_sayings _ (mem_sayings_of_perm hclauses) saidBy_changed

/-- Changed columns are recorded first, then modified ones. -/
theorem flatMap_changed_mysql (root : Node) :
    (mysql.clauses.flatMap (Clause.facts root)).flatMap Fact.changed =
      changes root .changeColumn ++ changes root .modifyColumn := by
  rw [flatMap_changed_eq (.refl _)]
  show changes root .changeColumn ++ (changes root .modifyColumn ++ []) = _
  rw [List.append_nil]

/-- The redefinitions that are said by nodes of one kind among several. -/
def changesAmong (clause : Clause) (ts : List Node) : List Change :=
  (clause.factsAmong ts).flatMap Fact.changed

/-- Redefinitions of two lists of nodes are those of the first and then those of the second. -/
theorem changesAmong_append (clause : Clause) (ts us : List Node) :
    changesAmong clause (ts ++ us) = changesAmong clause ts ++ changesAmong clause us := by
  rw [changesAmong, Clause.factsAmong_append, List.flatMap_append]
  rfl

/-- In an orderly tree redefinitions are said by the children of the statement. -/
theorem changes_eq_changesAmong {clause : Clause} (h : root.Orderly)
    (hclause : clause ∈ [Clause.changeColumn, .modifyColumn]) :
    changes root clause = changesAmong clause root.children := by
  have hmysql : clause ∈ mysql.clauses ∧ clause ≠ .tableName ∧ clause ≠ .dropPrimaryKey := by
    revert clause
    decide
  obtain ⟨hmysql, htable, hkey⟩ := hmysql
  rw [changes, Clause.facts_eq_factsAmong h hmysql htable hkey]
  rfl

end Reader

/-! ## Reading clause by clause -/

namespace Reader

variable {root : Node} {clauses : List Clause}

/-- What a tree says by clauses of these kinds. -/
def gathered (clauses : List Clause) (root : Node) : Statement :=
  (clauses.flatMap (Clause.facts root)).foldl Statement.record {}

/-- The added columns of what is gathered are those that the facts say. -/
theorem addedColumns_gathered (clauses : List Clause) (root : Node) :
    (gathered clauses root).addedColumns =
      (clauses.flatMap (Clause.facts root)).flatMap Fact.added := by
  rw [gathered, Statement.foldl_record]
  rfl

/-- The redefined columns of what is gathered are those that the facts say. -/
theorem changedColumns_gathered (clauses : List Clause) (root : Node) :
    (gathered clauses root).changedColumns =
      (clauses.flatMap (Clause.facts root)).flatMap Fact.changed := by
  rw [gathered, Statement.foldl_record]
  rfl

/-- The dropped columns of what is gathered are those that the facts say. -/
theorem droppedColumns_gathered (clauses : List Clause) (root : Node) :
    (gathered clauses root).droppedColumns =
      (clauses.flatMap (Clause.facts root)).flatMap Fact.dropped := by
  rw [gathered, Statement.foldl_record]
  rfl

/-- The columns of the new primary key are those that the facts say. -/
theorem addedPrimaryKey_gathered (clauses : List Clause) (root : Node) :
    (gathered clauses root).addedPrimaryKey =
      (clauses.flatMap (Clause.facts root)).flatMap Fact.addedKey := by
  rw [gathered, Statement.foldl_record]
  rfl

/-- The primary key is dropped if there is a clause for that anywhere in the tree. -/
theorem any_dropsKey_mysql (root : Node) :
    (mysql.clauses.flatMap (Clause.facts root)).any Fact.dropsKey =
      root.hasPart .dropPrimaryKey := by
  rw [any_dropsKey_of_sayings (mem_sayings_of_perm (.refl _)) (by decide), Clause.facts,
    Clause.findings]
  cases root.hasPart .dropPrimaryKey <;> rfl

/-- In an orderly tree the primary key is dropped if one of the clauses says so. -/
theorem dropsPrimaryKey_gathered (h : root.Orderly) :
    (gathered mysql.clauses root).dropsPrimaryKey =
      root.children.any (·.rule == .dropPrimaryKey) := by
  have hpart : root.hasPart .dropPrimaryKey = root.children.any (·.rule == .dropPrimaryKey) := by
    rw [Bool.eq_iff_iff, Node.hasPart_iff, h.all_eq (by decide)]
    simp [List.filter_eq_nil_iff]
  rw [gathered, Statement.foldl_record]
  show (false || (mysql.clauses.flatMap (Clause.facts root)).any Fact.dropsKey) = _
  rw [Bool.false_or, any_dropsKey_mysql, hpart]

/-- In whatever order the kinds of clauses are read, the moves in written order are those of the
clauses one after the other. -/
theorem inOrder_moves_gathered (h : root.Orderly) (hclauses : clauses.Perm mysql.clauses) :
    Move.inOrder (gathered clauses root).moves = root.children.flatMap Node.moves := by
  refine Move.inOrder_eq_of_perm ?_ h.ascending_moves
  rw [gathered, Statement.foldl_record]
  show ([] ++ (clauses.flatMap (Clause.facts root)).flatMap Fact.moves).Perm _
  rw [List.nil_append, List.flatMap_assoc,
    List.flatMap_congr fun clause _ => Clause.moves_facts h clause, ← List.flatMap_assoc]
  have hrules : (clauses.flatMap Clause.placing).Perm placingRules :=
    hclauses.flatMap_right Clause.placing
  refine (hrules.flatMap_right _).trans (flatMap_filter_perm (by decide) fun t _ hrule => ?_)
  exact Node.moves_of_notMem hrule

/-- With the layout of the table at hand, an orderly tree is read by whatever order of the kinds of
clauses, and the moves of its clauses are made one after the other. -/
theorem read_of_orderly (h : root.Orderly) (hclauses : clauses.Perm mysql.clauses) (l : Layout) :
    Reader.read ⟨clauses, true⟩ root (some l) = .ok { gathered clauses root with
      moves := root.children.flatMap Node.moves
      layout := some ((root.children.flatMap Node.moves).foldl Layout.move
        ((gathered clauses root).redefined l)) } := by
  have hfindings : ∀ c ∈ clauses, c.findings root = (c.facts root).map .ok := fun c hc =>
    (Clause.findings_faultless h.complete h.rule (hclauses.mem_iff.mp hc)).eq_map
  have hread : Reader.read ⟨clauses, true⟩ root none = .ok (gathered clauses root) :=
    read_eq_ok h.rule hfindings
  rw [read_some_eq_ok hread, settle, if_pos rfl, Layout.reorder, inOrder_moves_gathered h hclauses]

end Reader

end AlterTable
