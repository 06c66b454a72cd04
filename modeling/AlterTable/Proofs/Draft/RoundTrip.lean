import AlterTable.Dialect
import AlterTable.Proofs.Draft.Facts
import AlterTable.Proofs.Grammar.Exactness
import AlterTable.Proofs.Statement.Gathering

/-!
# Drafts are read back

Every text that renders a draft is read, and what is read is the draft: each alteration once, each
kind in written order, and each move with the offset of its position.
-/

namespace AlterTable

open AlterTable.Grammar
open AlterTable.Parse

namespace Draft

variable {d : Draft} {t : Node} {r : Rule} {marks : List Nat} {c : Clause}

/-! ## Looking into trees -/

/-- What is in the parts of alterations are parts again. -/
theorem isPart_of_mem_breadthFirst {queue : List Node} (h : ∀ u ∈ queue, IsPart u) :
    ∀ v ∈ Node.breadthFirst queue, isPart v.rule = true := by
  have hbelow : ∀ v ∈ queue.flatMap Node.children, isPart v.rule = true ∧ v.children = [] := by
    intro v hv
    obtain ⟨u, hu, hvu⟩ := List.mem_flatMap.mp hv
    exact (h u hu).children v hvu
  rw [Node.breadthFirst_eq, Node.breadthFirst_of_leaves fun v hv => (hbelow v hv).2]
  intro v hv
  rcases List.mem_append.mp hv with hv | hv
  · exact (h v hv).rule
  · exact (hbelow v hv).1

/-- What holds of the node of every alteration holds of all nodes that they gather to. -/
theorem forall_of_gathers {P : Node → Prop} {xs : List Alteration} {nodes : List Node}
    (hP : ∀ {x marks t}, IsAlteration x marks t → P t)
    (h : Gathers OneAlteration xs marks nodes) : ∀ t ∈ nodes, P t := by
  induction h with
  | nil => exact fun t ht => absurd ht List.not_mem_nil
  | cons hx _ ih =>
    obtain ⟨t, rfl, ht⟩ := hx
    exact List.forall_mem_cons.mpr ⟨hP ht, ih⟩

/-- The nodes that readers of clauses look for are not inside of alterations. -/
theorem not_isPart_ruleOf (hc : c ∈ Reader.mysql.clauses) :
    isPart (ruleOf c) = false ∧ ruleOf c ≠ .alterTable ∧
      (c ≠ .tableName → ruleOf c ≠ .tableName) := by
  revert c
  decide

/-- In the tree of a draft the nodes of a clause are children of the statement. -/
theorem IsStatement.all_eq (h : IsStatement d marks t) (hc : c ∈ Reader.mysql.clauses) :
    t.all (ruleOf c) = t.children.filter (·.rule == ruleOf c) := by
  obtain ⟨hrule, hchildren, htable, hnodes⟩ := h
  obtain ⟨hpart, hroot, -⟩ := not_isPart_ruleOf hc
  refine Node.all_of_children (by rw [hrule]; exact hroot.symm) fun u hu heq => ?_
  have hbelow : ∀ u ∈ t.children.flatMap Node.children, IsPart u := by
    rw [hchildren, List.flatMap_cons, htable.children, List.nil_append]
    intro u hu
    obtain ⟨v, hv, huv⟩ := List.mem_flatMap.mp hu
    exact forall_of_gathers (fun h => h.isPart) hnodes v hv u huv
  have := isPart_of_mem_breadthFirst hbelow u hu
  rw [heq, hpart] at this
  cases this

/-! ## Finding facts -/

/-- What the draft says by clauses of one kind. -/
def facts (d : Draft) (marks : List Nat) : Clause → List Fact
  | .tableName => [.table d.tableValue]
  | .dropPrimaryKey =>
    if d.alterations.toList.any Alteration.dropsKey then [.dropPrimaryKey] else []
  | c => factsOf c (Alteration.located d.alterations.toList marks)

/-- Readers go from node to node, apart from those that ask for one node only. -/
theorem findings_eq_flatMap (htable : c ≠ .tableName) (hkey : c ≠ .dropPrimaryKey) :
    c.findings t = (t.all (ruleOf c)).flatMap (findingsIn c) := by
  cases c with
  | tableName => exact absurd rfl htable
  | dropPrimaryKey => exact absurd rfl hkey
  | addColumn => rfl
  | primaryKey r => rfl
  | _ => exact List.map_eq_flatMap

/-- The nodes of the kind, taken from the whole tree, say the facts of the kind. -/
theorem IsStatement.flatMap_all (h : IsStatement d marks t) (hc : c ∈ Reader.mysql.clauses)
    (htable : c ≠ .tableName) : (t.all (ruleOf c)).flatMap (findingsIn c) =
      (factsOf c (Alteration.located d.alterations.toList marks)).map .ok := by
  have hall := h.all_eq hc
  obtain ⟨-, hchildren, htableNode, hnodes⟩ := h
  have hother := (not_isPart_ruleOf hc).2.2 htable
  rw [hall, hchildren, List.filter_cons_of_neg (by simpa [htableNode.rule] using hother.symm),
    flatMap_findingsIn hc hnodes]

private theorem map_fst_located (as : List Alteration) (marks : List Nat) :
    (Alteration.located as marks).map Prod.fst = as := by
  induction as generalizing marks with
  | nil => rfl
  | cons a as ih =>
    unfold Alteration.located
    split <;> rw [List.map_cons, ih]

/-- The primary key is dropped just if there is a fact that says so. -/
theorem factsOf_dropPrimaryKey (as : List Alteration) (marks : List Nat) :
    factsOf .dropPrimaryKey (Alteration.located as marks) ≠ [] ↔
      as.any Alteration.dropsKey = true := by
  have hfacts : ∀ xs : List (Alteration × Nat),
      factsOf .dropPrimaryKey xs ≠ [] ↔ (xs.map Prod.fst).any Alteration.dropsKey = true := by
    intro xs
    induction xs with
    | nil => simp [factsOf]
    | cons x xs ih =>
      obtain ⟨a, offset⟩ := x
      cases a with
      | dropPrimaryKey => exact iff_of_true (List.cons_ne_nil _ _) rfl
      | _ => exact ih
  rw [hfacts, map_fst_located]

/-- Every reader finds in the tree of a draft what the draft says, and no fault. -/
theorem IsStatement.findings_eq (h : IsStatement d marks t) (hc : c ∈ Reader.mysql.clauses) :
    c.findings t = (d.facts marks c).map .ok := by
  by_cases htable : c = .tableName
  · subst htable
    obtain ⟨hrule, hchildren, htable, -⟩ := h
    rename_i table nodes
    have hfound : t.require .tableName = .ok table := by
      refine require_eq (Node.first?_of_child (by rw [hrule]; decide) ?_)
      rw [hchildren, List.find?_cons_of_pos (by simp [htable.rule])]
    show [Except.bind (t.require .tableName) _] = _
    rw [hfound]
    exact congrArg (fun s => [Except.ok (Fact.table s)]) htable.name
  have hall := h.flatMap_all hc htable
  by_cases hkey : c = .dropPrimaryKey
  · subst hkey
    have hsome : t.hasPart .dropPrimaryKey = d.alterations.toList.any Alteration.dropsKey := by
      have hfacts : (t.all .dropPrimaryKey).map (fun _ => (.ok .dropPrimaryKey : Finding)) =
          (factsOf .dropPrimaryKey (Alteration.located d.alterations.toList marks)).map .ok :=
        List.map_eq_flatMap.trans hall
      rw [Bool.eq_iff_iff, ← factsOf_dropPrimaryKey _ marks, Node.hasPart_iff, Ne, Ne,
        ← List.map_eq_nil_iff, hfacts, List.map_eq_nil_iff]
    rw [Clause.findings, facts, hsome]
    split <;> rfl
  · rw [findings_eq_flatMap htable hkey, hall]
    cases c with
    | tableName => exact absurd rfl htable
    | dropPrimaryKey => exact absurd rfl hkey
    | _ => rfl

/-! ## Recording facts -/

/-- The kinds of clauses that say facts of this kind. -/
def sayings : Fact → List Clause
  | .table _ => [.tableName]
  | .addColumn .. => [.addColumn]
  | .changeColumn .. => [.changeColumn, .modifyColumn]
  | .dropColumn _ => [.dropColumn]
  | .addIndex _ => [.addIndex]
  | .dropIndex _ => [.dropIndex]
  | .renameIndex _ => [.renameIndex]
  | .addPrimaryKey _ => [.primaryKey .addConstraint]
  | .dropPrimaryKey => [.dropPrimaryKey]

/-- What facts say of one thing is said by clauses of these kinds only. -/
def SaidBy {α : Type} (say : Fact → List α) (kinds : List Clause) : Prop :=
  ∀ f, say f ≠ [] → ∀ c ∈ sayings f, c ∈ kinds

/-- Only clauses that add columns say of columns that they are added. -/
theorem saidBy_added : SaidBy Fact.added [.addColumn] := by
  intro f
  cases f <;> simp [Fact.added, sayings]

/-- Only clauses that change or modify columns say of columns that they are changed. -/
theorem saidBy_changed : SaidBy Fact.changed [.changeColumn, .modifyColumn] := by
  intro f
  cases f <;> simp [Fact.changed, sayings]

/-- Only clauses that drop columns say of columns that they are dropped. -/
theorem saidBy_dropped : SaidBy Fact.dropped [.dropColumn] := by
  intro f
  cases f <;> simp [Fact.dropped, sayings]

/-- Only clauses that add indexes say so of indexes. -/
theorem saidBy_addedIndex : SaidBy Fact.addedIndex [.addIndex] := by
  intro f
  cases f <;> simp [Fact.addedIndex, sayings]

/-- Only clauses that drop indexes say so of indexes. -/
theorem saidBy_droppedIndex : SaidBy Fact.droppedIndex [.dropIndex] := by
  intro f
  cases f <;> simp [Fact.droppedIndex, sayings]

/-- Only clauses that rename indexes say so of indexes. -/
theorem saidBy_renamedIndex : SaidBy Fact.renamedIndex [.renameIndex] := by
  intro f
  cases f <;> simp [Fact.renamedIndex, sayings]

/-- Only clauses that add a primary key say of what columns it is. -/
theorem saidBy_addedKey : SaidBy Fact.addedKey [.primaryKey .addConstraint] := by
  intro f
  cases f <;> simp [Fact.addedKey, sayings]

/-- Only clauses that add, change or modify columns say where columns are moved to. -/
theorem saidBy_moves : SaidBy Fact.moves [.addColumn, .changeColumn, .modifyColumn] := by
  intro f
  cases f <;> simp [Fact.moves, sayings]

private theorem mem_factsOf {f : Fact} {xs : List (Alteration × Nat)} (h : f ∈ factsOf c xs) :
    c ∈ sayings f := by
  obtain ⟨⟨a, offset⟩, hx, hf⟩ := List.mem_flatMap.mp h
  obtain rfl : a.clause = c := by simpa using (List.mem_filter.mp hx).2
  cases a with
  | addColumns ds =>
    obtain ⟨d, -, rfl⟩ := List.mem_map.mp hf
    exact List.mem_singleton_self _
  | changeColumn old d p =>
    obtain rfl := List.mem_singleton.mp hf
    exact List.mem_cons_self
  | modifyColumn d p =>
    obtain rfl := List.mem_singleton.mp hf
    exact List.mem_cons_of_mem _ (List.mem_singleton_self _)
  | _ =>
    obtain rfl := List.mem_singleton.mp hf
    exact List.mem_singleton_self _

/-- A kind of clause says facts of its own kinds only. -/
theorem mem_facts {f : Fact} (h : f ∈ d.facts marks c) : c ∈ sayings f := by
  cases c with
  | tableName =>
    obtain rfl := List.mem_singleton.mp h
    exact List.mem_singleton_self _
  | dropPrimaryKey =>
    rw [facts] at h
    split at h
    · obtain rfl := List.mem_singleton.mp h
      exact List.mem_singleton_self _
    · cases h
  | _ => exact mem_factsOf h

/-- Everything that the draft says, in the order in which it is read. -/
def allFacts (d : Draft) (marks : List Nat) : List Fact :=
  Reader.mysql.clauses.flatMap (d.facts marks)

/-- What facts say of one thing is said by clauses of the kinds that say such facts. -/
theorem flatMap_of_sayings {α : Type} {facts : Clause → List Fact} {clauses : List Clause}
    {say : Fact → List α} (kinds : List Clause)
    (hfacts : ∀ c ∈ clauses, ∀ f ∈ facts c, c ∈ sayings f)
    (h : SaidBy say kinds) :
    (clauses.flatMap facts).flatMap say =
      (clauses.filter (kinds.contains ·)).flatMap fun c => (facts c).flatMap say := by
  rw [List.flatMap_assoc]
  induction clauses with
  | nil => rfl
  | cons c clauses ih =>
    obtain ⟨hcfacts, hrest⟩ := List.forall_mem_cons.mp hfacts
    rw [List.flatMap_cons, List.filter_cons, ih hrest]
    by_cases hc : c ∈ kinds
    · rw [if_pos (by simpa using hc), List.flatMap_cons]
    · have hnone : (facts c).flatMap say = [] := by
        refine List.flatMap_eq_nil_iff.mpr fun f hf => ?_
        by_contra hsay
        exact hc (h f hsay c (hcfacts f hf))
      rw [if_neg (by simpa using hc), hnone, List.nil_append]

/-- What only some kinds of clauses say is what the clauses of these kinds say. -/
theorem flatMap_allFacts {α : Type} {say : Fact → List α} (kinds : List Clause)
    (h : SaidBy say kinds) :
    (d.allFacts marks).flatMap say =
      (Reader.mysql.clauses.filter (kinds.contains ·)).flatMap fun c =>
        (d.facts marks c).flatMap say :=
  flatMap_of_sayings kinds (fun _ _ _ => mem_facts) h

/-- What the facts of one kind say of one thing, alteration by alteration. -/
theorem flatMap_factsOf {α : Type} {say : Fact → List α} (say' : Alteration × Nat → List α)
    (h : ∀ x, say' x = if x.1.clause = c then (Alteration.facts x).flatMap say else [])
    (xs : List (Alteration × Nat)) : (factsOf c xs).flatMap say = xs.flatMap say' := by
  induction xs with
  | nil => rfl
  | cons x xs ih =>
    rw [factsOf] at ih ⊢
    rw [List.flatMap_cons, List.filter_cons, h, ← ih]
    by_cases hx : x.1.clause = c
    · rw [if_pos (by simpa using hx), if_pos hx, List.flatMap_cons, List.flatMap_append]
    · rw [if_neg (by simpa using hx), if_neg hx, List.nil_append]

/-- What alterations say without their offsets. -/
theorem flatMap_located {α : Type} (say : Alteration → List α) (as : List Alteration)
    (marks : List Nat) : ((Alteration.located as marks).flatMap fun x => say x.1) =
      as.flatMap say := by
  rw [← List.flatMap_map, map_fst_located]

/-- What is said by clauses of one kind only is said alteration by alteration. -/
theorem flatMap_allFacts_of_one {α : Type} {say : Fact → List α} {say' : Alteration → List α}
    (k : Clause) (hk : Reader.mysql.clauses.filter ([k].contains ·) = [k])
    (hfacts : d.facts marks k = factsOf k (Alteration.located d.alterations.toList marks))
    (h : SaidBy say [k])
    (h' : ∀ x : Alteration × Nat,
      say' x.1 = if x.1.clause = k then (Alteration.facts x).flatMap say else []) :
    (d.allFacts marks).flatMap say = d.alterations.toList.flatMap say' := by
  rw [flatMap_allFacts [k] h, hk, List.flatMap_singleton, hfacts,
    flatMap_factsOf (fun x => say' x.1) h', flatMap_located]

private theorem addedColumns_eq : (d.allFacts marks).flatMap Fact.added =
    d.alterations.toList.flatMap Alteration.added := by
  refine flatMap_allFacts_of_one .addColumn rfl rfl saidBy_added ?_
  rintro ⟨a, offset⟩
  cases a <;> simp [Alteration.added, Alteration.clause, Alteration.facts, Fact.added,
      List.map_eq_flatMap, List.flatMap_assoc]

private theorem droppedColumns_eq : (d.allFacts marks).flatMap Fact.dropped =
    d.alterations.toList.flatMap Alteration.dropped := by
  refine flatMap_allFacts_of_one .dropColumn rfl rfl saidBy_dropped ?_
  rintro ⟨a, offset⟩
  cases a <;> simp [Alteration.dropped, Alteration.clause, Alteration.facts, Fact.dropped]

private theorem addedIndexes_eq : (d.allFacts marks).flatMap Fact.addedIndex =
    d.alterations.toList.flatMap Alteration.addedIndex := by
  refine flatMap_allFacts_of_one .addIndex rfl rfl saidBy_addedIndex ?_
  rintro ⟨a, offset⟩
  cases a <;> simp [Alteration.addedIndex, Alteration.clause, Alteration.facts, Fact.addedIndex]

private theorem droppedIndexes_eq : (d.allFacts marks).flatMap Fact.droppedIndex =
    d.alterations.toList.flatMap Alteration.droppedIndex := by
  refine flatMap_allFacts_of_one .dropIndex rfl rfl saidBy_droppedIndex ?_
  rintro ⟨a, offset⟩
  cases a <;>
      simp [Alteration.droppedIndex, Alteration.clause, Alteration.facts, Fact.droppedIndex]

private theorem renamedIndexes_eq : (d.allFacts marks).flatMap Fact.renamedIndex =
    d.alterations.toList.flatMap Alteration.renamedIndex := by
  refine flatMap_allFacts_of_one .renameIndex rfl rfl saidBy_renamedIndex ?_
  rintro ⟨a, offset⟩
  cases a <;>
      simp [Alteration.renamedIndex, Alteration.clause, Alteration.facts, Fact.renamedIndex]

private theorem addedPrimaryKey_eq : (d.allFacts marks).flatMap Fact.addedKey =
    d.alterations.toList.flatMap Alteration.addedKey := by
  refine flatMap_allFacts_of_one (.primaryKey .addConstraint) rfl rfl saidBy_addedKey ?_
  rintro ⟨a, offset⟩
  cases a <;> simp [Alteration.addedKey, Alteration.clause, Alteration.facts, Fact.addedKey]

/-- Columns that get a new name come before those that keep theirs. -/
theorem changedColumns_eq : (d.allFacts marks).flatMap Fact.changed =
    d.alterations.toList.flatMap Alteration.changed ++
      d.alterations.toList.flatMap Alteration.modified := by
  rw [flatMap_allFacts _ saidBy_changed]
  show (factsOf .changeColumn _).flatMap Fact.changed ++
    ((factsOf .modifyColumn _).flatMap Fact.changed ++ []) = _
  rw [flatMap_factsOf fun x => x.1.changed, flatMap_factsOf fun x => x.1.modified,
    flatMap_located, flatMap_located, List.append_nil]
  · rintro ⟨a, offset⟩
    cases a <;> simp [Alteration.modified, Alteration.clause, Alteration.facts, Fact.changed]
  · rintro ⟨a, offset⟩
    cases a <;> simp [Alteration.changed, Alteration.clause, Alteration.facts, Fact.changed]

/-- Moves are those of added columns, then of changed ones, then of modified ones. -/
theorem moves_eq : (d.allFacts marks).flatMap Fact.moves =
    (Alteration.located d.alterations.toList marks).flatMap Alteration.addedMove ++
      ((Alteration.located d.alterations.toList marks).flatMap Alteration.changedMove ++
        (Alteration.located d.alterations.toList marks).flatMap Alteration.modifiedMove) := by
  rw [flatMap_allFacts _ saidBy_moves]
  show (factsOf .addColumn _).flatMap Fact.moves ++
    ((factsOf .changeColumn _).flatMap Fact.moves ++
      ((factsOf .modifyColumn _).flatMap Fact.moves ++ [])) = _
  rw [flatMap_factsOf Alteration.addedMove, flatMap_factsOf Alteration.changedMove,
    flatMap_factsOf Alteration.modifiedMove, List.append_nil]
  · rintro ⟨a, offset⟩
    rcases a with _ | _ | _ | _ | _ | _ | _ | _ | _ | ⟨d, _ | p⟩ <;>
      simp [Alteration.modifiedMove, Alteration.clause, Alteration.facts, Fact.moves,
        Alteration.move?]
  · rintro ⟨a, offset⟩
    rcases a with _ | _ | _ | _ | _ | _ | _ | _ | ⟨old, d, _ | p⟩ | _ <;>
      simp [Alteration.changedMove, Alteration.clause, Alteration.facts, Fact.moves,
        Alteration.move?]
  · rintro ⟨a, offset⟩
    rcases a with ⟨d, _ | p⟩ | _ | _ | _ | _ | _ | _ | _ | _ | _ <;>
      simp [Alteration.addedMove, Alteration.clause, Alteration.facts, Fact.moves,
        Alteration.move?]

/-- Only one kind of clauses says that the primary key is dropped. -/
theorem any_dropsKey_of_sayings {facts : Clause → List Fact} {clauses : List Clause}
    (hfacts : ∀ c ∈ clauses, ∀ f ∈ facts c, c ∈ sayings f) (hkey : .dropPrimaryKey ∈ clauses) :
    (clauses.flatMap facts).any Fact.dropsKey = (facts .dropPrimaryKey).any Fact.dropsKey := by
  rw [Bool.eq_iff_iff, List.any_eq_true, List.any_eq_true]
  constructor
  · rintro ⟨f, hf, hdrops⟩
    obtain ⟨c, hc, hfc⟩ := List.mem_flatMap.mp hf
    have hsaid := hfacts c hc f hfc
    cases f with
    | dropPrimaryKey =>
      obtain rfl := List.mem_singleton.mp hsaid
      exact ⟨_, hfc, rfl⟩
    | _ => cases hdrops
  · rintro ⟨f, hf, hdrops⟩
    exact ⟨f, List.mem_flatMap.mpr ⟨_, hkey, hf⟩, hdrops⟩

private theorem dropsPrimaryKey_eq : (d.allFacts marks).any Fact.dropsKey =
    d.alterations.toList.any Alteration.dropsKey := by
  rw [allFacts, any_dropsKey_of_sayings (fun _ _ _ => mem_facts) (by decide), facts]
  cases d.alterations.toList.any Alteration.dropsKey <;> rfl

/-- Facts that say nothing of the table leave its name. -/
theorem foldl_tableOr {fs : List Fact} (h : ∀ f ∈ fs, Clause.tableName ∉ sayings f)
    (name : String) : fs.foldl Fact.tableOr name = name := by
  induction fs with
  | nil => rfl
  | cons f fs ih =>
    obtain ⟨hf, hfs⟩ := List.forall_mem_cons.mp h
    have hname : Fact.tableOr name f = name := by
      cases f with
      | table name' => exact absurd (List.mem_singleton_self _) hf
      | _ => rfl
    rw [List.foldl_cons, hname, ih hfs]

/-- The table is named once, before anything else. -/
theorem table_eq : (d.allFacts marks).foldl Fact.tableOr "" = d.tableValue := by
  show (Reader.mysql.clauses.tail.flatMap (d.facts marks)).foldl Fact.tableOr d.tableValue = _
  have hlater : ∀ c ∈ Reader.mysql.clauses.tail, c ≠ .tableName := by decide
  refine foldl_tableOr (fun f hf => ?_) _
  obtain ⟨c, hc, hfc⟩ := List.mem_flatMap.mp hf
  have hne := hlater c hc
  have hsaid := mem_facts hfc
  cases f <;> simp_all [sayings]

/-- Recording everything that a draft says gives its statement. -/
theorem foldl_record_allFacts :
    (d.allFacts marks).foldl Statement.record {} = d.statement marks := by
  rw [Statement.foldl_record]
  simp only [List.nil_append, Bool.false_or]
  rw [table_eq, addedColumns_eq, changedColumns_eq, droppedColumns_eq, addedIndexes_eq,
    droppedIndexes_eq, renamedIndexes_eq, addedPrimaryKey_eq, dropsPrimaryKey_eq, moves_eq]
  rfl

/-- The tree of a draft is read as what the draft says. -/
theorem IsStatement.read_eq (h : IsStatement d marks t) :
    Reader.mysql.read t none = .ok (d.statement marks) := by
  have hfindings : ∀ c ∈ Reader.mysql.clauses, c.findings t = (d.facts marks c).map .ok :=
    fun _ hc => h.findings_eq hc
  obtain ⟨hrule, -⟩ := h
  rw [Reader.read_eq_ok hrule hfindings]
  exact congrArg Except.ok foldl_record_allFacts

/-! ## Reading texts -/

/-- A text that renders a draft ends with its last lexeme and white space. -/
theorem Renders.getLast?_ne {text : List Char} (h : d.Renders text marks) :
    text.getLast? ≠ some kelvinSign := by
  obtain ⟨ls, n, ⟨_, _, _, rfl, -⟩, hl, hn⟩ := h
  obtain ⟨w, hw⟩ := hl.over
  have hfirm := hl.isFirm (List.cons_ne_nil _ _) hw
  have htext : text = w ++ n.rest := hw.rest
  rw [htext, List.getLast?_append]
  intro hlast
  cases hend : n.rest.getLast? with
  | some e =>
    rw [hend, Option.some_or] at hlast
    cases hlast
    exact hn.notMem (by decide) (List.mem_of_getLast? hend)
  | none =>
    rw [hend, Option.none_or] at hlast
    rw [IsFirm, hlast] at hfirm
    revert hfirm
    decide

/-- A text that renders a draft is read into a tree, and the tree says the draft. -/
theorem read_of_renders (d : Draft) (text : String) (marks : List Nat)
    (h : d.Renders text.toList marks) : ∃ tree, Node.ofText? text = .ok tree ∧
      Reader.mysql.read tree none = .ok (d.statement marks) := by
  obtain ⟨t, n, hd, ht⟩ := derives_of_renders h
  have hdrop : ¬ KelvinAfter .drop text.toList :=
    fun hafter => h.getLast?_ne hafter.getLast?_eq
  have hread := hd.mono fun _ _ _ _ _ hover hw => Token.Accepted.read (.inl hw) hover hdrop
  obtain ⟨tree, htree, hok⟩ := ofText?_of_derives hread
  cases htree
  exact ⟨t, hok, ht.read_eq⟩

/-- A draft that puts a column first. -/
def putFirst : Draft where
  schema := none
  table := ⟨['t'], by decide, by simp, by decide⟩
  alterations :=
    { first := .addColumn
        { name := ⟨['a'], by decide, by decide⟩
          type :=
            { name := ⟨"INT".toList, by decide, by simp, by decide⟩
              numbers := none
              unsigned := false
              text := "INT".toList
              written := ⟨_, _, ⟨3, []⟩, .signed .absent,
                .cons (g := []) (w := "INT".toList) (m := ⟨3, []⟩) gap_nil rfl ⟨rfl, rfl⟩
                  (fun _ => rfl) .nil, rfl⟩
              tight := rfl }
          attributes := [] }
        (some .first)
      others := [] }

private theorem renders_putFirst :
    putFirst.Renders "alter TABLE t ADD `a` INT First".toList [26] := by
  refine ⟨_, ⟨31, []⟩, ⟨_, _, [], rfl, .plain .bare,
    ⟨_, [], rfl, .addColumn .absent ⟨_, rfl, .nil⟩, .nil⟩, .inl rfl⟩, ?_, gap_nil⟩
  exact
    .cons (w := "alter".toList) (m := ⟨5, " TABLE t ADD `a` INT First".toList⟩)
      gap_nil rfl ⟨rfl, rfl⟩ (fun _ => rfl) <|
    .cons (w := "TABLE".toList) (m := ⟨11, " t ADD `a` INT First".toList⟩)
      gap_blank rfl ⟨rfl, rfl⟩ (fun _ => rfl) <|
    .cons (w := "t".toList) (m := ⟨13, " ADD `a` INT First".toList⟩)
      gap_blank rfl ⟨rfl, rfl⟩ (fun _ => rfl) <|
    .cons (w := "ADD".toList) (m := ⟨17, " `a` INT First".toList⟩)
      gap_blank rfl ⟨rfl, rfl⟩ (fun _ => rfl) <|
    .cons (w := "`a`".toList) (m := ⟨21, " INT First".toList⟩)
      gap_blank rfl ⟨rfl, rfl⟩ (fun _ => rfl) <|
    .cons (w := "INT".toList) (m := ⟨25, " First".toList⟩)
      gap_blank rfl ⟨rfl, rfl⟩ (fun _ => rfl) <|
    .cons (g := [' ']) (w := "First".toList) (m := ⟨31, []⟩)
      gap_blank rfl ⟨rfl, rfl⟩ (fun _ => rfl) .nil

/-- A column put in front, in mixed letter case and with quotes around its name, is read as such. -/
theorem read_of_renders_putFirst :
    putFirst.Renders "alter TABLE t ADD `a` INT First".toList [26] ∧
      ∃ tree, Node.ofText? "alter TABLE t ADD `a` INT First" = .ok tree ∧
        Reader.mysql.read tree none = .ok
          { table := "t"
            addedColumns := [{ name := "a", dataType := "INT" }]
            moves := [⟨26, "a", .first⟩] } :=
  ⟨renders_putFirst, read_of_renders putFirst _ [26] renders_putFirst⟩

end Draft

end AlterTable
