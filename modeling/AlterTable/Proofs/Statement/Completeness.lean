import AlterTable.Dialect
import AlterTable.Proofs.Grammar.Exactness
import AlterTable.Proofs.Grammar.Parts
import AlterTable.Proofs.Statement.Gathering

/-!
# Trees that lack nothing

A tree is complete if every node of it has the parts that readers require of a node of its rule.
The trees that are read from texts are complete, which shows in the grammar: each of its parts must
have the parts that its rule needs. Reading a complete tree never faults, so the only way for a text
to say no statement is that it cannot be read.

Trees from elsewhere need not be complete, and readers report what they lack.
-/

namespace AlterTable

/-- The parts that readers require of a node of the rule. -/
def Rule.needs : Rule → List Rule
  | alterTable => [tableName]
  | addColumn => [columnDefinition]
  | columnDefinition => [columnName, dataType]
  | addIndex => [keyParts]
  | keyParts => [columnName]
  | addConstraint => [keyParts]
  | dropIndex => [indexName]
  | dropColumn => [columnName]
  | changeColumn => [columnName, columnDefinition]
  | modifyColumn => [columnDefinition]
  | _ => []

/-- Every node has the parts that it needs, and an index that is renamed has two names. -/
structure Node.Complete (n : Node) : Prop where
  parts : ∀ u : Node, u.Within n → ∀ r ∈ u.rule.needs, ∃ v : Node, v.Within u ∧ v.rule = r
  names : ∀ u : Node, u.Within n → u.rule = .renameIndex →
    ∃ old new, u.all .indexName = [old, new]

/-! ## Trees of the grammar -/

namespace Grammar.Production

open AlterTable.Parse

variable {spelling : Token → List Char → List Char → Prop}
variable {a b : Production} {c n : Cursor} {xs : List Node} {tree u : Node} {r : Rule}

/-- What is needed must be there. -/
theorem needs_subset_musts : ∀ p ∈ statement.parts, p.1.needs ⊆ p.2.musts := by
  decide +kernel

private theorem eq_renameIndex : ∀ p ∈ statement.parts, p.1 = .renameIndex →
    node p.1 p.2 = renameIndex := by
  decide +kernel

/-- A name is a node without children. -/
theorem Derives.eq_of_name (h : (name r).Derives spelling c xs n) :
    ∃ t : Node, xs = [t] ∧ t.rule = r ∧ t.children = [] := by
  obtain ⟨ys, hxs, hbody⟩ := derives_node.mp h
  obtain ⟨_, _, _, rfl, hname, hend⟩ := derives_seq.mp hbody
  obtain ⟨rfl, -⟩ := derives_token.mp hname
  obtain ⟨rfl, -⟩ := derives_empty.mp hend
  exact ⟨_, hxs, rfl, rfl⟩

/-- Between its words, the renaming of an index has two names. -/
theorem Derives.eq_of_renameIndex (h : renameIndex.Derives spelling c [u] n) :
    ∃ old new : Node, u.children = [old, new] ∧ old.rule = .indexName ∧ new.rule = .indexName ∧
      Node.Leaves u.children := by
  obtain ⟨ys, hu, h₁⟩ := derives_node.mp h
  obtain ⟨_, _, _, rfl, hrename, h₂⟩ := derives_seq.mp h₁
  obtain ⟨_, _, _, rfl, hkind, h₃⟩ := derives_seq.mp h₂
  obtain ⟨_, _, _, rfl, hold, h₄⟩ := derives_seq.mp h₃
  obtain ⟨_, _, _, rfl, hto, h₅⟩ := derives_seq.mp h₄
  obtain ⟨_, _, _, rfl, hnew, hend⟩ := derives_seq.mp h₅
  obtain ⟨rfl, -⟩ := derives_token.mp hrename
  obtain ⟨rfl, -⟩ := derives_token.mp hto
  obtain ⟨rfl, -⟩ := derives_empty.mp hend
  obtain rfl := hkind.eq_nil_of_parts rfl
  obtain ⟨old, rfl, holdRule, holdChildren⟩ := hold.eq_of_name
  obtain ⟨new, rfl, hnewRule, hnewChildren⟩ := hnew.eq_of_name
  cases hu
  exact ⟨old, new, rfl, holdRule, hnewRule,
    List.forall_mem_cons.mpr ⟨holdChildren, List.forall_mem_singleton.mpr hnewChildren⟩⟩

/-- Whatever is derived for a text is complete. -/
theorem Derives.complete (h : statement.Derives spelling c [tree] n) : tree.Complete where
  parts := by
    intro u hu r hr
    obtain ⟨p, hp, c', m, xs, -, -, rfl, hd, -⟩ := h.exists_part (List.mem_singleton_self _) hu
    obtain ⟨t, ht, htr⟩ := hd.exists_of_mem_musts (needs_subset_musts p hp hr)
    exact ⟨t, Node.within_of_mem_children ht, htr⟩
  names := by
    intro u hu hr
    obtain ⟨p, hp, c', m, xs, -, -, rfl, hd, -⟩ := h.exists_part (List.mem_singleton_self _) hu
    have hnode : renameIndex.Derives spelling c' [span p.1 c' m xs] m :=
      eq_renameIndex p hp hr ▸ .node hd
    obtain ⟨old, new, hchildren, holdRule, hnewRule, hleaves⟩ := hnode.eq_of_renameIndex
    refine ⟨old, new, ?_⟩
    rw [Node.all_of_leaves hleaves (by rw [hr]; decide), hchildren]
    simp [holdRule, hnewRule]

end Grammar.Production

/-- Every node of a parsed text has the parts that its rule needs. -/
theorem Node.complete_of_ofText? {text : String} {tree : Node} (h : Node.ofText? text = .ok tree) :
    tree.Complete ∧ tree.rule = .alterTable := by
  obtain ⟨n, hd⟩ := Grammar.ofText?_eq_ok_iff_derives.mp h
  obtain ⟨m, hroot, -⟩ := hd.exists_below
  exact ⟨hd.complete, hroot⟩

/-! ## Looking into complete trees -/

/-- A step that succeeds hands its value on. -/
theorem bind_eq_of_ok {ε α β : Type} {x : Except ε α} {a : α} (h : x = .ok a)
    (f : α → Except ε β) : x >>= f = f a := by
  rw [h]
  rfl

namespace Node.Complete

open Clause

variable {n u : Node} {r : Rule}

/-- What is complete has complete nodes below it. -/
theorem within (h : n.Complete) (hu : u.Within n) : u.Complete where
  parts v hv := h.parts v (hv.trans hu)
  names v hv := h.names v (hv.trans hu)

/-- What a node needs is found in it. -/
theorem require (h : n.Complete) (hr : r ∈ n.rule.needs) :
    ∃ u, n.require r = .ok u ∧ n.first? r = some u ∧ u.rule = r ∧ u.Complete := by
  obtain ⟨v, hv, hvr⟩ := h.parts n .self r hr
  obtain ⟨u, hu, hun, hur⟩ := hv.exists_first? hvr
  refine ⟨u, ?_, hu, hur, h.within hun⟩
  rw [Node.require, hu]

/-- What a complete node needs is found. -/
theorem all_ne_nil (h : n.Complete) (hr : r ∈ n.rule.needs) : n.all r ≠ [] := by
  obtain ⟨v, hv, hvr⟩ := h.parts n .self r hr
  exact List.ne_nil_of_mem (mem_all_iff.mpr ⟨hv, hvr⟩)

/-- A definition that is found says a column. -/
theorem columnDefinition (hu : u.Complete) (hrule : u.rule = .columnDefinition)
    (hfirst : n.require .columnDefinition = .ok u) :
    ∃ column, n.columnDefinition = .ok column := by
  obtain ⟨name, hname, -⟩ := hu.require (r := .columnName) (by rw [hrule]; decide)
  obtain ⟨type, htype, -⟩ := hu.require (r := .dataType) (by rw [hrule]; decide)
  rw [Node.columnDefinition, bind_eq_of_ok hfirst, bind_eq_of_ok hname, bind_eq_of_ok htype]
  exact ⟨_, rfl⟩

/-- A definition at any depth says a column. -/
theorem columnDefinition_of_mem_all (h : n.Complete) (hu : u ∈ n.all .columnDefinition) :
    ∃ column, u.columnDefinition = .ok column := by
  obtain ⟨hwithin, hrule⟩ := mem_all_iff.mp hu
  refine (h.within hwithin).columnDefinition hrule ?_
  rw [Node.require, first?_self hrule]

/-- Key parts name a column. -/
theorem keyColumns_ne_nil (h : n.Complete) (hr : .keyParts ∈ n.rule.needs) :
    n.keyColumns ≠ [] := by
  obtain ⟨parts, -, hfirst, hrule, hparts⟩ := h.require hr
  have hcolumns := hparts.all_ne_nil (r := .columnName) (by rw [hrule]; decide)
  rw [keyColumns, hfirst]
  simpa using hcolumns

end Node.Complete

/-! ## Reading complete trees -/

namespace Clause

/-- None of what is found is a fault. -/
def Faultless (findings : List Finding) : Prop :=
  ∀ finding ∈ findings, ∃ fact, finding = .ok fact

/-- Without faults there is a fact for each finding. -/
theorem Faultless.eq_map {findings : List Finding} (h : Faultless findings) :
    findings = (findings.filterMap Except.toOption).map .ok := by
  induction findings with
  | nil => rfl
  | cons finding findings ih =>
    obtain ⟨⟨fact, rfl⟩, hrest⟩ := List.forall_mem_cons.mp h
    have hcons : (Except.ok fact :: findings).filterMap Except.toOption
        = fact :: findings.filterMap Except.toOption := List.filterMap_cons_some rfl
    rw [hcons, List.map_cons, ← ih hrest]

private theorem faultless_singleton {finding : Finding} (h : ∃ fact, finding = .ok fact) :
    Faultless [finding] :=
  List.forall_mem_singleton.mpr h

variable {n root : Node} {r : Rule}

private theorem findAdded_faultless (h : n.Complete) (hrule : n.rule = .addColumn) :
    Faultless (findAdded n) := by
  have hne := h.all_ne_nil (r := .columnDefinition) (by rw [hrule]; decide)
  unfold findAdded
  split
  next hnil => exact absurd hnil hne
  next single hsingle =>
    obtain ⟨column, hcolumn⟩ := h.columnDefinition_of_mem_all
      (by rw [hsingle]; exact List.mem_singleton_self single)
    refine faultless_singleton ?_
    rw [bind_eq_of_ok hcolumn]
    exact ⟨_, rfl⟩
  next =>
    intro finding hfinding
    obtain ⟨u, hu, rfl⟩ := List.mem_map.mp hfinding
    obtain ⟨column, hcolumn⟩ := h.columnDefinition_of_mem_all hu
    rw [bind_eq_of_ok hcolumn]
    exact ⟨_, rfl⟩

private theorem findIndex_ok (h : n.Complete) (hrule : n.rule = .addIndex) :
    ∃ fact, findIndex n = .ok fact := by
  have hcolumns := h.keyColumns_ne_nil (by rw [hrule]; decide)
  obtain ⟨column, columns, hcolumns⟩ := List.exists_cons_of_ne_nil hcolumns
  unfold findIndex
  rw [hcolumns]
  cases n.first? .indexName <;> exact ⟨_, rfl⟩

private theorem findRename_ok (h : n.Complete) (hrule : n.rule = .renameIndex) :
    ∃ fact, findRename n = .ok fact := by
  obtain ⟨old, new, hall⟩ := h.names n .self hrule
  unfold findRename
  rw [hall]
  exact ⟨_, rfl⟩

private theorem findPrimaryKey_faultless (h : n.Complete) (hrule : n.rule = .addConstraint) :
    Faultless (findPrimaryKey .addConstraint n) := by
  have hcolumns := h.keyColumns_ne_nil (by rw [hrule]; decide)
  unfold findPrimaryKey
  split
  · split
    next hnil => exact absurd hnil hcolumns
    next => exact faultless_singleton ⟨_, rfl⟩
  · exact List.forall_mem_nil _

/-- In a complete node a modified column is found. -/
theorem findModified_ok (h : n.Complete) (hr : .columnDefinition ∈ n.rule.needs) :
    ∃ column, findModified n =
      .ok (.changeColumn ⟨column.name, column⟩ (n.move? column.name)) := by
  obtain ⟨u, hu, -, hrule, hcomplete⟩ := h.require hr
  obtain ⟨column, hcolumn⟩ := hcomplete.columnDefinition hrule hu
  rw [findModified, bind_eq_of_ok hcolumn]
  exact ⟨column, rfl⟩

/-- In a complete node a changed column is found. -/
theorem findChanged_ok (h : n.Complete) (hrule : n.rule = .changeColumn) :
    ∃ old column, findChanged n =
      .ok (.changeColumn ⟨old, column⟩ (n.move? column.name)) := by
  obtain ⟨old, hold, -⟩ := h.require (r := .columnName) (by rw [hrule]; decide)
  obtain ⟨u, hu, -, hur, hcomplete⟩ := h.require (r := .columnDefinition) (by rw [hrule]; decide)
  obtain ⟨column, hcolumn⟩ := hcomplete.columnDefinition hur hu
  rw [findChanged, bind_eq_of_ok hold, bind_eq_of_ok hcolumn]
  exact ⟨old.exactText, column, rfl⟩

/-- What is found node by node is faultless if it is so in every node. -/
theorem faultless_map_all {f : Node → Finding} (h : root.Complete)
    (hf : ∀ n : Node, n.Complete → n.rule = r → ∃ fact, f n = .ok fact) :
    Faultless ((root.all r).map f) := by
  intro finding hfinding
  obtain ⟨n, hn, rfl⟩ := List.mem_map.mp hfinding
  obtain ⟨hwithin, hrule⟩ := Node.mem_all_iff.mp hn
  exact hf n (h.within hwithin) hrule

private theorem faultless_flatMap_all {f : Node → List Finding} (h : root.Complete)
    (hf : ∀ n : Node, n.Complete → n.rule = r → Faultless (f n)) :
    Faultless ((root.all r).flatMap f) := by
  intro finding hfinding
  obtain ⟨n, hn, hfinding⟩ := List.mem_flatMap.mp hfinding
  obtain ⟨hwithin, hrule⟩ := Node.mem_all_iff.mp hn
  exact hf n (h.within hwithin) hrule finding hfinding

/-- Nothing that is read of a complete tree is faulty. -/
theorem findings_faultless (h : root.Complete) (hroot : root.rule = .alterTable) {clause : Clause}
    (hclause : clause ∈ Reader.mysql.clauses) : Faultless (clause.findings root) := by
  cases clause with
  | tableName =>
    obtain ⟨node, hnode, -⟩ := h.require (r := .tableName) (by rw [hroot]; decide)
    refine faultless_singleton ?_
    rw [bind_eq_of_ok hnode]
    exact ⟨_, rfl⟩
  | dropColumn =>
    refine faultless_map_all h fun n hn hrule => ?_
    obtain ⟨column, hcolumn, -⟩ := hn.require (r := .columnName) (by rw [hrule]; decide)
    rw [bind_eq_of_ok hcolumn]
    exact ⟨_, rfl⟩
  | addColumn => exact faultless_flatMap_all h fun n => findAdded_faultless
  | addIndex => exact faultless_map_all h fun n => findIndex_ok
  | dropIndex =>
    refine faultless_map_all h fun n hn hrule => ?_
    obtain ⟨index, hindex, -⟩ := hn.require (r := .indexName) (by rw [hrule]; decide)
    rw [bind_eq_of_ok hindex]
    exact ⟨_, rfl⟩
  | renameIndex => exact faultless_map_all h fun n => findRename_ok
  | primaryKey r =>
    have hr : r = .addConstraint := by
      simpa [Reader.mysql, Reader.extended, Reader.base] using hclause
    subst hr
    exact faultless_flatMap_all h fun n => findPrimaryKey_faultless
  | dropPrimaryKey =>
    rw [findings]
    split
    · exact faultless_singleton ⟨_, rfl⟩
    · exact List.forall_mem_nil _
  | changeColumn =>
    refine faultless_map_all h fun n hn hrule => ?_
    obtain ⟨old, column, hfound⟩ := findChanged_ok hn hrule
    exact ⟨_, hfound⟩
  | modifyColumn =>
    refine faultless_map_all h fun n hn hrule => ?_
    obtain ⟨column, hfound⟩ := findModified_ok hn (by rw [hrule]; decide)
    exact ⟨_, hfound⟩

/-- The facts that a tree says by its clauses of one kind. -/
def facts (root : Node) (clause : Clause) : List Fact :=
  (clause.findings root).filterMap Except.toOption

end Clause

namespace Reader

variable {root : Node}

/-- What a complete tree says when the layout of the table is not known. -/
theorem read_of_complete (h : root.Complete) (hroot : root.rule = .alterTable) :
    mysql.read root none =
      .ok ((mysql.clauses.flatMap (Clause.facts root)).foldl Statement.record {}) :=
  read_eq_ok hroot fun _ hc => (Clause.findings_faultless h hroot hc).eq_map

/-- A complete tree says a statement, whether the layout of the table is known or not. -/
theorem exists_read_of_complete (h : root.Complete) (hroot : root.rule = .alterTable)
    (table : Option Layout) : ∃ s, mysql.read root table = .ok s := by
  have hnone := read_of_complete h hroot
  cases table with
  | none => exact ⟨_, hnone⟩
  | some l => exact ⟨_, read_some_eq_ok hnone l⟩

end Reader

/-! ## Texts -/

namespace Dialect

/-- Whatever is read into a tree says a statement, and so a text that says none is one that cannot
be read: no tree of a text has the wrong root or lacks a part. -/
theorem reads_whatever_parses (dialect : Dialect) (text : String) (table : Option Layout) :
    (∀ tree, Node.ofText? text = .ok tree → ∃ s, dialect.reader.read tree table = .ok s) ∧
      ∀ e, dialect.read text table = .error e ↔
        ∃ fault, Node.ofText? text = .error fault ∧ e = .syntaxError fault := by
  cases dialect with
  | mysql =>
    have htree : ∀ tree, Node.ofText? text = .ok tree →
        ∃ s, Reader.mysql.read tree table = .ok s := by
      intro tree h
      obtain ⟨hcomplete, hroot⟩ := Node.complete_of_ofText? h
      exact Reader.exists_read_of_complete hcomplete hroot table
    refine ⟨htree, fun e => ?_⟩
    unfold read
    cases h : Node.ofText? text with
    | error fault =>
      constructor
      · intro he
        cases he
        exact ⟨fault, rfl, rfl⟩
      · rintro ⟨fault', hfault, rfl⟩
        cases hfault
        rfl
    | ok tree =>
      obtain ⟨s, hs⟩ := htree tree h
      have hread : (mysql.reader).read tree table = .ok s := hs
      simp only [hread]
      constructor
      · intro he
        cases he
      · rintro ⟨fault, hfault, -⟩
        cases hfault

/-- A statement with clauses of most kinds. -/
def manyClauses : String :=
  "alter table t add c int first,add(d int),add key(c),add primary key(`x y`),drop key k," ++
  "rename key i to j,change e f int,modify x date"

/-- A statement of many clauses is read. -/
theorem reads_whatever_parses_manyClauses : ∃ tree, Node.ofText? manyClauses = .ok tree ∧
    ∃ s, mysql.reader.read tree (some [{ name := "x", dataType := "int" }]) = .ok s := by
  have hsome : (Node.ofText? manyClauses).toOption.isSome = true := by
    decide +kernel
  cases h : Node.ofText? manyClauses with
  | error fault =>
    rw [h] at hsome
    cases hsome
  | ok tree => exact ⟨tree, rfl, (reads_whatever_parses mysql manyClauses _).1 tree h⟩

end Dialect

end AlterTable
