import AlterTable.Proofs.Draft.Reading
import AlterTable.Reader

/-!
# Facts of drafts

The facts that a draft's alterations stand for, kind by kind, and that these are what the readers
of clauses find in its tree: nothing is faulty, nothing is missed and nothing is found twice.
-/

namespace AlterTable.Draft

open AlterTable.Node

variable {n t : Node} {r : Rule} {d : Definition} {p : Option Position} {marks : List Nat}
variable {ts : List Node} {x : Alteration}

namespace Alteration

/-- The rule of the node of an alteration. -/
def rule : Alteration → Rule
  | addColumn .. => .addColumn
  | addColumns .. => .addColumn
  | addIndex .. => .addIndex
  | addPrimaryKey .. => .addConstraint
  | dropPrimaryKey => .dropPrimaryKey
  | dropIndex .. => .dropIndex
  | dropColumn .. => .dropColumn
  | renameIndex .. => .renameIndex
  | changeColumn .. => .changeColumn
  | modifyColumn .. => .modifyColumn

/-- The move of a column to a position that begins at the offset. -/
def move? (d : Definition) (p : Option Position) (offset : Nat) : Option Move :=
  p.map fun p => ⟨offset, d.name.value, p.place⟩

/-- What an alteration says, whose position begins at the offset. -/
def facts : Alteration × Nat → List Fact
  | (addColumn d p, offset) => [.addColumn d.column (move? d p offset)]
  | (addColumns ds, _) => ds.toList.map fun d => .addColumn d.column none
  | (addIndex unique name parts, _) =>
    [.addIndex
      { name := (name.getD parts.first.column).value, columns := columnValues parts, unique }]
  | (addPrimaryKey _ parts, _) => [.addPrimaryKey (columnValues parts)]
  | (dropPrimaryKey, _) => [.dropPrimaryKey]
  | (dropIndex n, _) => [.dropIndex n.value]
  | (dropColumn n, _) => [.dropColumn n.value]
  | (renameIndex old new, _) => [.renameIndex ⟨old.value, new.value⟩]
  | (changeColumn old d p, offset) =>
    [.changeColumn ⟨old.value, d.column⟩ (move? d p offset)]
  | (modifyColumn d p, offset) => [.changeColumn ⟨d.name.value, d.column⟩ (move? d p offset)]

end Alteration

/-! ## Looking into alterations -/

/-- The node of an alteration is of the rule of its kind. -/
theorem IsAlteration.rule_eq (h : IsAlteration x marks t) : t.rule = x.rule := by
  cases h <;> assumption

/-- A required part is the first one that is found. -/
theorem require_eq {u : Node} (h : n.first? r = some u) : n.require r = .ok u := by
  rw [Node.require, h]

/-- A name that stands first in a node is the one found there. -/
theorem IsName.require_eq {name : Name} {u : Node} {us : List Node} (h : IsName r name u)
    (hrule : t.rule ≠ r) (hchildren : t.children = u :: us) : t.require r = .ok u := by
  refine Draft.require_eq (first?_of_child hrule ?_)
  rw [hchildren, List.find?_cons_of_pos (by simp [h.rule])]

/-- A position that is not there is not found behind definitions and names. -/
theorem move?_eq_none (hshallow : t.Shallow) (hrule : t.rule ≠ .firstOrAfterColumn)
    (h : ∀ u ∈ t.children, u.rule ≠ .firstOrAfterColumn ∧
      ∀ v ∈ u.children, v.rule ≠ .firstOrAfterColumn) (column : String) :
    t.move? column = none := by
  refine move?_eq_none_iff.mpr (first?_eq_none ?_)
  rw [all_of_shallow hshallow hrule, filter_rule_eq_nil fun u hu => (h u hu).1,
    filter_rule_eq_nil fun v hv => ?_]
  · rfl
  · obtain ⟨u, hu, hvu⟩ := List.mem_flatMap.mp hv
    exact (h u hu).2 v hvu

private theorem IsName.rule_ne {name : Name} {r' : Rule} (h : IsName r name t) (hr : r ≠ r') :
    t.rule ≠ r' ∧ ∀ u ∈ t.children, u.rule ≠ r' := by
  refine ⟨h.rule ▸ hr, fun u hu => ?_⟩
  rw [h.children] at hu
  cases hu

private theorem IsDefinition.rule_eq (h : IsDefinition d t) : t.rule = .columnDefinition := by
  obtain ⟨hrule, -⟩ := h
  exact hrule

private theorem IsDefinition.rule_ne (h : IsDefinition d t) :
    t.rule ≠ .firstOrAfterColumn ∧ ∀ u ∈ t.children, u.rule ≠ .firstOrAfterColumn :=
  ⟨by rw [h.rule_eq]; decide, fun _ hu => (h.rule_of_mem hu).2.2⟩

/-- The move that a node says, where its position is the last thing in it. -/
theorem move?_eq_of_placed (front : List Node) {place : List Node} (ht : IsAlteration x marks t)
    (hrule : t.rule ≠ .firstOrAfterColumn) (hchildren : t.children = front ++ place)
    (hfront : ∀ u ∈ front, u.rule ≠ .firstOrAfterColumn ∧
      ∀ v ∈ u.children, v.rule ≠ .firstOrAfterColumn)
    (hp : IsPlaced p marks place) :
    t.move? d.name.value = Alteration.move? d p (marks.headD 0) := by
  cases hp with
  | none =>
    rw [List.append_nil] at hchildren
    exact move?_eq_none ht.shallow hrule (by rw [hchildren]; exact hfront) _
  | @some p offset u hu =>
    have hu' : u.rule = .firstOrAfterColumn := by
      cases hu <;> assumption
    have hfirst : t.first? .firstOrAfterColumn = some u := by
      refine first?_of_child hrule ?_
      rw [hchildren, List.find?_append, List.find?_eq_none.mpr fun v hv => by
        simpa using (hfront v hv).1]
      rw [Option.none_or, List.find?_cons_of_pos (by simpa using hu')]
    rw [hu.move?_eq hfirst]
    rfl

/-! ## Reading alterations -/

/-- What the readers of one kind of clause find in one node. -/
def findingsIn : Clause → Node → List Finding
  | .tableName, _ => []
  | .dropColumn, n => [do return .dropColumn (← n.require .columnName).exactText]
  | .addColumn, n => Clause.findAdded n
  | .addIndex, n => [Clause.findIndex n]
  | .dropIndex, n => [do return .dropIndex (← n.require .indexName).exactText]
  | .renameIndex, n => [Clause.findRename n]
  | .primaryKey r, n => Clause.findPrimaryKey r n
  | .dropPrimaryKey, _ => [.ok .dropPrimaryKey]
  | .changeColumn, n => [Clause.findChanged n]
  | .modifyColumn, n => [Clause.findModified n]

/-- The definitions in an alteration are those right below it. -/
theorem all_columnDefinition (ht : IsAlteration x marks t) (hrule : t.rule ≠ .columnDefinition)
    (h : ∀ u ∈ t.children, ∀ v ∈ u.children, v.rule ≠ .columnDefinition) :
    t.all .columnDefinition = t.children.filter (·.rule == .columnDefinition) := by
  have hnone : (t.children.flatMap children).filter (·.rule == .columnDefinition) = [] := by
    refine filter_rule_eq_nil fun v hv => ?_
    obtain ⟨u, hu, hvu⟩ := List.mem_flatMap.mp hv
    exact h u hu v hvu
  rw [all_of_shallow ht.shallow hrule, hnone, List.append_nil]

/-- Neither a definition nor a position has a definition in it. -/
theorem IsPlaced.rule_ne (h : IsPlaced p marks ts) : ∀ u ∈ ts,
    u.rule ≠ .columnDefinition ∧ ∀ v ∈ u.children, v.rule ≠ .columnDefinition := by
  cases h with
  | none => exact fun u hu => absurd hu List.not_mem_nil
  | some hp =>
    refine List.forall_mem_singleton.mpr ?_
    cases hp with
    | first hrule hchildren =>
      refine ⟨by rw [hrule]; decide, fun v hv => ?_⟩
      rw [hchildren] at hv
      cases hv
    | after hrule hchildren hanchor =>
      refine ⟨by rw [hrule]; decide, fun v hv => ?_⟩
      rw [hchildren, List.mem_singleton] at hv
      rw [hv, hanchor.rule]
      decide

/-- A column that is added is read with its position. -/
theorem findAdded_addColumn (h : IsAlteration (.addColumn d p) marks t) :
    Clause.findAdded t = [.ok (.addColumn d.column (Alteration.move? d p (marks.headD 0)))] := by
  have ht := h
  cases h with
  | @addColumn _ _ _ _ column place hrule hchildren hd hp =>
    have hall : t.all .columnDefinition = [column] := by
      rw [all_columnDefinition ht (by rw [hrule]; decide), hchildren,
        List.filter_cons_of_pos (by simp [hd.rule_eq]),
        filter_rule_eq_nil fun u hu => (hp.rule_ne u hu).1]
      rw [hchildren]
      exact List.forall_mem_cons.mpr
        ⟨fun v hv => (hd.rule_of_mem hv).2.1, fun u hu => (hp.rule_ne u hu).2⟩
    have hcolumn := hd.columnDefinition_eq (first?_self hd.rule_eq)
    have hmove := move?_eq_of_placed (d := d) [column] ht (by rw [hrule]; decide)
      hchildren (List.forall_mem_singleton.mpr hd.rule_ne) hp
    rw [Clause.findAdded, hall]
    show [Except.bind column.columnDefinition _] = _
    rw [hcolumn]
    show [Except.ok (Fact.addColumn d.column (t.move? d.name.value))] = _
    rw [hmove]

/-- Columns that are added together are read one by one, without positions. -/
theorem findAdded_addColumns {ds : Several Definition}
    (h : IsAlteration (.addColumns ds) marks t) : Clause.findAdded t =
      ds.toList.map fun d => .ok (.addColumn d.column none) := by
  have ht := h
  cases h with
  | addColumns hrule hds =>
    have hall : t.all .columnDefinition = t.children := by
      rw [all_columnDefinition ht (by rw [hrule]; decide),
        filter_rule_eq_self (forall_of_forall₂ hds IsDefinition.rule_eq)]
      exact forall_of_forall₂ hds fun hd v hv => (hd.rule_of_mem hv).2.1
    have hmove := move?_eq_none ht.shallow (by rw [hrule]; decide)
      (forall_of_forall₂ hds IsDefinition.rule_ne)
    have hcolumns : ∀ {ds : List Definition} {ts : List Node},
        List.Forall₂ IsDefinition ds ts →
        (ts.map fun u => (do return .addColumn (← u.columnDefinition) none : Finding)) =
          ds.map fun d => .ok (.addColumn d.column none) := by
      intro ds ts h
      induction h with
      | nil => rfl
      | cons hd _ ih =>
        rw [List.map_cons, List.map_cons, ih, hd.columnDefinition_eq (first?_self hd.rule_eq)]
        rfl
    rw [Clause.findAdded, hall]
    have hus := hcolumns hds
    generalize t.children = us at hds hus
    cases hds with
    | @cons _ u _ us hd _ =>
      cases us with
      | nil =>
        rw [← hus]
        show [Except.bind u.columnDefinition _] = [Except.bind u.columnDefinition _]
        rw [hd.columnDefinition_eq (first?_self hd.rule_eq)]
        exact congrArg (fun move => [Except.ok (Fact.addColumn _ move)]) (hmove _)
      | cons u' us => exact hus

private theorem IsUnique.rule_eq {unique : Bool} (h : IsUnique unique ts) :
    ∀ t ∈ ts, t.rule = .unique := by
  cases h with
  | plain => exact fun t ht => absurd ht List.not_mem_nil
  | unique hrule _ => exact List.forall_mem_singleton.mpr hrule

private theorem IsUnique.eq_nil_iff {unique : Bool} (h : IsUnique unique ts) :
    ts ≠ [] ↔ unique = true := by
  cases h <;> simp

/-- Below the nodes in an index there are those of its columns. -/
theorem rule_below_index {unique : Bool} {name : Option Name} {parts : Several KeyPart}
    {kind names : List Node} {key : Node} (hkind : IsUnique unique kind)
    (hnames : List.Forall₂ (IsName .indexName) name.toList names) (hkey : IsKey parts key) :
    ∀ v ∈ (kind ++ (names ++ [key])).flatMap children, v.rule = .columnName := by
  have hkinds : kind.flatMap children = [] := by
    cases hkind with
    | plain => rfl
    | unique _ hc => rw [List.flatMap_singleton, hc]
  have hnone : names.flatMap children = [] :=
    List.flatMap_eq_nil_iff.mpr (forall_of_forall₂ hnames IsName.children)
  rw [List.flatMap_append, List.flatMap_append, List.flatMap_singleton, hkinds, hnone,
    List.nil_append, List.nil_append]
  exact forall_of_forall₂ hkey.children IsName.rule

/-- An index that is added is read with its columns and whether it is unique. -/
theorem findIndex_eq {unique : Bool} {name : Option Name} {parts : Several KeyPart}
    (h : IsAlteration (.addIndex unique name parts) marks t) :
    Clause.findIndex t = .ok (.addIndex
      { name := (name.getD parts.first.column).value, columns := columnValues parts, unique }) := by
  have ht := h
  cases h with
  | @addIndex _ _ _ _ kind names key hrule hchildren hkind hnames hkey =>
    have hkindRule := hkind.rule_eq
    have hnameRule := forall_of_forall₂ hnames IsName.rule
    have hkeyRule : ∀ t ∈ [key], t.rule = .keyParts := List.forall_mem_singleton.mpr hkey.rule
    have hbelow := rule_below_index hkind hnames hkey
    have hall : ∀ r, r ≠ .columnName → t.rule ≠ r → t.all r = kind.filter (·.rule == r) ++
        (names.filter (·.rule == r) ++ [key].filter (·.rule == r)) := by
      intro r hr htr
      rw [all_of_shallow ht.shallow htr, hchildren, filter_other_rule hbelow hr.symm,
        List.append_nil, List.filter_append, List.filter_append]
    have hparts : t.all .keyParts = [key] := by
      rw [hall _ (by decide) (by rw [hrule]; decide), filter_other_rule hkindRule (by decide),
        filter_other_rule hnameRule (by decide), filter_rule_eq_self hkeyRule]
      rfl
    have hunique : t.all .unique = kind := by
      rw [hall _ (by decide) (by rw [hrule]; decide), filter_rule_eq_self hkindRule,
        filter_other_rule hnameRule (by decide), filter_other_rule hkeyRule (by decide)]
      exact List.append_nil kind
    have hnamed : t.all .indexName = names := by
      rw [hall _ (by decide) (by rw [hrule]; decide), filter_other_rule hkindRule (by decide),
        filter_rule_eq_self hnameRule, filter_other_rule hkeyRule (by decide), List.nil_append,
        List.append_nil]
    have hcolumns : t.keyColumns = columnValues parts := by
      refine keyColumns_eq ?_ hkey
      rw [first?_eq_head?_all, hparts]
      rfl
    have hhas : t.hasPart .unique = unique := by
      rw [Bool.eq_iff_iff, Node.hasPart_iff, hunique, hkind.eq_nil_iff]
    have hname : ((t.first? .indexName).map exactText).or (columnValues parts).head? =
        some (name.getD parts.first.column).value := by
      rw [first?_eq_head?_all, hnamed]
      cases name with
      | none =>
        cases hnames
        rfl
      | some name =>
        cases hnames with
        | cons ha _ => exact congrArg some ha.exactText
    simp only [Clause.findIndex, hcolumns, hname, hhas]

/-- A primary key that is added is read with its columns. -/
theorem findPrimaryKey_eq {symbol : Option Name} {parts : Several KeyPart}
    (h : IsAlteration (.addPrimaryKey symbol parts) marks t) :
    Clause.findPrimaryKey .addConstraint t = [.ok (.addPrimaryKey (columnValues parts))] := by
  cases h with
  | @addPrimaryKey _ _ _ symbols primary key hrule hchildren hsymbols hprimary _ hkey =>
    have hskip : ∀ r, r ≠ .constraintName → symbols.find? (·.rule == r) = none := by
      intro r hr
      refine List.find?_eq_none.mpr fun u hu => ?_
      simpa [forall_of_forall₂ hsymbols IsName.rule u hu] using hr.symm
    have hpart : t.first? .primaryKey = some primary := by
      refine first?_of_child (by rw [hrule]; decide) ?_
      rw [hchildren, List.find?_append, hskip _ (by decide), Option.none_or,
        List.find?_cons_of_pos (by simp [hprimary])]
    have hparts : t.first? .keyParts = some key := by
      refine first?_of_child (by rw [hrule]; decide) ?_
      rw [hchildren, List.find?_append, hskip _ (by decide), Option.none_or,
        List.find?_cons_of_neg (by simp [hprimary]), List.find?_cons_of_pos (by simp [hkey.rule])]
    have hhas : t.hasPart .primaryKey = true := by rw [Node.hasPart, hpart]; rfl
    rw [Clause.findPrimaryKey, if_pos hhas, keyColumns_eq hparts hkey]
    rfl

/-- An index that is renamed is read with both names. -/
theorem findRename_eq {old new : Name} (h : IsAlteration (.renameIndex old new) marks t) :
    Clause.findRename t = .ok (.renameIndex ⟨old.value, new.value⟩) := by
  cases h with
  | @renameIndex _ _ _ a b hrule hchildren ha hb =>
    have hleaves : Leaves t.children := by
      rw [hchildren]
      exact List.forall_mem_cons.mpr ⟨ha.children, List.forall_mem_singleton.mpr hb.children⟩
    have hall : t.all .indexName = [a, b] := by
      rw [all_of_leaves hleaves (by rw [hrule]; decide), hchildren,
        List.filter_cons_of_pos (by simp [ha.rule]), List.filter_cons_of_pos (by simp [hb.rule]),
        List.filter_nil]
    rw [Clause.findRename, hall]
    simp only [ha.exactText, hb.exactText]

/-- A column that is changed is read under its old name, with its position. -/
theorem findChanged_eq {old : Name} (h : IsAlteration (.changeColumn old d p) marks t) :
    Clause.findChanged t = .ok (.changeColumn ⟨old.value, d.column⟩
      (Alteration.move? d p (marks.headD 0))) := by
  have ht := h
  cases h with
  | @changeColumn _ _ _ _ _ a column place hrule hchildren ha hd hp =>
    have hold := ha.require_eq (by rw [hrule]; decide) hchildren
    have hcolumn : t.columnDefinition = .ok d.column := by
      refine hd.columnDefinition_eq (first?_of_child (by rw [hrule]; decide) ?_)
      rw [hchildren, List.find?_cons_of_neg (by simp [ha.rule]),
        List.find?_cons_of_pos (by simp [hd.rule_eq])]
    have hmove := move?_eq_of_placed (d := d) [a, column] ht (by rw [hrule]; decide)
      hchildren (List.forall_mem_cons.mpr
        ⟨ha.rule_ne (by decide), List.forall_mem_singleton.mpr hd.rule_ne⟩) hp
    rw [Clause.findChanged, hold]
    show Except.bind t.columnDefinition _ = _
    rw [hcolumn]
    show Except.ok (Fact.changeColumn ⟨a.exactText, d.column⟩ (t.move? d.name.value)) = _
    rw [ha.exactText, hmove]

/-- A column that is modified is read under the name of its definition, with its position. -/
theorem findModified_eq (h : IsAlteration (.modifyColumn d p) marks t) :
    Clause.findModified t = .ok (.changeColumn ⟨d.name.value, d.column⟩
      (Alteration.move? d p (marks.headD 0))) := by
  have ht := h
  cases h with
  | @modifyColumn _ _ _ _ column place hrule hchildren hd hp =>
    have hcolumn : t.columnDefinition = .ok d.column := by
      refine hd.columnDefinition_eq (first?_of_child (by rw [hrule]; decide) ?_)
      rw [hchildren, List.find?_cons_of_pos (by simp [hd.rule_eq])]
    have hmove := move?_eq_of_placed (d := d) [column] ht (by rw [hrule]; decide)
      hchildren (List.forall_mem_singleton.mpr hd.rule_ne) hp
    rw [Clause.findModified, hcolumn]
    show Except.ok (Fact.changeColumn ⟨d.name.value, d.column⟩ (t.move? d.name.value)) = _
    rw [hmove]

/-! ## Reading drafts -/

/-- The kind of clause that an alteration is. -/
def Alteration.clause : Alteration → Clause
  | addColumn .. => .addColumn
  | addColumns .. => .addColumn
  | addIndex .. => .addIndex
  | addPrimaryKey .. => .primaryKey .addConstraint
  | dropPrimaryKey => .dropPrimaryKey
  | dropIndex .. => .dropIndex
  | dropColumn .. => .dropColumn
  | renameIndex .. => .renameIndex
  | changeColumn .. => .changeColumn
  | modifyColumn .. => .modifyColumn

/-- The rule of the nodes that the readers of a kind of clause look for. -/
def ruleOf : Clause → Rule
  | .tableName => .tableName
  | .dropColumn => .dropColumn
  | .addColumn => .addColumn
  | .addIndex => .addIndex
  | .dropIndex => .dropIndex
  | .renameIndex => .renameIndex
  | .primaryKey r => r
  | .dropPrimaryKey => .dropPrimaryKey
  | .changeColumn => .changeColumn
  | .modifyColumn => .modifyColumn

/-- An alteration is read as the facts that it stands for. -/
theorem IsAlteration.findingsIn_eq (h : IsAlteration x marks t) :
    findingsIn x.clause t = (Alteration.facts (x, marks.headD 0)).map .ok := by
  cases x with
  | addColumn d p => exact findAdded_addColumn h
  | addColumns ds =>
    refine (findAdded_addColumns h).trans ?_
    rw [Alteration.facts, List.map_map]
    rfl
  | addIndex unique name parts => exact congrArg (fun f => [f]) (findIndex_eq h)
  | addPrimaryKey symbol parts => exact findPrimaryKey_eq h
  | dropPrimaryKey => rfl
  | dropIndex name =>
    cases h with
    | @dropIndex _ _ a hrule hchildren ha =>
      show [Except.bind (t.require .indexName) _] = _
      rw [ha.require_eq (by rw [hrule]; decide) hchildren]
      exact congrArg (fun s => [Except.ok (Fact.dropIndex s)]) ha.exactText
  | dropColumn name =>
    cases h with
    | @dropColumn _ _ a hrule hchildren ha =>
      show [Except.bind (t.require .columnName) _] = _
      rw [ha.require_eq (by rw [hrule]; decide) hchildren]
      exact congrArg (fun s => [Except.ok (Fact.dropColumn s)]) ha.exactText
  | renameIndex old new => exact congrArg (fun f => [f]) (findRename_eq h)
  | changeColumn old d p => exact congrArg (fun f => [f]) (findChanged_eq h)
  | modifyColumn d p => exact congrArg (fun f => [f]) (findModified_eq h)

/-- Every kind of alteration has the rule of its clause. -/
theorem ruleOf_clause (x : Alteration) : ruleOf x.clause = x.rule := by
  cases x <;> rfl

/-- The first of several alterations has the first position, if it has one. -/
theorem located_cons (h : IsAlteration x marks t) (xs : List Alteration) (marks' : List Nat) :
    Alteration.located (x :: xs) (marks ++ marks') =
      (x, marks.headD 0) :: Alteration.located xs marks' := by
  cases h with
  | addColumn _ _ _ hp => cases hp <;> rfl
  | changeColumn _ _ _ _ hp => cases hp <;> rfl
  | modifyColumn _ _ _ hp => cases hp <;> rfl
  | _ => rfl

/-- The facts of one kind. -/
def factsOf (c : Clause) (xs : List (Alteration × Nat)) : List Fact :=
  (xs.filter fun x => x.1.clause == c).flatMap Alteration.facts

/-- Every kind of alteration has a clause that is looked for. -/
theorem clause_mem (x : Alteration) : x.clause ∈ Reader.mysql.clauses := by
  cases x <;> simp [Alteration.clause, Reader.mysql, Reader.extended, Reader.base]

/-- The alterations that drafts make are told apart by the rules of their nodes. -/
theorem clause_eq_iff {c : Clause} (hc : c ∈ Reader.mysql.clauses) (x : Alteration) :
    x.clause = c ↔ x.rule = ruleOf c := by
  have hall : ∀ c ∈ Reader.mysql.clauses, ∀ c' ∈ Reader.mysql.clauses,
      c' = c ↔ ruleOf c' = ruleOf c := by decide
  rw [← ruleOf_clause]
  exact hall c hc x.clause (clause_mem x)

/-- The nodes of one kind among those of several alterations are read as the facts of that kind. -/
theorem flatMap_findingsIn {c : Clause} (hc : c ∈ Reader.mysql.clauses) {xs : List Alteration}
    (h : Gathers OneAlteration xs marks ts) :
    (ts.filter (·.rule == ruleOf c)).flatMap (findingsIn c) =
      (factsOf c (Alteration.located xs marks)).map .ok := by
  induction h with
  | nil => rfl
  | @cons x xs marks marks' ts ts' hx _ ih =>
    obtain ⟨t, rfl, ht⟩ := hx
    rw [located_cons ht, factsOf, List.singleton_append, List.filter_cons, List.filter_cons]
    by_cases hk : x.clause = c
    · have hrule : (t.rule == ruleOf c) = true := by
        rw [beq_iff_eq, ht.rule_eq]
        exact (clause_eq_iff hc x).mp hk
      rw [if_pos hrule, if_pos (by simpa using hk), List.flatMap_cons, List.flatMap_cons,
        List.map_append, ih, ← hk, ht.findingsIn_eq]
      rfl
    · have hrule : (t.rule == ruleOf c) ≠ true := by
        rw [Ne, beq_iff_eq, ht.rule_eq]
        exact fun h => hk ((clause_eq_iff hc x).mpr h)
      rw [if_neg hrule, if_neg (by simpa using hk), ih]
      rfl

end AlterTable.Draft
