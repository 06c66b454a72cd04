import AlterTable.Proofs.Statement.Growth
import AlterTable.Proofs.Statement.KeyParts

/-!
# Old names

A clause that gives a column another definition names the column first, and the name stands right
below the node of the clause. It is looked up breadth first, so it is found before the names inside
the definition and the position. But nothing asks for it to stand there: where a clause has no name
of its own, the search goes on further down, and the clause borrows the name of the definition or of
the anchor, where one would expect a fault.

Nodes behind a fault are not read, so this shows at nodes that are reached (`ownOldNames_iff`). It
never shows in the tree of a text, since the grammar puts a name into every such clause.
-/

namespace AlterTable

namespace Node

variable {n u : Node}

/-- The first column name right below the node. -/
def ownName? (n : Node) : Option Node :=
  n.children.find? (·.rule == .columnName)

/-- The only column names in the node are further down. -/
def Borrows (n : Node) : Prop :=
  n.ownName? = none ∧ n.hasPart .columnName = true

private theorem ownName?_eq_none_iff :
    n.ownName? = none ↔ ∀ u ∈ n.children, u.rule ≠ .columnName := by
  simp [ownName?]

private theorem exists_of_ownName? (h : n.ownName? = some u) :
    u ∈ n.children ∧ u.rule = .columnName :=
  ⟨List.mem_of_find?_eq_some h, by simpa using List.find?_some h⟩

/-- The column name that is found first is the node's own, or a borrowed one. -/
theorem ownName?_or_borrows (hn : n.rule ≠ .columnName) (h : n.first? .columnName = some u) :
    n.ownName? = some u ∨ n.Borrows := by
  cases hown : n.ownName? with
  | none => exact .inr ⟨hown, by rw [hasPart, h]; rfl⟩
  | some v =>
    have hfirst := first?_of_child hn hown
    exact .inl (hfirst.symm.trans h)

private theorem first?_of_require {r : Rule} (h : n.require r = .ok u) : n.first? r = some u := by
  unfold require at h
  split at h
  next hfirst =>
    cases h
    exact hfirst
  next => cases h

private theorem missing_of_require {r : Rule} {e : ReadError} (h : n.require r = .error e) :
    e = .missing n.rule r := by
  unfold require at h
  split at h
  next => cases h
  next =>
    cases h
    rfl

/-- A definition is missing, or something is missing in it. -/
theorem missing_of_columnDefinition {e : ReadError} (h : n.columnDefinition = .error e) :
    e = .missing n.rule .columnDefinition ∨ ∃ part, e = .missing .columnDefinition part := by
  cases hdefinition : n.require .columnDefinition with
  | error e' =>
    rw [columnDefinition, hdefinition] at h
    cases h
    exact .inl (missing_of_require hdefinition)
  | ok definition =>
    have hrule := rule_of_first? (first?_of_require hdefinition)
    rw [columnDefinition, bind_eq_of_ok hdefinition] at h
    refine .inr ?_
    cases hcolumn : definition.require .columnName with
    | error e' =>
      rw [hcolumn] at h
      cases h
      exact ⟨_, hrule ▸ missing_of_require hcolumn⟩
    | ok column =>
      rw [bind_eq_of_ok hcolumn] at h
      cases htype : definition.require .dataType with
      | error e' =>
        rw [htype] at h
        cases h
        exact ⟨_, hrule ▸ missing_of_require htype⟩
      | ok type =>
        rw [bind_eq_of_ok htype] at h
        cases h

/-- What the rule of a node of a text's tree needs stands right below the node. -/
theorem exists_child_of_ofText? {text : String} {tree : Node} {r : Rule}
    (h : ofText? text = .ok tree) (hu : u.Within tree) (hr : r ∈ u.rule.needs) :
    ∃ t ∈ u.children, t.rule = r := by
  obtain ⟨n, hd⟩ := Grammar.ofText?_eq_ok_iff_derives.mp h
  obtain ⟨p, hp, c, m, xs, -, -, rfl, hpart, -⟩ :=
    hd.exists_part (List.mem_singleton_self _) hu
  exact hpart.exists_of_mem_musts (Grammar.Production.needs_subset_musts p hp hr)

end Node

namespace Clause

variable {root n : Node} {s : Statement} {fact : Fact} {facts : List Fact} {e : ReadError}
variable {ns front back : List Node} {changes : List Change}

/-! ## Single clauses -/

/-- A clause that lacks a column name anywhere is a fault that says so. -/
theorem findChanged_of_lacking (hn : n.rule = .changeColumn)
    (hname : n.first? .columnName = none) :
    findChanged n = .error (.missing .changeColumn .columnName) := by
  have hrequire : n.require .columnName = .error (.missing .changeColumn .columnName) := by
    rw [Node.require, hname, hn]
  rw [findChanged, hrequire]
  rfl

/-- A clause that finds a column name may have another fault, but not that the name is missing. -/
theorem error_ne_of_findChanged (hn : n.rule = .changeColumn)
    (hname : n.hasPart .columnName = true) (h : findChanged n = .error e) :
    e ≠ .missing .changeColumn .columnName := by
  obtain ⟨old, hold⟩ := Option.isSome_iff_exists.mp hname
  rw [findChanged, bind_eq_of_ok (Draft.require_eq hold)] at h
  cases hcolumn : n.columnDefinition with
  | ok column =>
    rw [bind_eq_of_ok hcolumn] at h
    cases h
  | error e' =>
    rw [hcolumn] at h
    cases h
    rcases Node.missing_of_columnDefinition hcolumn with rfl | ⟨part, rfl⟩
    · rw [hn]
      decide
    · intro heq
      cases heq

/-! ## Clauses that are read -/

/-- No clause in front of the node is at fault. -/
def Reached (root n : Node) : Prop :=
  ∃ front back, root.all .changeColumn = front ++ n :: back ∧
    ∀ m ∈ front, ∃ fact, findChanged m = .ok fact

/-- The old names are those right below the nodes that are read, one for one, and a node that is
reached without such a name is a fault that says so. -/
structure OwnOldNames (root : Node) (s : Statement) : Prop where
  recorded : ∃ changes,
    (changeColumn.apply root s).1.changedColumns = s.changedColumns ++ changes ∧
      List.Forall₂ (fun c n => ∃ name ∈ n.children, name.rule = .columnName ∧
        c.oldName = name.exactText) changes ((root.all .changeColumn).take changes.length)
  missing : ∀ n, Reached root n → (∀ u ∈ n.children, u.rule ≠ .columnName) →
    (changeColumn.apply root s).2 = some (.missing .changeColumn .columnName)

private theorem forall₂_changed_of_map_eq {P : Change → Node → Prop}
    (hP : ∀ n ∈ ns, ∀ old column, n.first? .columnName = some old → P ⟨old.exactText, column⟩ n)
    (h : ns.map findChanged = facts.map .ok) :
    List.Forall₂ P (facts.flatMap Fact.changed) ns := by
  induction ns generalizing facts with
  | nil =>
    obtain rfl := List.map_eq_nil_iff.mp h.symm
    exact .nil
  | cons n ns ih =>
    cases facts with
    | nil => cases h
    | cons fact facts =>
      obtain ⟨hn, hns⟩ := List.cons.inj h
      obtain ⟨hPn, hPns⟩ := List.forall_mem_cons.mp hP
      obtain ⟨old, column, hold, -, rfl⟩ := exists_of_findChanged hn
      exact .cons (hPn old column (Node.first?_of_require hold)) (ih hPns hns)

/-- The facts that are recorded of the tree. -/
def changesHeard (root : Node) : List Fact :=
  (upToFault (changeColumn.findings root)).1

/-- A reading for changed columns adds those that it has heard. -/
theorem changedColumns_apply (root : Node) (s : Statement) :
    (changeColumn.apply root s).1.changedColumns =
      s.changedColumns ++ (changesHeard root).flatMap Fact.changed := by
  rw [apply_eq, Statement.foldl_record]
  rfl

/-- What is recorded comes from the nodes at the front, one fact from each. -/
theorem map_findChanged_take (root : Node) :
    ((root.all .changeColumn).take (changesHeard root).length).map findChanged =
      (changesHeard root).map .ok := by
  have hheard : upToFault ((root.all .changeColumn).map findChanged) =
      (changesHeard root, (changeColumn.apply root {}).2) := rfl
  obtain ⟨rest, hfindings, -⟩ := exists_eq_append_of_upToFault hheard
  rw [List.map_take, hfindings, List.take_left' (List.length_map _)]

private theorem reached_of_mem_take
    (h : n ∈ (root.all .changeColumn).take (changesHeard root).length) : Reached root n := by
  have hmap := map_findChanged_take root
  obtain ⟨front, back, htake⟩ := List.append_of_mem h
  refine ⟨front, back ++ (root.all .changeColumn).drop (changesHeard root).length, ?_, ?_⟩
  · rw [← List.cons_append, ← List.append_assoc, ← htake, List.take_append_drop]
  · intro m hm
    have hfinding : findChanged m ∈ (changesHeard root).map .ok := by
      rw [← hmap, htake]
      exact List.mem_map_of_mem (List.mem_append_left _ hm)
    obtain ⟨fact, -, hfact⟩ := List.mem_map.mp hfinding
    exact ⟨fact, hfact.symm⟩

private theorem Reached.mem (h : Reached root n) : n ∈ root.all .changeColumn := by
  obtain ⟨front, back, hsplit, -⟩ := h
  rw [hsplit]
  exact List.mem_append_right _ List.mem_cons_self

private theorem Reached.rule (h : Reached root n) : n.rule = .changeColumn :=
  (Node.mem_all_iff.mp h.mem).2

/-- The nodes in front of one that is reached are heard, and reading goes on with it. -/
theorem Reached.exists_upToFault (h : Reached root n) :
    ∃ (front back : List Node) (facts : List Fact), root.all .changeColumn = front ++ n :: back ∧
      facts.length = front.length ∧ upToFault (changeColumn.findings root) =
        (facts ++ (upToFault (findChanged n :: back.map findChanged)).1,
          (upToFault (findChanged n :: back.map findChanged)).2) := by
  obtain ⟨front, back, hsplit, hfront⟩ := h
  have hfaultless : Faultless (front.map findChanged) := List.forall_mem_map.mpr hfront
  obtain ⟨facts, hfacts⟩ : ∃ facts : List Fact, front.map findChanged = facts.map .ok :=
    ⟨_, hfaultless.eq_map⟩
  refine ⟨front, back, facts, hsplit, ?_, ?_⟩
  · simpa using (congrArg List.length hfacts).symm
  · rw [findings, hsplit, List.map_append, hfacts, upToFault_append, List.map_cons]

/-- A fault that is reached is reported. -/
theorem Reached.fault (h : Reached root n) (hn : findChanged n = .error e) (s : Statement) :
    (changeColumn.apply root s).2 = some e := by
  obtain ⟨front, back, facts, -, -, hheard⟩ := h.exists_upToFault
  rw [apply_eq, hheard, hn]
  rfl

private theorem Reached.mem_take (h : Reached root n) (hn : findChanged n = .ok fact) :
    n ∈ (root.all .changeColumn).take (changesHeard root).length := by
  obtain ⟨front, back, facts, hsplit, hlength, hheard⟩ := h.exists_upToFault
  have hlonger : (changesHeard root).length =
      front.length + ((upToFault (back.map findChanged)).1.length + 1) := by
    rw [changesHeard, hheard, hn, List.length_append, hlength]
    rfl
  rw [hsplit, hlonger, List.take_length_add_append, List.take_succ_cons]
  exact List.mem_append_right _ List.mem_cons_self

/-! ## Old names -/

/-- There is a change for each fact. -/
theorem take_changes (root : Node) :
    (root.all .changeColumn).take ((changesHeard root).flatMap Fact.changed).length =
      (root.all .changeColumn).take (changesHeard root).length := by
  have hpairs := forall₂_changed_of_map_eq (P := fun _ _ => True) (fun _ _ _ _ _ => trivial)
    (map_findChanged_take root)
  rw [List.take_eq_take_iff, hpairs.length_eq, List.length_take]
  omega

/-- The changes that are recorded stand to the nodes in front, one for one, as old names that are
looked up do. -/
theorem forall₂_recorded {P : Change → Node → Prop}
    (hP : ∀ n, Reached root n → ∀ old column, n.first? .columnName = some old →
      P ⟨old.exactText, column⟩ n) :
    List.Forall₂ P ((changesHeard root).flatMap Fact.changed)
      ((root.all .changeColumn).take ((changesHeard root).flatMap Fact.changed).length) := by
  rw [take_changes]
  exact forall₂_changed_of_map_eq (fun n hn => hP n (reached_of_mem_take hn))
    (map_findChanged_take root)

/-- The name that is read is the node's own, or it is borrowed. -/
theorem ownName?_or_borrows_of_reached {u : Node} (h : Reached root n)
    (hu : n.first? .columnName = some u) : n.ownName? = some u ∨ n.Borrows :=
  Node.ownName?_or_borrows (by rw [h.rule]; decide) hu

/-- Without borrowed names all old names are the nodes' own. -/
theorem ownOldNames_of_not_borrows (h : ∀ n, Reached root n → ¬ n.Borrows) (s : Statement) :
    OwnOldNames root s where
  recorded := by
    refine ⟨_, changedColumns_apply root s, forall₂_recorded fun n hn old column hold => ?_⟩
    have hown := (ownName?_or_borrows_of_reached hn hold).resolve_right (h n hn)
    obtain ⟨hchild, hrule⟩ := Node.exists_of_ownName? hown
    exact ⟨old, hchild, hrule, rfl⟩
  missing n hn hlacks := by
    refine hn.fault (findChanged_of_lacking hn.rule ?_) s
    cases hfirst : n.first? .columnName with
    | none => rfl
    | some old =>
      have hown := (ownName?_or_borrows_of_reached hn hfirst).resolve_right (h n hn)
      rw [Node.ownName?_eq_none_iff.mpr hlacks] at hown
      cases hown

/-- Where all old names are the nodes' own, none is borrowed. -/
theorem OwnOldNames.not_borrows (h : OwnOldNames root s) (hn : Reached root n) : ¬ n.Borrows := by
  rintro ⟨hown, hname⟩
  have hlacks := Node.ownName?_eq_none_iff.mp hown
  cases hfinding : findChanged n with
  | error e =>
    have hfault := h.missing n hn hlacks
    rw [hn.fault hfinding, Option.some.injEq] at hfault
    exact error_ne_of_findChanged hn.rule hname hfinding hfault
  | ok fact =>
    obtain ⟨changes, hchanges, hnames⟩ := h.recorded
    rw [changedColumns_apply, List.append_cancel_left_eq] at hchanges
    rw [← hchanges, take_changes] at hnames
    have hchild : ∀ m ∈ (root.all .changeColumn).take (changesHeard root).length,
        ∃ name ∈ m.children, name.rule = .columnName :=
      Draft.forall_of_forall₂ hnames fun ⟨name, hchild, hrule, _⟩ => ⟨name, hchild, hrule⟩
    obtain ⟨name, hname, hrule⟩ := hchild n (hn.mem_take hfinding)
    exact hlacks name hname hrule

/-- In the tree of a text no clause borrows its old name. -/
theorem not_borrows_of_ofText? {text : String} (h : Node.ofText? text = .ok root)
    (hn : Reached root n) : ¬ n.Borrows := by
  obtain ⟨name, hchild, hrule⟩ := Node.exists_child_of_ofText? (r := .columnName) h
    (Node.mem_all_iff.mp hn.mem).1 (by rw [hn.rule]; decide)
  exact fun hborrows => Node.ownName?_eq_none_iff.mp hborrows.1 name hchild hrule

/-- Old names are those right below the nodes unless a node that is reached borrows its name, which
none does in the tree of a text. A name that is recorded is in any case the one that is found first
in its node, so a borrowed one is a name further down. -/
theorem ownOldNames_iff (root : Node) (s : Statement) :
    (OwnOldNames root s ↔ ∀ n, Reached root n → ¬ n.Borrows) ∧
      (∀ text, Node.ofText? text = .ok root → OwnOldNames root s) ∧
      ∃ changes, (changeColumn.apply root s).1.changedColumns = s.changedColumns ++ changes ∧
        List.Forall₂ (fun c n => ∃ name, n.first? .columnName = some name ∧
          c.oldName = name.exactText ∧ (n.ownName? = some name ∨ n.Borrows)) changes
          ((root.all .changeColumn).take changes.length) := by
  refine ⟨⟨fun h n hn => h.not_borrows hn, fun h => ownOldNames_of_not_borrows h s⟩,
    fun text h => ownOldNames_of_not_borrows (fun n hn => not_borrows_of_ofText? h hn) s,
    _, changedColumns_apply root s, forall₂_recorded fun n hn old column hold => ?_⟩
  exact ⟨old, hold, rfl, ownName?_or_borrows_of_reached hn hold⟩

/-- A clause that gives a definition and no old name. -/
def definitionAlone : Node :=
  { rule := .changeColumn, children := [{ rule := .columnDefinition, children :=
      [{ rule := .columnName, text := "b" }, { rule := .dataType, text := "INT" }] }] }

/-- The name in the definition is recorded as the old one, and nothing is a fault. -/
theorem not_ownOldNames_definitionAlone :
    changeColumn.apply { rule := .alterTable, children := [definitionAlone] } {} =
        ({ changedColumns := [⟨"b", { name := "b", dataType := "INT" }⟩] }, none) ∧
      ¬ OwnOldNames { rule := .alterTable, children := [definitionAlone] } {} := by
  have happly : changeColumn.apply { rule := .alterTable, children := [definitionAlone] } {} =
      ({ changedColumns := [⟨"b", { name := "b", dataType := "INT" }⟩] }, none) := by
    decide +kernel
  have hall : Node.all { rule := .alterTable, children := [definitionAlone] } .changeColumn =
      [definitionAlone] := by
    decide +kernel
  refine ⟨happly, fun h => ?_⟩
  have hfault := h.missing definitionAlone ⟨[], [], hall, nofun⟩ (by decide +kernel)
  rw [happly] at hfault
  cases hfault

end Clause

end AlterTable
