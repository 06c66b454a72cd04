import AlterTable.Proofs.Draft.Tree
import AlterTable.Proofs.Node.Lookup

/-!
# What trees of drafts say

Each node of a draft's tree is read as what it was written for. A definition gives back its column,
an alteration the facts that it stands for; `facts` lists them by kind.
-/

namespace AlterTable.Draft

open AlterTable.Node

variable {n t : Node} {r : Rule} {d : Definition} {marks : List Nat} {ts : List Node}

/-! ## Names, keys and definitions -/

/-- What holds of the node of each thing holds of all of the nodes. -/
theorem forall_of_forall₂ {α : Type} {Q : α → Node → Prop} {P : Node → Prop} {xs : List α}
    (h : List.Forall₂ Q xs ts) (hP : ∀ {x t}, Q x t → P t) : ∀ t ∈ ts, P t := by
  induction h with
  | nil => exact fun t ht => absurd ht List.not_mem_nil
  | cons hx _ ih => exact List.forall_mem_cons.mpr ⟨hP hx, ih⟩

/-- Of nodes of one rule all are of the rule. -/
theorem filter_rule_eq_self (h : ∀ t ∈ ts, t.rule = r) : ts.filter (·.rule == r) = ts :=
  List.filter_eq_self.mpr fun t ht => by simpa using h t ht

/-- Of nodes of other rules none is of the rule. -/
theorem filter_rule_eq_nil (h : ∀ t ∈ ts, t.rule ≠ r) : ts.filter (·.rule == r) = [] :=
  List.filter_eq_nil_iff.mpr fun t ht => by simpa using h t ht

/-- Of nodes of one rule none is of another one. -/
theorem filter_other_rule (h : ∀ t ∈ ts, t.rule = r) {r' : Rule} (hr : r ≠ r') :
    ts.filter (·.rule == r') = [] :=
  filter_rule_eq_nil fun t ht => h t ht ▸ hr

/-- A key names its columns in order. -/
theorem keyColumns_eq {parts : Several KeyPart} (hn : n.first? .keyParts = some t)
    (ht : IsKey parts t) : n.keyColumns = columnValues parts := by
  have hrules := forall_of_forall₂ ht.children IsName.rule
  have hleaves : Leaves t.children := forall_of_forall₂ ht.children IsName.children
  have hall : t.all .columnName = t.children := by
    rw [all_of_leaves hleaves (by rw [ht.rule]; decide), filter_rule_eq_self hrules]
  have hnames : ∀ {ps : List KeyPart} {ts : List Node}, List.Forall₂ IsKeyPart ps ts →
      ts.map exactText = ps.map fun k => k.column.value := by
    intro ps ts h
    induction h with
    | nil => rfl
    | cons hx _ ih => rw [List.map_cons, List.map_cons, ih, IsName.exactText hx]
  rw [keyColumns, hn]
  show (t.all .columnName).map exactText = _
  rw [hall, hnames ht.children]
  rfl

/-- An attribute is found by a rule that no other one has. -/
theorem any_attributes {x : Attribute} (hx : ∀ y : Attribute, y.rule = r ↔ y = x)
    {xs : List Attribute} (h : List.Forall₂ IsAttribute xs ts) :
    ts.filter (·.rule == r) ≠ [] ↔ xs.contains x = true := by
  induction h with
  | nil => simp
  | @cons y t xs ts hy _ ih =>
    have hrule : (t.rule == r) = true ↔ y = x := by
      rw [beq_iff_eq, hy.rule, hx]
    by_cases hyx : y = x
    · rw [List.filter_cons, if_pos (hrule.mpr hyx)]
      simp [hyx]
    · rw [List.filter_cons, if_neg (mt hrule.mp hyx), ih, List.contains_cons]
      simp [Ne.symm hyx]

/-- The parts of a definition have no parts. -/
theorem IsDefinition.leaves (h : IsDefinition d t) : Leaves t.children := by
  obtain ⟨-, hchildren, hcolumn, htype, hattributes⟩ := h
  rw [hchildren]
  intro u hu
  obtain rfl | hu := List.mem_cons.mp hu
  · exact hcolumn.children
  obtain rfl | hu := List.mem_cons.mp hu
  · exact htype.children
  · exact forall_of_forall₂ hattributes IsAttribute.children u hu

/-- A definition has the part of an attribute just if the attribute is written. -/
theorem IsDefinition.hasPart_iff (h : IsDefinition d t) {x : Attribute}
    (hx : ∀ y : Attribute, y.rule = r ↔ y = x) (hr : r ≠ .columnDefinition ∧ r ≠ .columnName ∧
      r ≠ .dataType) : t.hasPart r = d.attributes.contains x := by
  have hleaves := h.leaves
  obtain ⟨hrule, hchildren, hcolumn, htype, hattributes⟩ := h
  rw [Bool.eq_iff_iff, Node.hasPart_iff, all_of_leaves hleaves (by rw [hrule]; exact hr.1.symm),
    hchildren, List.filter_cons_of_neg (by simpa [hcolumn.rule] using hr.2.1.symm),
    List.filter_cons_of_neg (by simpa [htype.rule] using hr.2.2.symm),
    any_attributes hx hattributes]

/-- A definition is read as the column that it is about. -/
theorem IsDefinition.columnDefinition_eq (h : IsDefinition d t)
    (hn : n.first? .columnDefinition = some t) : n.columnDefinition = .ok d.column := by
  have hprimary := h.hasPart_iff (r := .primaryKey) (x := .primaryKey)
    (fun y => by cases y <;> simp [Attribute.rule]) (by decide)
  have hnotNull := h.hasPart_iff (r := .notNull) (x := .notNull)
    (fun y => by cases y <;> simp [Attribute.rule]) (by decide)
  have hauto := h.hasPart_iff (r := .autoIncrement) (x := .autoIncrement)
    (fun y => by cases y <;> simp [Attribute.rule]) (by decide)
  obtain ⟨hrule, hchildren, hcolumn, htype, hattributes⟩ := h
  rename_i column type attributes
  have hself : n.require .columnDefinition = .ok t := by rw [Node.require, hn]
  have hname : t.require .columnName = .ok column := by
    rw [Node.require, first?_of_child (by rw [hrule]; decide)]
    rw [hchildren, List.find?_cons_of_pos (by simp [hcolumn.rule])]
  have htyped : t.require .dataType = .ok type := by
    rw [Node.require, first?_of_child (by rw [hrule]; decide)]
    rw [hchildren, List.find?_cons_of_neg (by simp [hcolumn.rule]),
      List.find?_cons_of_pos (by simp [htype.rule])]
  rw [Node.columnDefinition, hself]
  show Except.bind (t.require .columnName) _ = _
  rw [hname]
  show Except.bind (t.require .dataType) _ = _
  rw [htyped]
  show Except.ok _ = _
  rw [hprimary, hnotNull, hauto, hcolumn.exactText, htype.text]
  rfl

/-! ## The levels of an alteration -/

/-- The rules of the nodes inside of alterations. -/
def isPart : Rule → Bool
  | .columnDefinition => true
  | .columnName => true
  | .dataType => true
  | .primaryKey => true
  | .notNull => true
  | .autoIncrement => true
  | .columnAttribute => true
  | .firstOrAfterColumn => true
  | .unique => true
  | .indexName => true
  | .keyParts => true
  | .constraintName => true
  | _ => false

/-- A node inside of an alteration, with at most one level below it. -/
structure IsPart (t : Node) : Prop where
  rule : isPart t.rule = true
  children : ∀ u ∈ t.children, isPart u.rule = true ∧ u.children = []

private theorem isPart_of_leaf (hr : isPart t.rule = true) (hc : t.children = []) : IsPart t :=
  ⟨hr, fun u hu => by rw [hc] at hu; cases hu⟩

private theorem IsName.isPart {name : Name} (h : IsName r name t) (hr : isPart r = true) :
    IsPart t :=
  isPart_of_leaf (h.rule ▸ hr) h.children

/-- What stands in a definition. -/
theorem IsDefinition.rule_of_mem (h : IsDefinition d t) {u : Node} (hu : u ∈ t.children) :
    isPart u.rule = true ∧ u.rule ≠ .columnDefinition ∧ u.rule ≠ .firstOrAfterColumn := by
  obtain ⟨-, hchildren, hcolumn, htype, hattributes⟩ := h
  rw [hchildren] at hu
  obtain rfl | hu := List.mem_cons.mp hu
  · rw [hcolumn.rule]
    decide
  obtain rfl | hu := List.mem_cons.mp hu
  · rw [htype.rule]
    decide
  · refine forall_of_forall₂ (P := fun u => isPart u.rule = true ∧ u.rule ≠ .columnDefinition ∧
      u.rule ≠ .firstOrAfterColumn) hattributes (fun {x u} hx => ?_) u hu
    rw [hx.rule]
    cases x <;> simp [Attribute.rule, Draft.isPart]

private theorem IsDefinition.isPart (h : IsDefinition d t) : IsPart t where
  rule := by
    obtain ⟨hrule, -⟩ := h
    rw [hrule]
    rfl
  children u hu := ⟨(h.rule_of_mem hu).1, h.leaves u hu⟩

private theorem IsPosition.isPart {p : Position} {offset : Nat} (h : IsPosition p offset t) :
    IsPart t := by
  cases h with
  | first hrule hchildren => exact isPart_of_leaf (by rw [hrule]; rfl) hchildren
  | after hrule hchildren hanchor =>
    refine ⟨by rw [hrule]; rfl, fun u hu => ?_⟩
    rw [hchildren, List.mem_singleton] at hu
    subst hu
    exact ⟨by rw [hanchor.rule]; rfl, hanchor.children⟩

private theorem IsPlaced.isPart {p : Option Position} (h : IsPlaced p marks ts) :
    ∀ t ∈ ts, IsPart t := by
  cases h with
  | none => exact fun t ht => absurd ht List.not_mem_nil
  | some hp => exact fun t ht => List.mem_singleton.mp ht ▸ hp.isPart

private theorem IsKey.isPart {parts : Several KeyPart} (h : IsKey parts t) : IsPart t where
  rule := by
    rw [h.rule]
    rfl
  children u hu := by
    have hrule := forall_of_forall₂ h.children IsName.rule u hu
    exact ⟨by rw [hrule]; rfl, forall_of_forall₂ h.children IsName.children u hu⟩

private theorem forall₂_isPart {names : List Name} (hr : Draft.isPart r = true)
    (h : List.Forall₂ (IsName r) names ts) : ∀ t ∈ ts, IsPart t :=
  forall_of_forall₂ h fun hname => hname.isPart hr

private theorem IsUnique.isPart {unique : Bool} (h : IsUnique unique ts) : ∀ t ∈ ts, IsPart t := by
  cases h with
  | plain => exact fun t ht => absurd ht List.not_mem_nil
  | unique hrule hchildren =>
    intro t ht
    obtain rfl := List.mem_singleton.mp ht
    exact isPart_of_leaf (by rw [hrule]; rfl) hchildren

/-- An alteration has nothing but parts in it. -/
theorem IsAlteration.isPart {x : Alteration} (h : IsAlteration x marks t) :
    ∀ u ∈ t.children, IsPart u := by
  cases h with
  | addColumn _ hchildren hd hp =>
    rw [hchildren]
    exact List.forall_mem_cons.mpr ⟨hd.isPart, hp.isPart⟩
  | addColumns _ hds => exact forall_of_forall₂ hds IsDefinition.isPart
  | addIndex _ hchildren hkind hnames hkey =>
    rw [hchildren]
    intro u hu
    rcases List.mem_append.mp hu with hu | hu
    · exact hkind.isPart u hu
    rcases List.mem_append.mp hu with hu | hu
    · exact forall₂_isPart rfl hnames u hu
    · exact List.mem_singleton.mp hu ▸ hkey.isPart
  | addPrimaryKey _ hchildren hsymbols hrule hprimary hkey =>
    rw [hchildren]
    intro u hu
    rcases List.mem_append.mp hu with hu | hu
    · exact forall₂_isPart rfl hsymbols u hu
    obtain rfl | hu := List.mem_cons.mp hu
    · exact isPart_of_leaf (by rw [hrule]; rfl) hprimary
    · exact List.mem_singleton.mp hu ▸ hkey.isPart
  | dropPrimaryKey _ hchildren =>
    rw [hchildren]
    exact fun u hu => absurd hu List.not_mem_nil
  | dropIndex _ hchildren ha =>
    rw [hchildren]
    exact List.forall_mem_singleton.mpr (ha.isPart rfl)
  | dropColumn _ hchildren ha =>
    rw [hchildren]
    exact List.forall_mem_singleton.mpr (ha.isPart rfl)
  | renameIndex _ hchildren ha hb =>
    rw [hchildren]
    exact List.forall_mem_cons.mpr ⟨ha.isPart rfl, List.forall_mem_singleton.mpr (hb.isPart rfl)⟩
  | changeColumn _ hchildren ha hd hp =>
    rw [hchildren]
    exact List.forall_mem_cons.mpr ⟨ha.isPart rfl, List.forall_mem_cons.mpr ⟨hd.isPart, hp.isPart⟩⟩
  | modifyColumn _ hchildren hd hp =>
    rw [hchildren]
    exact List.forall_mem_cons.mpr ⟨hd.isPart, hp.isPart⟩

/-- The node of an alteration has three levels at most. -/
theorem IsAlteration.shallow {x : Alteration} (h : IsAlteration x marks t) : t.Shallow := by
  intro v hv
  obtain ⟨u, hu, hvu⟩ := List.mem_flatMap.mp hv
  exact ((h.isPart u hu).children v hvu).2

/-! ## Positions -/

/-- A position is read as a move of the column that it is given to. -/
theorem IsPosition.move?_eq {p : Position} {offset : Nat} (h : IsPosition p offset t)
    (hn : n.first? .firstOrAfterColumn = some t) (column : String) :
    n.move? column = some ⟨offset, column, p.place⟩ := by
  rw [Node.move?, hn]
  cases h with
  | first hrule hchildren =>
    have hleaves : Leaves t.children := by
      rw [hchildren]
      exact fun u hu => absurd hu List.not_mem_nil
    have hnone : t.first? .columnName = none := by
      refine first?_eq_none ?_
      rw [all_of_leaves hleaves (by rw [hrule]; decide), hchildren]
      rfl
    simp only [Option.map_some, hnone]
    rfl
  | after hrule hchildren hanchor =>
    have hsome := first?_of_child (n := t) (r := .columnName) (by rw [hrule]; decide)
      (by rw [hchildren]; exact List.find?_cons_of_pos (by simp [hanchor.rule]))
    simp only [Option.map_some, hsome, hanchor.exactText]
    rfl

end AlterTable.Draft
