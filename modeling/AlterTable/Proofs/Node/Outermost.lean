import AlterTable.Proofs.Node.Lookup

/-!
# Nodes in written order

The nodes of a rule from left to right, and those at the end of a path of rules. Where a rule does
not nest, they are what breadth-first lookup finds.
-/

namespace AlterTable.Node

/-!
## Outermost nodes

The nodes of a rule in the order in which they are written, which is depth first and from left to
right. A node inside another one of the same rule is left out. Where a rule does not nest, these are
the nodes that breadth-first lookup finds, perhaps in another order.
-/

section

mutual

/-- The outermost nodes of the rule in a tree, from left to right. -/
def outermost (r : Rule) : Node → List Node
  | ⟨rule, text, start, children⟩ =>
    if rule = r then [⟨rule, text, start, children⟩] else outermosts r children

/-- The outermost nodes of the rule in several trees, from left to right. -/
def outermosts (r : Rule) : List Node → List Node
  | [] => []
  | n :: ns => outermost r n ++ outermosts r ns

end

variable {n p : Node} {r : Rule} {front place ns ms : List Node}

/-- Outermost nodes of a list are those of its nodes, one after the other. -/
theorem outermosts_eq_flatMap (r : Rule) (ns : List Node) :
    outermosts r ns = ns.flatMap (outermost r) := by
  induction ns with
  | nil => rfl
  | cons n ns ih => rw [outermosts, ih, List.flatMap_cons]

/-- Outermost nodes of two lists are those of the first and then those of the second. -/
theorem outermosts_append (r : Rule) (ns ms : List Node) :
    outermosts r (ns ++ ms) = outermosts r ns ++ outermosts r ms := by
  rw [outermosts_eq_flatMap, outermosts_eq_flatMap, outermosts_eq_flatMap, List.flatMap_append]

/-- A node of the rule is the outermost one in itself. -/
theorem outermost_of_rule (h : n.rule = r) : n.outermost r = [n] := by
  obtain ⟨rule, text, start, children⟩ := n
  rw [outermost, if_pos h]

/-- In a node of another rule the outermost ones are those of its children. -/
theorem outermost_of_ne (h : n.rule ≠ r) : n.outermost r = outermosts r n.children := by
  obtain ⟨rule, text, start, children⟩ := n
  rw [outermost, if_neg h]

/-! ### Where a rule does not occur -/

/-- No node in the trees has the rule. -/
def Free (r : Rule) (ns : List Node) : Prop :=
  ∀ t ∈ ns, ∀ u : Node, u.Within t → u.rule ≠ r

/-- Without nodes there is none of the rule. -/
theorem free_nil : Free r [] :=
  fun _ ht => absurd ht List.not_mem_nil

private theorem free_append : Free r (ns ++ ms) ↔ Free r ns ∧ Free r ms :=
  List.forall_mem_append

private theorem Free.below (h : Free r ns) (hn : n ∈ ns) : Free r n.children :=
  fun _ ht u hu => h n hn u (.under ht hu)

/-- Where there is none of the rule, none is found. -/
theorem Free.all_eq_nil (h : Free r n.children) (hn : n.rule ≠ r) : n.all r = [] := by
  refine List.eq_nil_iff_forall_not_mem.mpr fun u hu => ?_
  obtain ⟨hwithin, hur⟩ := mem_all_iff.mp hu
  rcases within_iff.mp hwithin with rfl | ⟨t, ht, hut⟩
  · exact hn hur
  · exact h t ht u hut hur

/-- There are no outermost nodes either. -/
theorem Free.outermosts_eq_nil : ∀ {ns : List Node}, Free r ns → outermosts r ns = []
  | [], _ => rfl
  | n :: ns, h => by
    have hns : Free r ns := fun t ht => h t (List.mem_cons_of_mem _ ht)
    have hbelow : Free r n.children := h.below List.mem_cons_self
    rw [outermosts, outermost_of_ne (h n List.mem_cons_self n .self), hbelow.outermosts_eq_nil,
      hns.outermosts_eq_nil]
    rfl
termination_by ns => sizes ns
decreasing_by
  all_goals
    simp only [sizes, size_eq]
    omega

/-! ### Where a rule occurs at most once -/

/-- Of the trees one has the rule, if any, and no other node in them. -/
inductive Sole (r : Rule) : List Node → Option Node → Prop
  | none {ns : List Node} : Free r ns → Sole r ns none
  | some {front : List Node} {p : Node} {back : List Node} : Free r front → p.rule = r →
      Free r p.children → Free r back → Sole r (front ++ p :: back) (some p)

variable {o : Option Node}

/-- A sole node stays the sole one behind nodes that have none of the rule. -/
theorem Sole.behind_free (h : Sole r ns o) (hms : Free r ms) : Sole r (ms ++ ns) o := by
  cases h with
  | none hns => exact .none (free_append.mpr ⟨hms, hns⟩)
  | some hfront hp hbelow hback =>
    rw [← List.append_assoc]
    exact .some (free_append.mpr ⟨hms, hfront⟩) hp hbelow hback

/-- A sole node stays the sole one before nodes that have none of the rule. -/
theorem Sole.before_free (h : Sole r ns o) (hms : Free r ms) : Sole r (ns ++ ms) o := by
  cases h with
  | none hns => exact .none (free_append.mpr ⟨hns, hms⟩)
  | some hfront hp hbelow hback =>
    rw [List.append_assoc, List.cons_append]
    exact .some hfront hp hbelow (free_append.mpr ⟨hback, hms⟩)

private theorem Free.filter_eq_nil (h : Free r ns) : ns.filter (·.rule == r) = [] :=
  List.filter_eq_nil_iff.mpr fun t ht => by simpa using h t ht t .self

private theorem Free.flatMap_children (h : Free r ns) : Free r (ns.flatMap children) := by
  intro t ht
  obtain ⟨n, hn, htn⟩ := List.mem_flatMap.mp ht
  exact h.below hn t htn

/-- The one node of the rule is the only one that is found. -/
theorem Sole.all_eq (h : Sole r n.children o) (hn : n.rule ≠ r) : n.all r = o.toList := by
  generalize hchildren : n.children = ns at h
  cases h with
  | none hns =>
    subst hchildren
    exact hns.all_eq_nil hn
  | @some front p back hfront hp hbelow hback =>
    have hdeeper : Free r (n.children.flatMap children) := by
      rw [hchildren, List.flatMap_append, List.flatMap_cons]
      exact free_append.mpr ⟨hfront.flatMap_children,
        free_append.mpr ⟨hbelow, hback.flatMap_children⟩⟩
    rw [all_of_children hn, hchildren, List.filter_append, hfront.filter_eq_nil,
      List.filter_cons_of_pos (by simpa using hp), hback.filter_eq_nil]
    · rfl
    · intro u hu
      obtain ⟨t, ht, hut⟩ := mem_breadthFirst_iff.mp hu
      exact hdeeper t ht u hut

/-- A sole node is the first one that is found. -/
theorem Sole.first?_eq (h : Sole r n.children o) (hn : n.rule ≠ r) : n.first? r = o := by
  rw [first?_eq_head?_all, h.all_eq hn]
  cases o <;> rfl

/-- A sole node is the outermost one. -/
theorem Sole.outermost_eq (h : Sole r n.children o) (hn : n.rule ≠ r) :
    n.outermost r = o.toList := by
  rw [outermost_of_ne hn]
  generalize n.children = ns at h
  cases h with
  | none hns => exact hns.outermosts_eq_nil
  | some hfront hp hbelow hback =>
    rw [outermosts_append, outermosts, hfront.outermosts_eq_nil, outermost_of_rule hp,
      hback.outermosts_eq_nil]
    rfl

end

/-!
## Nodes at the end of a path

A path of rules leads from a node to the nodes below it that are reached through nodes of these
rules. Where a rule does not occur but at the end of one path, looking it up breadth first is
following that path: `Sole.names_cons` for a rule that occurs at most once, and `all_of_flat` for
one that occurs right below a node only.
-/

section

variable {n t u : Node} {r : Rule} {path : List Rule} {o : Option Node} {ns front back : List Node}

/-- The nodes to which the path leads, in written order. -/
def along : List Rule → Node → List Node
  | [], n => [n]
  | r :: path, n => (n.children.filter (·.rule == r)).flatMap (along path)

/-- The names to which the path leads. -/
def names (path : List Rule) (n : Node) : List String :=
  (n.along path).map exactText

/-- Along a path of one rule stand the children of the rule. -/
theorem along_singleton (r : Rule) (n : Node) :
    n.along [r] = n.children.filter (·.rule == r) :=
  List.flatMap_singleton' _

/-- Names along a path are those further along it in the children of its first rule. -/
theorem names_cons (r : Rule) (path : List Rule) (n : Node) :
    n.names (r :: path) = (n.children.filter (·.rule == r)).flatMap (names path) := by
  rw [names, along, List.map_flatMap]
  rfl

/-- Names along a path of one rule are those of the children of the rule. -/
theorem names_singleton (r : Rule) (n : Node) :
    n.names [r] = (n.children.filter (·.rule == r)).map exactText := by
  rw [names, along_singleton]

/-- One step on the way. -/
theorem mem_along_cons (ht : t ∈ n.children) (hu : u ∈ t.along path) :
    u ∈ n.along (t.rule :: path) :=
  List.mem_flatMap.mpr ⟨t, List.mem_filter.mpr ⟨ht, beq_self_eq_true _⟩, hu⟩

/-- The last rule of the path is that of the nodes at its end. -/
theorem rule_of_mem_along (h : u ∈ n.along path) :
    (n.rule :: path).getLast? = some u.rule := by
  induction path generalizing n with
  | nil =>
    obtain rfl := List.mem_singleton.mp h
    rfl
  | cons r path ih =>
    obtain ⟨t, ht, hu⟩ := List.mem_flatMap.mp h
    obtain rfl : t.rule = r := by simpa using (List.mem_filter.mp ht).2
    rw [List.getLast?_cons_cons]
    exact ih hu

/-! ### Rules that occur at most once -/

/-- The children of the rule are the sole node, if there is one. -/
theorem Sole.filter_eq (h : Sole r ns o) : ns.filter (·.rule == r) = o.toList := by
  cases h with
  | none hns => exact hns.filter_eq_nil
  | some hfront hp _ hback =>
    rw [List.filter_append, hfront.filter_eq_nil, List.filter_cons_of_pos (by simpa using hp),
      hback.filter_eq_nil]
    rfl

/-- The sole node is one of the nodes themselves. -/
theorem Sole.mem (h : Sole r ns (Option.some u)) : u ∈ ns := by
  have hmem : u ∈ ns.filter (·.rule == r) := by
    rw [h.filter_eq]
    exact List.mem_singleton_self _
  exact (List.mem_filter.mp hmem).1

/-- The sole node is of the rule. -/
theorem Sole.rule_eq (h : Sole r ns (Option.some u)) : u.rule = r := by
  cases h
  assumption

/-- Names along a path through a sole node are those further along it in this node. -/
theorem Sole.names_cons (h : Sole r n.children o) (path : List Rule) :
    n.names (r :: path) = o.toList.flatMap (names path) := by
  rw [Node.names_cons, h.filter_eq]

/-- A part that is there and occurs at most once occurs once. -/
theorem Sole.eq_some (h : Sole r n.children o) (hn : n.rule ≠ r) (hu : u.Within n)
    (hur : u.rule = r) : o = Option.some u := by
  have hmem : u ∈ n.all r := mem_all_iff.mpr ⟨hu, hur⟩
  rw [h.all_eq hn] at hmem
  exact (Option.mem_toList.mp hmem)

/-! ### Rules that occur right below a node only -/

/-- If the rule stands right below a node or not at all, its nodes are the children of the rule. -/
theorem all_of_flat (hn : n.rule ≠ r) (h : ∀ t ∈ n.children, Free r t.children) :
    n.all r = n.along [r] := by
  rw [along_singleton]
  refine all_of_children hn fun u hu => ?_
  obtain ⟨s, hs, hus⟩ := mem_breadthFirst_iff.mp hu
  obtain ⟨t, ht, hst⟩ := List.mem_flatMap.mp hs
  exact h t ht s hst u hus

end

end AlterTable.Node
