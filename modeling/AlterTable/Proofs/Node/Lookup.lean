import AlterTable.Reader

/-!
# Looking up

What breadth-first lookup finds: in shallow trees the order can be written down, and in any tree the
nodes that stand somewhere in it are reached and no others.
-/

namespace AlterTable.Node

/-!
## Looking up in shallow trees

Breadth-first order is level by level: first the trees of a queue, then their children. So where a
node has no more than two levels below it, the order can be written down, and looking up a rule is
looking through the levels one after the other.
-/

section

variable {n t : Node} {r : Rule} {queue front back : List Node}

/-! ### Levels -/

/-- The front of a queue is listed before anything that comes from it. -/
theorem breadthFirst_append (front back : List Node) :
    breadthFirst (front ++ back) = front ++ breadthFirst (back ++ front.flatMap children) := by
  induction front generalizing back with
  | nil => simp
  | cons n front ih =>
    rw [List.cons_append, breadthFirst, List.append_assoc, ih, List.append_assoc,
      List.flatMap_cons, List.cons_append]

/-- Level by level. -/
theorem breadthFirst_eq (queue : List Node) :
    breadthFirst queue = queue ++ breadthFirst (queue.flatMap children) := by
  have h := breadthFirst_append queue []
  rwa [List.append_nil, List.nil_append] at h

private theorem nodes_eq (n : Node) : n.nodes = n :: breadthFirst n.children := by
  rw [nodes, breadthFirst, List.nil_append]

/-- No node of the list has anything below it. -/
def Leaves (queue : List Node) : Prop :=
  ∀ t ∈ queue, t.children = []

/-- Leaves are searched one by one. -/
theorem breadthFirst_of_leaves (h : Leaves queue) : breadthFirst queue = queue := by
  have hnone : queue.flatMap children = [] := List.flatMap_eq_nil_iff.mpr h
  rw [breadthFirst_eq, hnone, breadthFirst, List.append_nil]

/-- There are at most two levels below the node. -/
def Shallow (n : Node) : Prop :=
  Leaves (n.children.flatMap children)

private theorem nodes_of_leaves (h : Leaves n.children) : n.nodes = n :: n.children := by
  rw [nodes_eq, breadthFirst_of_leaves h]

private theorem nodes_of_shallow (h : n.Shallow) :
    n.nodes = n :: (n.children ++ n.children.flatMap children) := by
  rw [nodes_eq, breadthFirst_eq, breadthFirst_of_leaves h]

/-! ### Looking up -/

/-- A node is found by its own rule before anything below it. -/
theorem first?_self (hn : n.rule = r) : n.first? r = some n := by
  rw [first?, nodes_eq, List.find?_cons_of_pos (by simpa using hn)]

/-- What stands right below a node is found before what is further down. -/
theorem first?_of_child (hn : n.rule ≠ r) (h : n.children.find? (·.rule == r) = some t) :
    n.first? r = some t := by
  rw [first?, nodes_eq, List.find?_cons_of_neg (by simpa using hn), breadthFirst_eq,
    List.find?_append, h, Option.some_or]

/-- In a node over leaves the nodes of a rule are its children of the rule. -/
theorem all_of_leaves (h : Leaves n.children) (hn : n.rule ≠ r) :
    n.all r = n.children.filter (·.rule == r) := by
  rw [all, nodes_of_leaves h, List.filter_cons_of_neg (by simpa using hn)]

/-- In a node of three levels the nodes of a rule are found among its children and then among
theirs. -/
theorem all_of_shallow (h : n.Shallow) (hn : n.rule ≠ r) : n.all r =
    n.children.filter (·.rule == r) ++ (n.children.flatMap children).filter (·.rule == r) := by
  rw [all, nodes_of_shallow h, List.filter_cons_of_neg (by simpa using hn), List.filter_append]

/-- Where nothing further down has the rule, only what stands right below a node is found. -/
theorem all_of_children (hn : n.rule ≠ r)
    (h : ∀ t ∈ breadthFirst (n.children.flatMap children), t.rule ≠ r) :
    n.all r = n.children.filter (·.rule == r) := by
  have hnone : (breadthFirst (n.children.flatMap children)).filter (·.rule == r) = [] :=
    List.filter_eq_nil_iff.mpr fun t ht => by simpa using h t ht
  rw [all, nodes_eq, List.filter_cons_of_neg (by simpa using hn), breadthFirst_eq,
    List.filter_append, hnone, List.append_nil]

/-- A part is there just if the search finds one. -/
theorem hasPart_iff : n.hasPart r = true ↔ n.all r ≠ [] := by
  rw [hasPart, first?_eq_head?_all, List.isSome_head?]

/-- A rule that occurs on none of the levels is not found. -/
theorem first?_eq_none (h : n.all r = []) : n.first? r = none := by
  rw [first?_eq_head?_all, h]
  rfl

end

/-!
## Nodes at any depth

Which nodes stand in a tree, said without an order of looking at them, and that breadth-first
lookup reaches all of these and no others. So a part that stands anywhere in a node is found there,
and what is found stands there.
-/

section

/-- The node `u` is the tree `n` or stands somewhere below it. -/
inductive Within (u : Node) : Node → Prop
  | self : Within u u
  | under {n t : Node} : t ∈ n.children → Within u t → Within u n

variable {n t u v : Node} {r : Rule} {queue : List Node}

/-- A node stands in another one if it is this one or stands in one of its children. -/
theorem within_iff : u.Within n ↔ u = n ∨ ∃ t ∈ n.children, u.Within t := by
  constructor
  · intro h
    cases h with
    | self => exact .inl rfl
    | under ht hu => exact .inr ⟨_, ht, hu⟩
  · rintro (rfl | ⟨t, ht, hu⟩)
    · exact .self
    · exact .under ht hu

/-- What stands in a part stands in the whole. -/
theorem Within.trans (h : v.Within u) (h' : u.Within n) : v.Within n := by
  induction h' with
  | self => exact h
  | under ht _ ih => exact .under ht ih

/-- Children stand in their node. -/
theorem within_of_mem_children (h : t ∈ n.children) : t.Within n :=
  .under h .self

/-! ### Looking up -/

/-- A queue leads to the nodes that stand in one of its trees. -/
theorem mem_breadthFirst_iff : u ∈ breadthFirst queue ↔ ∃ t ∈ queue, u.Within t := by
  fun_induction breadthFirst queue with
  | case1 => simp
  | case2 n queue ih =>
    simp only [List.mem_cons, ih, exists_eq_or_imp, within_iff (n := n), or_assoc]
    refine or_congr_right ?_
    constructor
    · rintro ⟨t, ht, hu⟩
      rcases List.mem_append.mp ht with ht | ht
      · exact .inr ⟨t, ht, hu⟩
      · exact .inl ⟨t, ht, hu⟩
    · rintro (⟨t, ht, hu⟩ | ⟨t, ht, hu⟩)
      · exact ⟨t, List.mem_append_right _ ht, hu⟩
      · exact ⟨t, List.mem_append_left _ ht, hu⟩

/-- The search finds every node of the rule that stands in the node, and no other. -/
theorem mem_all_iff : u ∈ n.all r ↔ u.Within n ∧ u.rule = r := by
  simp only [all, nodes, List.mem_filter, mem_breadthFirst_iff, List.mem_singleton,
    exists_eq_left, beq_iff_eq]

/-- What is found first is one of the nodes that are found. -/
theorem within_of_first? (h : n.first? r = some u) : u.Within n ∧ u.rule = r := by
  rw [first?_eq_head?_all] at h
  exact mem_all_iff.mp (List.mem_of_mem_head? h)

/-- A part that stands somewhere in the node is found, though another one may come first. -/
theorem Within.exists_first? (h : u.Within n) (hr : u.rule = r) :
    ∃ v, n.first? r = some v ∧ v.Within n ∧ v.rule = r := by
  have hmem : u ∈ n.all r := mem_all_iff.mpr ⟨h, hr⟩
  cases hfirst : n.first? r with
  | none =>
    rw [first?_eq_head?_all, List.head?_eq_none_iff] at hfirst
    rw [hfirst] at hmem
    cases hmem
  | some v => exact ⟨v, rfl, within_of_first? hfirst⟩

end

end AlterTable.Node
