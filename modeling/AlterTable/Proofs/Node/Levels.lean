import AlterTable.Proofs.Node.Lookup
import Mathlib.Data.List.Range

/-!
# Level order

A tree has levels: the node itself, then its children, then theirs. Breadth-first order is the
levels one after the other, each from left to right. What carries the argument is that a whole
level at the front of a queue is listed before anything else and leaves the next level in the queue
(`breadthFirst_eq`), so the queue goes through the levels until one is empty.

The same node may stand in a tree more than once. Where it stands is its place, the children to go
through on the way down to it, and it is places of which `levelOrdered_all` says that each of them
is listed once, shallower before deeper and left before right.
-/

namespace AlterTable.Node

variable {n t u : Node} {ns queue : List Node} {r : Rule} {d k : Nat} {p q : List Nat}

/-! ## Levels -/

/-- The nodes at a depth of the tree, from left to right. -/
def level : Nat → Node → List Node
  | 0, n => [n]
  | d + 1, n => n.children.flatMap (level d)

mutual

/-- The number of levels of a tree. -/
def height : Node → Nat
  | ⟨_, _, _, children⟩ => heights children + 1

/-- The number of levels of the highest of several trees. -/
def heights : List Node → Nat
  | [] => 0
  | n :: ns => max (height n) (heights ns)

end

/-- The levels of the tree one after the other. -/
def levels (n : Node) : List Node :=
  (List.range n.height).flatMap fun d => level d n

private theorem height_eq (n : Node) : n.height = heights n.children + 1 := by
  cases n
  rfl

private theorem heights_le_iff : heights ns ≤ k ↔ ∀ n ∈ ns, n.height ≤ k := by
  induction ns with
  | nil => simp [heights]
  | cons n ns ih => rw [heights, Nat.max_le, ih, List.forall_mem_cons]

/-- A tree has nodes at the depths below its height, and at no others. -/
theorem level_eq_nil_iff : level d n = [] ↔ n.height ≤ d := by
  induction d generalizing n with
  | zero => simp [level, height_eq]
  | succ d ih =>
    rw [level, List.flatMap_eq_nil_iff, height_eq, Nat.add_le_add_iff_right, heights_le_iff]
    exact forall₂_congr fun _ _ => ih

/-- The next level is made of the children of the level before it. -/
theorem flatMap_children_level (d : Nat) (n : Node) :
    (level d n).flatMap children = level (d + 1) n := by
  induction d generalizing n with
  | zero => simp [level]
  | succ d ih =>
    rw [level, List.flatMap_assoc, level]
    exact List.flatMap_congr fun t _ => ih t

/-- After the levels down to some depth, the level at that depth is left in the queue. -/
theorem nodes_eq_levels_append (n : Node) (k : Nat) :
    n.nodes = ((List.range k).flatMap fun d => level d n) ++ breadthFirst (level k n) := by
  induction k with
  | zero => rfl
  | succ k ih =>
    rw [ih, breadthFirst_eq, flatMap_children_level, List.range_succ, List.flatMap_append,
      List.flatMap_singleton, List.append_assoc]

/-- The search goes through a tree level by level. -/
theorem nodes_eq_levels (n : Node) : n.nodes = n.levels := by
  rw [nodes_eq_levels_append n n.height, level_eq_nil_iff.mpr (Nat.le_refl _), breadthFirst,
    List.append_nil]
  rfl

/-! ## Places -/

/-- The node at a place: at each step down, the child of that number. -/
def nodeAt? : List Nat → Node → Option Node
  | [], n => some n
  | i :: p, n => n.children[i]?.bind (nodeAt? p)

/-- The places at a depth of the tree, from left to right. -/
def places : Nat → Node → List (List Nat)
  | 0, _ => [[]]
  | d + 1, n => n.children.zipIdx.flatMap fun (t, i) => (places d t).map (i :: ·)

/-- One place is shallower than another, or to the left of it at the same depth. -/
def Before (p q : List Nat) : Prop :=
  p.length < q.length ∨ p.length = q.length ∧ p < q

/-- A place at some depth leads to the node that stands there on its level. -/
theorem map_nodeAt?_places (d : Nat) (n : Node) :
    (places d n).map (nodeAt? · n) = (level d n).map some := by
  induction d generalizing n with
  | zero => rfl
  | succ d ih =>
    have hbelow : ∀ child ∈ n.children.zipIdx,
        ((places d child.1).map (child.2 :: ·)).map (nodeAt? · n) =
          (level d child.1).map some := by
      rintro ⟨t, i⟩ hchild
      have ht : n.children[i]? = some t := List.mem_zipIdx_iff_getElem?.mp hchild
      rw [List.map_map, ← ih t]
      refine List.map_congr_left fun p _ => ?_
      rw [Function.comp_apply, nodeAt?, ht, Option.bind_some]
    rw [places, List.map_flatMap, List.flatMap_congr hbelow, level, List.map_flatMap]
    conv_rhs => rw [← List.zipIdx_map_fst 0 n.children, List.flatMap_map]

/-- The places of a tree at a depth are those of that length that lead to a node. -/
theorem mem_places_iff : p ∈ places d n ↔ p.length = d ∧ (nodeAt? p n).isSome := by
  induction d generalizing n p with
  | zero => cases p <;> simp [places, nodeAt?]
  | succ d ih =>
    cases p with
    | nil => simp [places]
    | cons i p =>
      have hstep : i :: p ∈ places (d + 1) n ↔ ∃ t, n.children[i]? = some t ∧ p ∈ places d t := by
        simp only [places, List.mem_flatMap, List.mem_map, List.cons.injEq, Prod.exists,
          List.mem_zipIdx_iff_getElem?]
        constructor
        · rintro ⟨t, j, ht, q, hq, rfl, rfl⟩
          exact ⟨t, ht, hq⟩
        · rintro ⟨t, ht, hp⟩
          exact ⟨t, i, ht, p, hp, rfl, rfl⟩
      rw [hstep, List.length_cons, Nat.add_right_cancel_iff, nodeAt?]
      cases n.children[i]? with
      | none => simp
      | some t => simp [ih]

private theorem pairwise_snd_zipIdx (ns : List Node) (k : Nat) :
    (ns.zipIdx k).Pairwise fun a b => a.2 < b.2 := by
  have hnumbers := List.pairwise_lt_range' (s := k) (n := ns.length)
  rwa [← List.zipIdx_map_snd, List.pairwise_map] at hnumbers

/-- Places at one depth stand from left to right. -/
theorem pairwise_places (d : Nat) (n : Node) : (places d n).Pairwise (· < ·) := by
  induction d generalizing n with
  | zero => exact List.pairwise_singleton _ _
  | succ d ih =>
    refine List.pairwise_flatMap.mpr ⟨?_, ?_⟩
    · rintro ⟨t, i⟩ -
      exact List.pairwise_map.mpr ((ih t).imp List.cons_lt_cons_self.mpr)
    · refine (pairwise_snd_zipIdx n.children 0).imp ?_
      rintro ⟨t, i⟩ ⟨u, j⟩ hij p hp q hq
      obtain ⟨p, -, rfl⟩ := List.mem_map.mp hp
      obtain ⟨q, -, rfl⟩ := List.mem_map.mp hq
      exact .rel hij

/-- The places of the tree, depth after depth. -/
def allPlaces (n : Node) : List (List Nat) :=
  (List.range n.height).flatMap fun d => places d n

/-- The places of a tree, in order, have the nodes that the search goes through. -/
theorem map_nodeAt?_allPlaces (n : Node) : n.allPlaces.map (nodeAt? · n) = n.nodes.map some := by
  rw [nodes_eq_levels, allPlaces, levels, List.map_flatMap, List.map_flatMap]
  exact List.flatMap_congr fun d _ => map_nodeAt?_places d n

/-- The list of places has every place of the tree and no other. -/
theorem mem_allPlaces_iff : p ∈ n.allPlaces ↔ (nodeAt? p n).isSome := by
  simp only [allPlaces, List.mem_flatMap, List.mem_range, mem_places_iff]
  constructor
  · rintro ⟨d, -, -, hp⟩
    exact hp
  · intro hp
    refine ⟨p.length, ?_, rfl, hp⟩
    by_contra hheight
    have hnone : places p.length n = [] := by
      rw [← List.map_eq_nil_iff, map_nodeAt?_places,
        level_eq_nil_iff.mpr (Nat.le_of_not_lt hheight)]
      rfl
    have hmem : p ∈ places p.length n := mem_places_iff.mpr ⟨rfl, hp⟩
    rw [hnone] at hmem
    cases hmem

/-- The list of places has shallower ones first, and those of one level from left to right. -/
theorem pairwise_allPlaces (n : Node) : n.allPlaces.Pairwise Before := by
  refine List.pairwise_flatMap.mpr ⟨fun d _ => ?_, ?_⟩
  · refine (pairwise_places d n).imp_of_mem fun hp hq hlt => .inr ⟨?_, hlt⟩
    rw [(mem_places_iff.mp hp).1, (mem_places_iff.mp hq).1]
  · refine List.pairwise_lt_range.imp fun hlt p hp q hq => .inl ?_
    rwa [(mem_places_iff.mp hp).1, (mem_places_iff.mp hq).1]

/-! ## Looking up -/

/-- The first node of the rule that has its turn in the queue, where the search stops. -/
def search (r : Rule) : List Node → Option Node
  | [] => none
  | n :: queue => if n.rule = r then some n else search r (queue ++ n.children)
termination_by queue => sizes queue
decreasing_by simp [sizes, size_eq]; omega

/-- Stopping early finds what a search to the end finds first. -/
theorem search_eq (r : Rule) (queue : List Node) :
    search r queue = (breadthFirst queue).find? (·.rule == r) := by
  fun_induction search r queue with
  | case1 => rw [breadthFirst, List.find?_nil]
  | case2 n queue hn => rw [breadthFirst, List.find?_cons_of_pos (by simpa using hn)]
  | case3 n queue hn ih => rw [ih, breadthFirst, List.find?_cons_of_neg (by simpa using hn)]

/-- The nodes found are those of the rule on the levels of the tree, level by level. Each place of
such a node is gone to once, shallower before deeper and left before right. -/
structure LevelOrdered (n : Node) (r : Rule) (found : List Node) : Prop where
  levels : found = n.levels.filter (·.rule == r)
  places : ∃ ps : List (List Nat), ps.Pairwise Before ∧
    (∀ p, p ∈ ps ↔ ∃ u, nodeAt? p n = some u ∧ u.rule = r) ∧
    ps.map (nodeAt? · n) = found.map some

/-- The nodes of a rule are found level by level, and the first of them is found first. -/
theorem levelOrdered_all (n : Node) (r : Rule) :
    LevelOrdered n r (n.all r) ∧ (∀ d, level d n = [] ↔ n.height ≤ d) ∧
      n.first? r = search r [n] ∧ n.first? r = (n.all r).head? ∧
      (n.first? r = none ↔ n.all r = []) := by
  refine ⟨⟨?_, ?_⟩, fun d => level_eq_nil_iff, (search_eq r [n]).symm, first?_eq_head?_all n r, ?_⟩
  · rw [all, nodes_eq_levels]
  · have hfound : (n.allPlaces.filter fun p => (nodeAt? p n).any (·.rule == r)).map (nodeAt? · n) =
        (n.all r).map some :=
      calc (n.allPlaces.filter fun p => (nodeAt? p n).any (·.rule == r)).map (nodeAt? · n)
          = (n.allPlaces.map (nodeAt? · n)).filter (·.any (·.rule == r)) := by
            rw [List.filter_map]
            rfl
        _ = (n.nodes.map some).filter (·.any (·.rule == r)) := by rw [map_nodeAt?_allPlaces]
        _ = (n.all r).map some := List.filter_map
    refine ⟨_, (pairwise_allPlaces n).filter _, fun p => ?_, hfound⟩
    rw [List.mem_filter, mem_allPlaces_iff]
    cases nodeAt? p n <;> simp
  · rw [first?_eq_head?_all, List.head?_eq_none_iff]

/-- A name right below a node comes before one further down that is written in front of it. -/
example :
    (Node.all { rule := .changeColumn, children :=
      [{ rule := .columnDefinition, children := [{ rule := .columnName, text := "a" }] },
       { rule := .columnName, text := "b" }] } .columnName).map text = ["b", "a"] := by
  decide +kernel

end AlterTable.Node
