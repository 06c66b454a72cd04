import AlterTable.Proofs.Draft.Facts
import AlterTable.Proofs.Statement.Gathering

/-!
# Trees with other offsets

A tree whose offsets are all changed in one way says the same as before. What is looked up in it is
what was looked up, with other offsets, and only moves tell the difference: their offsets are
changed in the same way.
-/

namespace AlterTable

/-! ## Trees -/

namespace Node

mutual

/-- The tree with other offsets. -/
def mapStart (f : Nat → Nat) : Node → Node
  | ⟨rule, text, start, children⟩ => ⟨rule, text, f start, mapStarts f children⟩

/-- The trees with other offsets. -/
def mapStarts (f : Nat → Nat) : List Node → List Node
  | [] => []
  | n :: ns => mapStart f n :: mapStarts f ns

end

/-- Offsets in a list of nodes are changed node by node. -/
theorem mapStarts_eq_map (f : Nat → Nat) (ns : List Node) :
    mapStarts f ns = ns.map (mapStart f) := by
  induction ns with
  | nil => rfl
  | cons n ns ih => rw [mapStarts, ih, List.map_cons]

/-- A node with other offsets keeps its rule. -/
@[simp] theorem rule_mapStart (f : Nat → Nat) (n : Node) : (n.mapStart f).rule = n.rule := by
  cases n
  rfl

/-- A node with other offsets keeps its text. -/
@[simp] theorem text_mapStart (f : Nat → Nat) (n : Node) : (n.mapStart f).text = n.text := by
  cases n
  rfl

/-- The offset of a node is changed like all others. -/
@[simp] theorem start_mapStart (f : Nat → Nat) (n : Node) : (n.mapStart f).start = f n.start := by
  cases n
  rfl

/-- The children get their new offsets one by one. -/
@[simp] theorem children_mapStart (f : Nat → Nat) (n : Node) :
    (n.mapStart f).children = n.children.map (mapStart f) := by
  cases n
  exact mapStarts_eq_map f _

/-- What a node says of its name does not depend on offsets. -/
@[simp] theorem exactText_mapStart (f : Nat → Nat) (n : Node) :
    (n.mapStart f).exactText = n.exactText := by
  rw [exactText, exactText, text_mapStart]

/-! ## Comparing trees -/

mutual

/-- Trees can be compared. -/
def decEq : (n m : Node) → Decidable (n = m)
  | ⟨rule, text, start, children⟩, ⟨rule', text', start', children'⟩ =>
    have := decEqs children children'
    decidable_of_iff (rule = rule' ∧ text = text' ∧ start = start' ∧ children = children')
      (by rw [mk.injEq])

/-- Lists of trees can be compared. -/
def decEqs : (ns ms : List Node) → Decidable (ns = ms)
  | [], [] => isTrue rfl
  | [], _ :: _ => isFalse nofun
  | _ :: _, [] => isFalse nofun
  | n :: ns, m :: ms =>
    have := decEq n m
    have := decEqs ns ms
    decidable_of_iff (n = m ∧ ns = ms) (by rw [List.cons.injEq])

end

instance : DecidableEq Node :=
  decEq

/-! ## Looking up -/

/-- The search finds the same nodes, with their new offsets. -/
theorem breadthFirst_mapStart (f : Nat → Nat) (queue : List Node) :
    breadthFirst (queue.map (mapStart f)) = (breadthFirst queue).map (mapStart f) := by
  fun_induction breadthFirst queue with
  | case1 => rw [List.map_nil, breadthFirst]
  | case2 n queue ih =>
    rw [List.map_cons, breadthFirst, children_mapStart, ← List.map_append, ih, List.map_cons]

/-- Nodes of a rule are picked out before or after offsets change. -/
theorem filter_rule_mapStart (f : Nat → Nat) (r : Rule) (ns : List Node) :
    (ns.map (mapStart f)).filter (·.rule == r) = (ns.filter (·.rule == r)).map (mapStart f) := by
  rw [List.filter_map]
  refine congrArg (List.map _) (List.filter_congr fun n _ => ?_)
  rw [Function.comp_apply, rule_mapStart]

/-- All nodes of a rule are found as before. -/
@[simp] theorem all_mapStart (f : Nat → Nat) (n : Node) (r : Rule) :
    (n.mapStart f).all r = (n.all r).map (mapStart f) := by
  have hnodes := breadthFirst_mapStart f [n]
  rw [all, all, nodes, nodes, ← filter_rule_mapStart, ← hnodes]
  rfl

/-- The first node of a rule is found as before. -/
@[simp] theorem first?_mapStart (f : Nat → Nat) (n : Node) (r : Rule) :
    (n.mapStart f).first? r = (n.first? r).map (mapStart f) := by
  rw [first?_eq_head?_all, first?_eq_head?_all, all_mapStart, List.head?_map]

/-- A required part is found or missing as before. -/
@[simp] theorem require_mapStart (f : Nat → Nat) (n : Node) (r : Rule) :
    (n.mapStart f).require r = (n.require r).map (mapStart f) := by
  rw [require, require, first?_mapStart, rule_mapStart]
  cases n.first? r <;> rfl

/-- A part is there or not, whatever the offsets. -/
@[simp] theorem hasPart_mapStart (f : Nat → Nat) (n : Node) (r : Rule) :
    (n.mapStart f).hasPart r = n.hasPart r := by
  rw [hasPart, hasPart, first?_mapStart, Option.isSome_map]

/-! ## Reading nodes -/

private theorem map_exactText_mapStart (f : Nat → Nat) (ns : List Node) :
    (ns.map (mapStart f)).map exactText = ns.map exactText := by
  rw [List.map_map]
  exact List.map_congr_left fun n _ => exactText_mapStart f n

/-- The columns of a key do not depend on offsets. -/
@[simp] theorem keyColumns_mapStart (f : Nat → Nat) (n : Node) :
    (n.mapStart f).keyColumns = n.keyColumns := by
  rw [keyColumns, keyColumns, first?_mapStart]
  cases n.first? .keyParts with
  | none => rfl
  | some parts =>
    show ((parts.mapStart f).all .columnName).map exactText = _
    rw [all_mapStart, map_exactText_mapStart]

/-- What goes on with a part, goes on with it in the same way wherever the part stands. -/
theorem bind_map_congr {ε α β : Type} {g : α → α} {k k' : α → Except ε β} (x : Except ε α)
    (h : ∀ a, k (g a) = k' a) : (x.map g).bind k = x.bind k' := by
  cases x with
  | error e => rfl
  | ok a => exact h a

/-- What a definition says does not depend on offsets. -/
@[simp] theorem columnDefinition_mapStart (f : Nat → Nat) (n : Node) :
    (n.mapStart f).columnDefinition = n.columnDefinition := by
  rw [columnDefinition, columnDefinition, require_mapStart]
  refine bind_map_congr _ fun definition => ?_
  rw [require_mapStart]
  refine bind_map_congr _ fun column => ?_
  rw [require_mapStart]
  refine bind_map_congr _ fun type => ?_
  simp only [exactText_mapStart, text_mapStart, hasPart_mapStart]

end Node

/-! ## Moves and facts -/

/-- The move with another offset. -/
def Move.mapOffset (f : Nat → Nat) (m : Move) : Move :=
  { m with offset := f m.offset }

/-- The fact with other offsets. -/
def Fact.mapOffset (f : Nat → Nat) : Fact → Fact
  | .addColumn definition move => .addColumn definition (move.map (Move.mapOffset f))
  | .changeColumn change move => .changeColumn change (move.map (Move.mapOffset f))
  | fact => fact

namespace Fact

/-- Added columns have no offsets. -/
@[simp] theorem added_mapOffset (f : Nat → Nat) (fact : Fact) :
    (fact.mapOffset f).added = fact.added := by
  cases fact <;> rfl

/-- Changed columns have no offsets. -/
@[simp] theorem changed_mapOffset (f : Nat → Nat) (fact : Fact) :
    (fact.mapOffset f).changed = fact.changed := by
  cases fact <;> rfl

/-- Dropped columns have no offsets. -/
@[simp] theorem dropped_mapOffset (f : Nat → Nat) (fact : Fact) :
    (fact.mapOffset f).dropped = fact.dropped := by
  cases fact <;> rfl

/-- Added indexes have no offsets. -/
@[simp] theorem addedIndex_mapOffset (f : Nat → Nat) (fact : Fact) :
    (fact.mapOffset f).addedIndex = fact.addedIndex := by
  cases fact <;> rfl

/-- Dropped indexes have no offsets. -/
@[simp] theorem droppedIndex_mapOffset (f : Nat → Nat) (fact : Fact) :
    (fact.mapOffset f).droppedIndex = fact.droppedIndex := by
  cases fact <;> rfl

/-- Renamed indexes have no offsets. -/
@[simp] theorem renamedIndex_mapOffset (f : Nat → Nat) (fact : Fact) :
    (fact.mapOffset f).renamedIndex = fact.renamedIndex := by
  cases fact <;> rfl

/-- The columns of an added primary key have no offsets. -/
@[simp] theorem addedKey_mapOffset (f : Nat → Nat) (fact : Fact) :
    (fact.mapOffset f).addedKey = fact.addedKey := by
  cases fact <;> rfl

/-- The moves of a fact get their new offsets. -/
@[simp] theorem moves_mapOffset (f : Nat → Nat) (fact : Fact) :
    (fact.mapOffset f).moves = fact.moves.map (Move.mapOffset f) := by
  rcases fact with _ | ⟨_, _ | _⟩ | ⟨_, _ | _⟩ | _ | _ | _ | _ | _ | _ <;> rfl

end Fact

/-- A position is read as before, with its new offset. -/
@[simp] theorem Node.move?_mapStart (f : Nat → Nat) (n : Node) (column : String) :
    (n.mapStart f).move? column = (n.move? column).map (Move.mapOffset f) := by
  rw [Node.move?, Node.move?, Node.first?_mapStart]
  cases n.first? .firstOrAfterColumn with
  | none => rfl
  | some position =>
    rw [Option.map_some, Option.map_some, Option.map_some, Node.first?_mapStart,
      Node.start_mapStart]
    cases position.first? .columnName with
    | none => rfl
    | some anchor =>
      show some (Move.mk _ _ (.after (anchor.mapStart f).exactText)) = _
      rw [Node.exactText_mapStart]
      rfl

namespace Clause

open AlterTable.Draft (findingsIn)
open AlterTable.Node

/-- The finding with other offsets. -/
abbrev mapOffset (f : Nat → Nat) (finding : Finding) : Finding :=
  finding.map (Fact.mapOffset f)

/-- Added columns are read as before, with the new offsets of their moves. -/
@[simp] theorem findAdded_mapStart (f : Nat → Nat) (n : Node) :
    findAdded (n.mapStart f) = (findAdded n).map (mapOffset f) := by
  rw [findAdded, findAdded, all_mapStart]
  rcases n.all .columnDefinition with _ | ⟨single, _ | ⟨second, others⟩⟩
  · rfl
  · show [Except.bind (single.mapStart f).columnDefinition _] =
      [mapOffset f (Except.bind single.columnDefinition _)]
    rw [columnDefinition_mapStart]
    cases single.columnDefinition with
    | error e => rfl
    | ok column =>
      show [Except.ok (Fact.addColumn column ((n.mapStart f).move? column.name))] = _
      rw [move?_mapStart]
      rfl
  · show List.map _ ((single :: second :: others).map (mapStart f)) =
      ((single :: second :: others).map _).map (mapOffset f)
    rw [List.map_map, List.map_map]
    refine List.map_congr_left fun node _ => ?_
    show Except.bind (node.mapStart f).columnDefinition _ =
      mapOffset f (Except.bind node.columnDefinition _)
    rw [columnDefinition_mapStart]
    cases node.columnDefinition <;> rfl

/-- An added index is read as before. -/
@[simp] theorem findIndex_mapStart (f : Nat → Nat) (n : Node) :
    findIndex (n.mapStart f) = mapOffset f (findIndex n) := by
  rw [findIndex, findIndex, keyColumns_mapStart, first?_mapStart, hasPart_mapStart, Option.map_map]
  have hname : exactText ∘ mapStart f = exactText := funext (exactText_mapStart f)
  rw [hname]
  cases ((n.first? .indexName).map exactText).or n.keyColumns.head? <;> rfl

/-- A renamed index is read as before. -/
@[simp] theorem findRename_mapStart (f : Nat → Nat) (n : Node) :
    findRename (n.mapStart f) = mapOffset f (findRename n) := by
  rw [findRename, findRename, all_mapStart]
  rcases n.all .indexName with _ | ⟨old, _ | ⟨new, _ | ⟨third, others⟩⟩⟩
  · rfl
  · rfl
  · show Except.ok (Fact.renameIndex ⟨(old.mapStart f).exactText, (new.mapStart f).exactText⟩) = _
    rw [exactText_mapStart, exactText_mapStart]
    rfl
  · rfl

/-- A primary key is read as before. -/
@[simp] theorem findPrimaryKey_mapStart (f : Nat → Nat) (r : Rule) (n : Node) :
    findPrimaryKey r (n.mapStart f) = (findPrimaryKey r n).map (mapOffset f) := by
  rw [findPrimaryKey, findPrimaryKey, hasPart_mapStart, keyColumns_mapStart]
  split
  · split <;> rfl
  · rfl

/-- A changed column is read as before, with the new offset of its move. -/
@[simp] theorem findChanged_mapStart (f : Nat → Nat) (n : Node) :
    findChanged (n.mapStart f) = mapOffset f (findChanged n) := by
  rw [findChanged, findChanged, require_mapStart]
  cases n.require .columnName with
  | error e => rfl
  | ok old =>
    show Except.bind (n.mapStart f).columnDefinition _ =
      mapOffset f (Except.bind n.columnDefinition _)
    rw [columnDefinition_mapStart]
    cases n.columnDefinition with
    | error e => rfl
    | ok column =>
      show Except.ok (Fact.changeColumn ⟨(old.mapStart f).exactText, column⟩
        ((n.mapStart f).move? column.name)) = _
      rw [exactText_mapStart, move?_mapStart]
      rfl

/-- A modified column is read as before, with the new offset of its move. -/
@[simp] theorem findModified_mapStart (f : Nat → Nat) (n : Node) :
    findModified (n.mapStart f) = mapOffset f (findModified n) := by
  rw [findModified, findModified, columnDefinition_mapStart]
  cases n.columnDefinition with
  | error e => rfl
  | ok column =>
    show Except.ok (Fact.changeColumn ⟨column.name, column⟩ ((n.mapStart f).move? column.name)) = _
    rw [move?_mapStart]
    rfl

/-- Reading a node for a name does not depend on offsets. -/
theorem name_mapStart {fact : String → Fact} (f : Nat → Nat) (n : Node) (r : Rule)
    (hfact : ∀ name, (fact name).mapOffset f = fact name) :
    (do return fact (← (n.mapStart f).require r).exactText : Finding) =
      mapOffset f (do return fact (← n.require r).exactText) := by
  rw [require_mapStart]
  cases n.require r with
  | error e => rfl
  | ok node =>
    show Except.ok (fact (node.mapStart f).exactText) = Except.ok ((fact _).mapOffset f)
    rw [exactText_mapStart, hfact]

/-- A node with other offsets says the same, apart from the offsets of moves. -/
theorem findingsIn_mapStart (f : Nat → Nat) (clause : Clause) (n : Node) :
    findingsIn clause (n.mapStart f) = (findingsIn clause n).map (mapOffset f) := by
  cases clause with
  | tableName => rfl
  | dropColumn => exact congrArg (fun x => [x]) (name_mapStart f n .columnName fun _ => rfl)
  | addColumn => exact findAdded_mapStart f n
  | addIndex => exact congrArg (fun x => [x]) (findIndex_mapStart f n)
  | dropIndex => exact congrArg (fun x => [x]) (name_mapStart f n .indexName fun _ => rfl)
  | renameIndex => exact congrArg (fun x => [x]) (findRename_mapStart f n)
  | primaryKey r => exact findPrimaryKey_mapStart f r n
  | dropPrimaryKey => rfl
  | changeColumn => exact congrArg (fun x => [x]) (findChanged_mapStart f n)
  | modifyColumn => exact congrArg (fun x => [x]) (findModified_mapStart f n)

end Clause

end AlterTable
