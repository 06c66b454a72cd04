import AlterTable.Proofs.Node.MapStart
import AlterTable.Proofs.Statement.Clausewise
import AlterTable.Proofs.Statement.Survival

/-!
# Clauses about unknown columns

A clause that redefines a column which is not there redefines nothing, so it can be left out as far
as definitions go. Its position is another matter: the move stands under the new name of the column,
and it is made if another column has that name. The clause can be left out altogether just if that
move makes no difference.
-/

namespace AlterTable

open AlterTable.Draft

/-! ## Moves -/

namespace Layout

variable {l : Layout} {m : Move}

/-- A move of a column that is not there moves nothing. -/
theorem move_of_notMem (h : m.column ∉ l.names) : l.move m = l := by
  have hnone := findIdx?_eq_none_of_notMem h
  rw [move]
  split
  · rw [moveFirst, hnone]
  · rw [moveAfter, locate?, hnone]
    rfl

/-- The outcome of moves does not depend on offsets, only on their order. -/
theorem foldl_move_mapOffset (f : Nat → Nat) (moves : List Move) (l : Layout) :
    (moves.map (Move.mapOffset f)).foldl move l = moves.foldl move l := by
  rw [List.foldl_map]
  rfl

/-- A move makes a difference to the outcome of all of them. -/
def Shifts (l : Layout) (before : List Move) (m : Move) (after : List Move) : Prop :=
  (before ++ m :: after).foldl move l ≠ (before ++ after).foldl move l
deriving Decidable

/-- Only a column that is there can be shifted. -/
theorem Shifts.mem_names {before after : List Move} (h : l.Shifts before m after) :
    m.column ∈ l.names := by
  by_contra hcolumn
  refine h ?_
  have habsent : m.column ∉ (before.foldl move l).names :=
    fun hmem => hcolumn (((foldl_move_perm l before).map Column.name).mem_iff.mp hmem)
  rw [List.foldl_append, List.foldl_cons, move_of_notMem habsent, List.foldl_append]

/-- A move of a column whose name is not there makes no difference. -/
theorem not_shifts_of_notMem {before after : List Move} (h : m.column ∉ l.names) :
    ¬ l.Shifts before m after :=
  mt Shifts.mem_names h

end Layout

/-! ## The clause and the others -/

namespace Node

/-- The node redefines a column, with a position if there is one. -/
def Redefines (n : Node) (c : Change) (move : Option Move) : Prop :=
  (n.rule = .changeColumn ∧ Clause.findChanged n = .ok (.changeColumn c move)) ∨
    (n.rule = .modifyColumn ∧ Clause.findModified n = .ok (.changeColumn c move))
deriving Decidable

/-- The names that the node of a clause gives: those of the columns that it adds, and the new one of
the column that it renames. -/
def introduced (t : Node) : List String :=
  match t.rule with
  | .addColumn => ((Clause.addColumn.factsIn t).flatMap Fact.added).map Column.name
  | .changeColumn => ((Clause.changeColumn.factsIn t).flatMap Fact.changed).map (·.definition.name)
  | _ => []

/-- The tree without regard to offsets. -/
def unplaced : Node → Node :=
  mapStart fun _ => 0

/-- A tree without the clause that stands between the others, cut out of the tree or read from a
text of its own. -/
inductive LeavesOut (tree : Node) (front back : List Node) : Node → Prop
  | cut : LeavesOut tree front back { tree with children := front ++ back }
  | text {text : String} {rest : Node} : ofText? text = .ok rest →
      rest.children.map unplaced = (front ++ back).map unplaced → LeavesOut tree front back rest

variable {tree rest n : Node} {front back : List Node} {c : Change} {move : Option Move}

private theorem Redefines.move_eq (h : n.Redefines c move) : move = n.move? c.definition.name := by
  rcases h with ⟨-, h⟩ | ⟨-, h⟩
  · obtain ⟨old, column, -, -, hfact⟩ := Clause.exists_of_findChanged h
    cases hfact
    rfl
  · obtain ⟨column, -, hfact⟩ := Clause.exists_of_findModified h
    cases hfact
    rfl

/-- The position is for the column of the new name. -/
theorem Redefines.column_eq (h : n.Redefines c move) :
    ∀ m ∈ move, m.column = c.definition.name := by
  intro m hm
  rw [h.move_eq, Option.mem_def, move?, Option.map_eq_some_iff] at hm
  obtain ⟨position, -, rfl⟩ := hm
  rfl

/-- The moves of a redefining node are the one that it was read with. -/
theorem Redefines.moves_eq (h : n.Redefines c move) : n.moves = move.toList := by
  rcases h with ⟨hrule, h⟩ | ⟨hrule, h⟩
  · rw [moves_of_changeColumn hrule, h]
    rfl
  · rw [moves_of_modifyColumn hrule, h]
    rfl

private theorem Redefines.rule_ne {r : Rule} (h : n.Redefines c move) (hchange : r ≠ .changeColumn)
    (hmodify : r ≠ .modifyColumn) : n.rule ≠ r := by
  rcases h with ⟨hrule, -⟩ | ⟨hrule, -⟩
  · exact hrule ▸ hchange.symm
  · exact hrule ▸ hmodify.symm

/-- A tree with a clause left out is orderly if the whole one is. -/
theorem LeavesOut.orderly (h : tree.LeavesOut front back rest) (htree : tree.Orderly)
    (hsplit : tree.children = front ++ n :: back) (hn : n.rule ≠ .tableName) : rest.Orderly := by
  cases h with
  | cut => exact htree.takeOut hsplit hn
  | text hrest _ => exact orderly_of_ofText? hrest

/-- A tree with a clause left out has the other clauses, up to offsets. -/
theorem LeavesOut.map_unplaced (h : tree.LeavesOut front back rest) :
    rest.children.map unplaced = (front ++ back).map unplaced := by
  cases h with
  | cut => rfl
  | text _ hsame => exact hsame

end Node

namespace Reader

variable {n : Node} {ts us : List Node} {c : Change} {move : Option Move}

/-- The redefinition comes before those of the nodes behind it. -/
theorem changesAmong_cons (h : n.Redefines c move) (ts : List Node) :
    (changesAmong .changeColumn (n :: ts) = c :: changesAmong .changeColumn ts ∧
        changesAmong .modifyColumn (n :: ts) = changesAmong .modifyColumn ts) ∨
      (changesAmong .changeColumn (n :: ts) = changesAmong .changeColumn ts ∧
        changesAmong .modifyColumn (n :: ts) = c :: changesAmong .modifyColumn ts) := by
  rcases h with ⟨hrule, hfact⟩ | ⟨hrule, hfact⟩
  · have hother : n.rule ≠ ruleOf .modifyColumn := hrule ▸ by decide
    have hmore : changesAmong .changeColumn (n :: ts) = c :: changesAmong .changeColumn ts := by
      rw [changesAmong, Clause.factsAmong_cons_of_eq hrule, Clause.factsIn, findingsIn, hfact]
      rfl
    exact .inl
      ⟨hmore, congrArg (List.flatMap Fact.changed) (Clause.factsAmong_cons_of_ne hother ts)⟩
  · have hother : n.rule ≠ ruleOf .changeColumn := hrule ▸ by decide
    have hmore : changesAmong .modifyColumn (n :: ts) = c :: changesAmong .modifyColumn ts := by
      rw [changesAmong, Clause.factsAmong_cons_of_eq hrule, Clause.factsIn, findingsIn, hfact]
      rfl
    exact .inr
      ⟨congrArg (List.flatMap Fact.changed) (Clause.factsAmong_cons_of_ne hother ts), hmore⟩

/-- The redefinitions are those of the other nodes and that of the node among them. -/
theorem exists_changesAmong (h : n.Redefines c move) (front back : List Node) : ∃ before after,
    changesAmong .changeColumn (front ++ n :: back) ++
        changesAmong .modifyColumn (front ++ n :: back) = before ++ c :: after ∧
      changesAmong .changeColumn (front ++ back) ++ changesAmong .modifyColumn (front ++ back) =
        before ++ after := by
  rw [changesAmong_append, changesAmong_append, changesAmong_append, changesAmong_append]
  rcases changesAmong_cons h back with ⟨hchange, hmodify⟩ | ⟨hchange, hmodify⟩
  · refine ⟨changesAmong .changeColumn front, changesAmong .changeColumn back ++
      (changesAmong .modifyColumn front ++ changesAmong .modifyColumn back), ?_, ?_⟩
    · rw [hchange, hmodify, List.append_assoc, List.cons_append]
    · rw [List.append_assoc]
  · refine ⟨changesAmong .changeColumn front ++ changesAmong .changeColumn back ++
      changesAmong .modifyColumn front, changesAmong .modifyColumn back, ?_, ?_⟩
    · rw [hchange, hmodify, ← List.append_assoc]
    · rw [← List.append_assoc]

/-- A new name is introduced by one of the nodes. -/
theorem exists_introduced_of_changed {e : Change} (h : e ∈ changesAmong .changeColumn ts) :
    ∃ t ∈ ts, e.definition.name ∈ t.introduced := by
  obtain ⟨fact, hfact, he⟩ := List.mem_flatMap.mp h
  obtain ⟨t, ht, hrule, hsaid⟩ := Clause.exists_of_mem_factsAmong hfact
  have hchange : t.rule = .changeColumn := hrule
  refine ⟨t, ht, ?_⟩
  rw [Node.introduced, hchange]
  exact List.mem_map_of_mem (List.mem_flatMap.mpr ⟨fact, hsaid, he⟩)

private theorem exists_introduced_of_added {d : Column}
    (h : d ∈ (Clause.addColumn.factsAmong ts).flatMap Fact.added) :
    ∃ t ∈ ts, d.name ∈ t.introduced := by
  obtain ⟨fact, hfact, hd⟩ := List.mem_flatMap.mp h
  obtain ⟨t, ht, hrule, hsaid⟩ := Clause.exists_of_mem_factsAmong hfact
  have hadd : t.rule = .addColumn := hrule
  refine ⟨t, ht, ?_⟩
  rw [Node.introduced, hadd]
  exact List.mem_map_of_mem (List.mem_flatMap.mpr ⟨fact, hsaid, hd⟩)

/-! ## Wherever clauses stand -/

/-- What does not depend on offsets is the same for trees that differ in these only. -/
theorem eq_of_map_unplaced {α : Type} (f : List Node → α)
    (hf : ∀ ts, f (ts.map Node.unplaced) = f ts)
    (h : ts.map Node.unplaced = us.map Node.unplaced) : f ts = f us := by
  rw [← hf ts, h, hf us]

/-- What is said without offsets is said alike by nodes that differ in offsets only. -/
theorem flatMap_factsAmong_congr {α : Type} {say : Fact → List α} (clause : Clause)
    (hsay : ∀ f fact, say (Fact.mapOffset f fact) = say fact)
    (h : ts.map Node.unplaced = us.map Node.unplaced) :
    (clause.factsAmong ts).flatMap say = (clause.factsAmong us).flatMap say := by
  refine eq_of_map_unplaced (fun ts => (clause.factsAmong ts).flatMap say) (fun ts => ?_) h
  rw [Node.unplaced, Clause.factsAmong_mapStart, List.flatMap_map]
  exact List.flatMap_congr fun fact _ => hsay _ fact

private theorem changesAmong_congr (clause : Clause)
    (h : ts.map Node.unplaced = us.map Node.unplaced) :
    changesAmong clause ts = changesAmong clause us :=
  flatMap_factsAmong_congr clause Fact.changed_mapOffset h

private theorem any_rule_congr (r : Rule) (h : ts.map Node.unplaced = us.map Node.unplaced) :
    ts.any (·.rule == r) = us.any (·.rule == r) := by
  refine eq_of_map_unplaced (fun ts => ts.any (·.rule == r)) (fun ts => ?_) h
  rw [List.any_map]
  refine congrArg ts.any (funext fun t => ?_)
  rw [Function.comp_apply, Node.unplaced, Node.rule_mapStart]

private theorem foldl_move_congr (h : ts.map Node.unplaced = us.map Node.unplaced) (l : Layout) :
    (ts.flatMap Node.moves).foldl Layout.move l = (us.flatMap Node.moves).foldl Layout.move l := by
  refine eq_of_map_unplaced (fun ts => (ts.flatMap Node.moves).foldl Layout.move l)
    (fun ts => ?_) h
  rw [← Layout.foldl_move_mapOffset (fun _ => 0) (ts.flatMap Node.moves), List.map_flatMap,
    List.flatMap_map]
  refine congrArg (List.foldl Layout.move l) (List.flatMap_congr fun t _ => ?_)
  exact Node.moves_mapStart _ t

end Reader

/-! ## One clause less -/

namespace Reader

/-- The first tree has one clause more than the second one, whose clauses may stand anywhere else.
-/
structure OneLess (tree : Node) (front : List Node) (n : Node) (back : List Node) (rest : Node) :
    Prop where
  tree_orderly : tree.Orderly
  rest_orderly : rest.Orderly
  split : tree.children = front ++ n :: back
  same : rest.children.map Node.unplaced = (front ++ back).map Node.unplaced

namespace OneLess

variable {tree rest n : Node} {front back : List Node} {c : Change} {move : Option Move}
variable {l : Layout}

variable (h : OneLess tree front n back rest)
include h

/-- What is said by another kind of clauses only, is said without the clause, too. -/
theorem flatMap_facts_eq {α : Type} {say : Fact → List α} {k : Clause} (hn : n.Redefines c move)
    (hsay : SaidBy say [k]) (hoffset : ∀ f fact, say (Fact.mapOffset f fact) = say fact)
    (hk : mysql.clauses.filter ([k].contains ·) = [k])
    (hkind : k ∉ [Clause.tableName, .dropPrimaryKey, .changeColumn, .modifyColumn]) :
    (mysql.clauses.flatMap (Clause.facts tree)).flatMap say =
      (mysql.clauses.flatMap (Clause.facts rest)).flatMap say := by
  have hmysql : k ∈ mysql.clauses := List.mem_of_mem_filter (hk ▸ List.mem_singleton_self k)
  have hrules : ∀ k ∈ mysql.clauses,
      k ∉ [Clause.tableName, .dropPrimaryKey, .changeColumn, .modifyColumn] →
      (k ≠ .tableName ∧ k ≠ .dropPrimaryKey) ∧
        ruleOf k ≠ .changeColumn ∧ ruleOf k ≠ .modifyColumn := by
    decide
  obtain ⟨⟨htable, hkey⟩, hchange, hmodify⟩ := hrules k hmysql hkind
  rw [flatMap_facts_of_one hsay hk (.refl _), flatMap_facts_of_one hsay hk (.refl _),
    Clause.facts_eq_factsAmong h.tree_orderly hmysql htable hkey,
    Clause.facts_eq_factsAmong h.rest_orderly hmysql htable hkey, h.split,
    flatMap_factsAmong_congr k hoffset h.same, Clause.factsAmong_append,
    Clause.factsAmong_cons_of_ne (hn.rule_ne hchange hmodify), ← Clause.factsAmong_append]

/-- A redefinition that is left out changes nothing about the primary key. -/
theorem dropsPrimaryKey_eq (hn : n.Redefines c move) :
    (gathered mysql.clauses tree).dropsPrimaryKey =
      (gathered mysql.clauses rest).dropsPrimaryKey := by
  have hne : (n.rule == .dropPrimaryKey) = false :=
    beq_eq_false_iff_ne.mpr (hn.rule_ne (by decide) (by decide))
  rw [dropsPrimaryKey_gathered h.tree_orderly, dropsPrimaryKey_gathered h.rest_orderly, h.split,
    any_rule_congr _ h.same, List.any_append, List.any_cons, hne, Bool.false_or, List.any_append]

private theorem changedColumns_tree : (gathered mysql.clauses tree).changedColumns =
    changesAmong .changeColumn (front ++ n :: back) ++
      changesAmong .modifyColumn (front ++ n :: back) := by
  rw [changedColumns_gathered, flatMap_changed_mysql,
    changes_eq_changesAmong h.tree_orderly (by decide),
    changes_eq_changesAmong h.tree_orderly (by decide), h.split]

private theorem changedColumns_rest : (gathered mysql.clauses rest).changedColumns =
    changesAmong .changeColumn (front ++ back) ++ changesAmong .modifyColumn (front ++ back) := by
  rw [changedColumns_gathered, flatMap_changed_mysql,
    changes_eq_changesAmong h.rest_orderly (by decide),
    changes_eq_changesAmong h.rest_orderly (by decide), changesAmong_congr _ h.same,
    changesAmong_congr _ h.same]

/-- The other clauses give a name that none of them introduces to columns of that name only. -/
theorem oldName_eq_of_given {name : String} (hother : ∀ t ∈ front ++ back, name ∉ t.introduced) :
    ∀ e ∈ (gathered mysql.clauses rest).changedColumns,
      e.definition.name = name → e.oldName = name := by
  intro e he hname
  rw [changedColumns_gathered, flatMap_changed_mysql] at he
  rcases List.mem_append.mp he with he | he
  · rw [changes_eq_changesAmong h.rest_orderly (by decide), changesAmong_congr _ h.same] at he
    obtain ⟨t, ht, hintroduced⟩ := exists_introduced_of_changed he
    exact absurd (hname ▸ hintroduced) (hother t ht)
  · exact (oldName_of_modified he).trans hname

private theorem notMem_names_added {name : String}
    (hother : ∀ t ∈ front ++ back, name ∉ t.introduced) :
    name ∉ Layout.names (gathered mysql.clauses rest).addedColumns := by
  intro hmem
  obtain ⟨d, hd, rfl⟩ := List.mem_map.mp hmem
  rw [gathered, Statement.foldl_record] at hd
  have hadded : d ∈ (Clause.addColumn.factsAmong (front ++ back)).flatMap Fact.added := by
    rw [← flatMap_factsAmong_congr .addColumn Fact.added_mapOffset h.same,
      ← Clause.facts_eq_factsAmong h.rest_orderly (by decide) (by decide) (by decide),
      ← flatMap_facts_of_one saidBy_added rfl (.refl _)]
    exact hd
  obtain ⟨t, ht, hintroduced⟩ := exists_introduced_of_added hadded
  exact hother t ht hintroduced

/-- A clause for an unknown column redefines nothing. -/
theorem redefined_eq (hn : n.Redefines c move) (hunknown : c.oldName ∉ l.names)
    (hother : ∀ t ∈ front ++ back, c.oldName ∉ t.introduced) :
    (gathered mysql.clauses tree).redefined l = (gathered mysql.clauses rest).redefined l := by
  obtain ⟨before, after, htree, hrest⟩ := exists_changesAmong hn front back
  have hgiven := h.oldName_eq_of_given hother
  rw [h.changedColumns_rest, hrest] at hgiven
  refine Statement.redefined_congr (h.dropsPrimaryKey_eq hn) ?_ ?_ ?_ fun kept hkept => ?_
  · rw [droppedColumns_gathered, droppedColumns_gathered]
    exact h.flatMap_facts_eq hn saidBy_dropped Fact.dropped_mapOffset rfl (by decide)
  · rw [addedColumns_gathered, addedColumns_gathered]
    exact h.flatMap_facts_eq hn saidBy_added Fact.added_mapOffset rfl (by decide)
  · rw [addedPrimaryKey_gathered, addedPrimaryKey_gathered]
    exact h.flatMap_facts_eq hn saidBy_addedKey Fact.addedKey_mapOffset rfl (by decide)
  -- When the turn of the clause comes, no column has been given its old name.
  · rw [h.changedColumns_tree, h.changedColumns_rest, htree, hrest]
    exact Layout.foldl_change_leaveOut (hkept ▸ hunknown) fun d hd =>
      hgiven d (List.mem_append_left _ hd)

/-- Nor is there a column of the unknown name afterwards. -/
theorem notMem_names_redefined {name : String} (hunknown : name ∉ l.names)
    (hother : ∀ t ∈ front ++ back, name ∉ t.introduced) :
    name ∉ ((gathered mysql.clauses rest).redefined l).names :=
  Statement.notMem_names_redefined hunknown (h.oldName_eq_of_given hother)
    (h.notMem_names_added hother)

/-- What is made of the same redefined columns is the same just if the clause's move makes no
difference. -/
theorem foldl_move_eq_iff (hn : n.Redefines c move) (redefined : Layout) :
    (tree.children.flatMap Node.moves).foldl Layout.move redefined =
        (rest.children.flatMap Node.moves).foldl Layout.move redefined ↔
      ∀ m ∈ move, ¬ redefined.Shifts (front.flatMap Node.moves) m (back.flatMap Node.moves) := by
  rw [h.split, foldl_move_congr h.same, List.flatMap_append, List.flatMap_cons,
    List.flatMap_append, hn.moves_eq]
  cases move with
  | none => exact iff_of_true rfl fun m hm => nomatch hm
  | some m =>
    constructor
    · intro heq m' hm' hshifts
      cases hm'
      exact hshifts heq
    · intro hall
      exact not_not.mp (hall m rfl)

end OneLess

/-- A clause for a column that is not there, whose old name no other clause introduces, redefines
nothing. It can be left out altogether just if its move makes no difference, and it makes none if no
column has the new name by then. A move that does is of another column, which has that name. -/
theorem read_leavingOut {text : String} {tree rest n : Node} {front back : List Node}
    {c : Change} {move : Option Move} {l : Layout} (h : Node.ofText? text = .ok tree)
    (hsplit : tree.children = front ++ n :: back) (hn : n.Redefines c move)
    (hunknown : c.oldName ∉ l.names) (hother : ∀ t ∈ front ++ back, c.oldName ∉ t.introduced)
    (hrest : tree.LeavesOut front back rest) :
    ∃ s s', mysql.read tree (some l) = .ok s ∧ mysql.read rest (some l) = .ok s' ∧
      s.redefined l = s'.redefined l ∧
      (c.definition.name ∉ (s'.redefined l).names → s.layout = s'.layout) ∧
      (s.layout = s'.layout ↔ ∀ m ∈ move, ¬ (s'.redefined l).Shifts
        (front.flatMap Node.moves) m (back.flatMap Node.moves)) ∧
      ∀ m ∈ move, (s'.redefined l).Shifts
          (front.flatMap Node.moves) m (back.flatMap Node.moves) →
        m.column = c.definition.name ∧ c.definition.name ∈ (s'.redefined l).names ∧
          c.definition.name ≠ c.oldName := by
  have htree := Node.orderly_of_ofText? h
  have hless : OneLess tree front n back rest :=
    ⟨htree, hrest.orderly htree hsplit (hn.rule_ne (by decide) (by decide)), hsplit,
      hrest.map_unplaced⟩
  have hsame := hless.redefined_eq hn hunknown hother
  have hlayout := Option.some_inj.trans
    (hless.foldl_move_eq_iff hn ((gathered mysql.clauses rest).redefined l))
  refine ⟨_, _, read_of_orderly htree (.refl _) l, read_of_orderly hless.rest_orderly (.refl _) l,
    hsame, fun hname => ?_, hsame ▸ hlayout, fun m hm hshifts => ?_⟩
  · rw [hsame]
    refine hlayout.mpr fun m hm => Layout.not_shifts_of_notMem ?_
    rwa [hn.column_eq m hm]
  · have hcolumn := hn.column_eq m hm
    have hmem := hcolumn ▸ hshifts.mem_names
    refine ⟨hcolumn, hmem, fun heq => ?_⟩
    exact hless.notMem_names_redefined hunknown hother (heq ▸ hmem)

/-- A statement about a column that the table has not got, under the name of one that it has. -/
def overlooked : String :=
  "alter table t change x b int first, add d int"

/-- The statement without this clause. -/
def unburdened : String :=
  "alter table t add d int"

/-- What the clause says. -/
def misnamed : Change where
  oldName := "x"
  definition := { name := "b", dataType := "int" }

/-- A change of an unknown column to the name of another one, put first, and the statement without
the change. -/
theorem read_leavingOut_overlooked : ∃ tree rest table n added : Node,
    Node.ofText? overlooked = .ok tree ∧ tree.children = [table] ++ n :: [added] ∧
    n.Redefines misnamed (some ⟨29, "b", .first⟩) ∧ misnamed.oldName ∉ Statement.pair.names ∧
    (∀ t ∈ [table] ++ [added], misnamed.oldName ∉ t.introduced) ∧
    Node.ofText? unburdened = .ok rest ∧ tree.LeavesOut [table] [added] rest ∧
    ∃ s s', mysql.read tree (some Statement.pair) = .ok s ∧
      mysql.read rest (some Statement.pair) = .ok s' ∧
      s.redefined Statement.pair = s'.redefined Statement.pair ∧
      (misnamed.definition.name ∉ (s'.redefined Statement.pair).names → s.layout = s'.layout) ∧
      (s.layout = s'.layout ↔ ∀ m ∈ some ⟨29, "b", .first⟩, ¬ (s'.redefined Statement.pair).Shifts
        ([table].flatMap Node.moves) m ([added].flatMap Node.moves)) := by
  have hsaid : (Node.ofText? overlooked).toOption.map (fun tree =>
      (tree.children.map Node.introduced, tree.children[1]?.map fun n =>
        decide (n.Redefines misnamed (some ⟨29, "b", .first⟩)))) =
      some ([[], ["b"], ["d"]], some true) := by
    decide +kernel
  have hunplaced : (Node.ofText? unburdened).toOption.map (·.children.map Node.unplaced) =
      (Node.ofText? overlooked).toOption.map (fun tree =>
        (tree.children.eraseIdx 1).map Node.unplaced) := by
    decide +kernel
  cases htree : Node.ofText? overlooked with
  | error fault =>
    rw [htree] at hsaid
    cases hsaid
  | ok tree =>
  cases hrest : Node.ofText? unburdened with
  | error fault =>
    rw [hrest, htree] at hunplaced
    cases hunplaced
  | ok rest =>
    rw [htree] at hsaid
    rw [hrest, htree] at hunplaced
    obtain ⟨hintroduced, hredefines⟩ := Prod.mk.inj (Option.some.inj hsaid)
    have hsame : rest.children.map Node.unplaced =
      (tree.children.eraseIdx 1).map Node.unplaced := Option.some.inj hunplaced
    have hlength : tree.children.length = 3 := by
      rw [← List.length_map Node.introduced, hintroduced]
      rfl
    obtain ⟨table, n, added, hchildren⟩ := List.length_eq_three.mp hlength
    rw [hchildren] at hintroduced hredefines hsame
    have hn : n.Redefines misnamed (some ⟨29, "b", .first⟩) :=
      of_decide_eq_true (Option.some.inj hredefines)
    have hother : ∀ t ∈ [table] ++ [added], misnamed.oldName ∉ t.introduced := by
      obtain ⟨htable, hothers⟩ := List.cons.inj hintroduced
      obtain ⟨-, hothers⟩ := List.cons.inj hothers
      obtain ⟨hadded, -⟩ := List.cons.inj hothers
      intro t ht
      rcases List.mem_pair.mp ht with rfl | rfl
      · rw [htable]
        exact List.not_mem_nil
      · rw [hadded]
        decide
    have hout : tree.LeavesOut [table] [added] rest := .text hrest hsame
    have hunknown : misnamed.oldName ∉ Statement.pair.names := by decide
    obtain ⟨s, s', hs, hs', hredefined, hname, hlayout, -⟩ :=
      read_leavingOut htree hchildren hn hunknown hother hout
    exact ⟨tree, rest, table, n, added, rfl, hchildren, hn, hunknown, hother, rfl, hout,
      s, s', hs, hs', hredefined, hname, hlayout⟩

/-- The move is of the column that has the new name. -/
example : [overlooked, unburdened].map (fun text =>
    (Dialect.mysql.read text (some Statement.pair)).toOption.bind fun s =>
      s.layout.map Layout.names) = [some ["b", "a", "d"], some ["a", "b", "d"]] := by
  decide +kernel

end Reader

end AlterTable
