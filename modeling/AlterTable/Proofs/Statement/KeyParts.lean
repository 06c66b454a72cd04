import Mathlib.Data.List.TakeWhile
import AlterTable.Proofs.Statement.Completeness

/-!
# Clauses that need columns

An index and a primary key are of columns, which a tree from elsewhere may lack. A primary key
without columns is a fault at the first node that has none. An index without columns is one only if
it has no name either: a name is taken from the first column, and where the clause names its index
nobody asks for a column.

Both are read node by node, and a node says its facts or is a fault, so what is recorded is what the
nodes in front of the first faulty one say (`upToFault_flatMap`). `apply_addIndex` and
`apply_primaryKey` are that for the two; `haveColumns_iff` tells the trees whose indexes all get the
columns they need from those where a name hides that there are none.
-/

namespace AlterTable

/-! ## Recording facts of one kind -/

namespace Statement

private theorem foldl_record_addIndex (indexes : List Index) (s : Statement) :
    (indexes.map Fact.addIndex).foldl record s =
      { s with addedIndexes := s.addedIndexes ++ indexes } := by
  induction indexes generalizing s with
  | nil => simp
  | cons index indexes ih =>
    rw [List.map_cons, List.foldl_cons, ih]
    simp [record]

private theorem foldl_record_addPrimaryKey (keys : List (List String)) (s : Statement) :
    (keys.map Fact.addPrimaryKey).foldl record s =
      { s with addedPrimaryKey := s.addedPrimaryKey ++ keys.flatten } := by
  induction keys generalizing s with
  | nil => simp
  | cons key keys ih =>
    rw [List.map_cons, List.foldl_cons, ih]
    simp [record]

end Statement

namespace Clause

variable {root n : Node} {r : Rule} {s : Statement}

/-! ## Reading node by node -/

/-- Facts in front of other findings are heard in any case. -/
theorem upToFault_append (facts : List Fact) (findings : List Finding) :
    upToFault (facts.map .ok ++ findings) =
      (facts ++ (upToFault findings).1, (upToFault findings).2) := by
  induction facts with
  | nil => rfl
  | cons fact facts ih => rw [List.map_cons, List.cons_append, upToFault, ih, List.cons_append]

/-- Where a node says its facts or is a fault, the nodes in front of the first fault are heard. -/
theorem upToFault_flatMap {find : Node → List Finding} {heard : Node → Bool}
    {facts : Node → List Fact} {e : ReadError}
    (hfind : ∀ n, find n = if heard n then (facts n).map .ok else [.error e]) (ns : List Node) :
    upToFault (ns.flatMap find) =
      ((ns.takeWhile heard).flatMap facts, if ns.all heard then none else some e) := by
  induction ns with
  | nil => rfl
  | cons n ns ih =>
    rw [List.flatMap_cons, hfind n]
    cases hn : heard n with
    | true =>
      rw [if_pos rfl, upToFault_append, ih, List.takeWhile_cons_of_pos hn, List.flatMap_cons,
        List.all_cons, hn, Bool.true_and]
    | false =>
      have hns : ¬ heard n = true := by rw [hn]; decide
      rw [if_neg Bool.false_ne_true, List.takeWhile_cons_of_neg hns, List.all_cons, hn,
        Bool.false_and, if_neg Bool.false_ne_true]
      rfl

/-! ## Indexes -/

/-- The node says an index: it names it, or has a column to name it after. -/
def saysIndex (n : Node) : Bool :=
  n.hasPart .indexName || !n.keyColumns.isEmpty

/-- The index that a node says, if it says one. -/
def indexOf (n : Node) : Index where
  name := (((n.first? .indexName).map Node.exactText).or n.keyColumns.head?).getD ""
  columns := n.keyColumns
  unique := n.hasPart .unique

private theorem findIndex_eq (n : Node) :
    findIndex n =
      if saysIndex n then .ok (.addIndex (indexOf n))
      else .error (.missing .addIndex .keyParts) := by
  unfold findIndex saysIndex indexOf Node.hasPart
  cases n.first? .indexName with
  | some name => rfl
  | none => cases n.keyColumns <;> rfl

/-- Indexes are recorded up to the first node that says none, which is a fault. -/
theorem apply_addIndex (root : Node) (s : Statement) :
    addIndex.apply root s =
      ({ s with addedIndexes :=
          s.addedIndexes ++ ((root.all .addIndex).takeWhile saysIndex).map indexOf },
        if (root.all .addIndex).all saysIndex then none
        else some (.missing .addIndex .keyParts)) := by
  have hfind : ∀ n, [findIndex n] = if saysIndex n then [Fact.addIndex (indexOf n)].map .ok
      else [.error (.missing .addIndex .keyParts)] := by
    intro n
    rw [findIndex_eq]
    split <;> rfl
  have hfindings : addIndex.findings root = (root.all .addIndex).flatMap ([findIndex ·]) :=
    List.map_eq_flatMap
  rw [apply, hfindings, upToFault_flatMap hfind, ← List.map_eq_flatMap,
    ← Statement.foldl_record_addIndex, List.map_map]
  rfl

/-- An index without columns is a fault, and what is recorded without a fault has columns. -/
structure IndexesHaveColumns (root : Node) (s : Statement) : Prop where
  recorded : (addIndex.apply root s).2 = none → ∃ indexes,
    (addIndex.apply root s).1 = { s with addedIndexes := s.addedIndexes ++ indexes } ∧
      ∀ index ∈ indexes, index.columns ≠ []
  missing : ∀ n ∈ root.all .addIndex, n.keyColumns = [] →
    (addIndex.apply root s).2 = some (.missing .addIndex .keyParts)

/-- Columns are lacking, and wherever they are there is a name. -/
def NamesHideLack (root : Node) : Prop :=
  (∃ n ∈ root.all .addIndex, n.keyColumns = []) ∧
    ∀ n ∈ root.all .addIndex, n.keyColumns = [] → n.hasPart .indexName = true

private theorem saysIndex_of_keyColumns (h : n.keyColumns = []) :
    saysIndex n = n.hasPart .indexName := by
  rw [saysIndex, h]
  exact Bool.or_false _

private theorem saysIndex_of_ne_nil (h : n.keyColumns ≠ []) : saysIndex n = true := by
  rw [saysIndex, List.isEmpty_eq_false_iff.mpr h]
  exact Bool.or_true _

private theorem NamesHideLack.all_saysIndex (h : NamesHideLack root) :
    (root.all .addIndex).all saysIndex = true := by
  refine List.all_eq_true.mpr fun n hn => ?_
  by_cases hcolumns : n.keyColumns = []
  · rw [saysIndex_of_keyColumns hcolumns]
    exact h.2 n hn hcolumns
  · exact saysIndex_of_ne_nil hcolumns

/-- Every index has columns, or is a fault, unless a name hides that they are lacking. -/
theorem indexesHaveColumns_iff : IndexesHaveColumns root s ↔ ¬ NamesHideLack root := by
  constructor
  · intro h hnames
    obtain ⟨n, hn, hcolumns⟩ := hnames.1
    have hfault := h.missing n hn hcolumns
    rw [apply_addIndex, if_pos hnames.all_saysIndex] at hfault
    cases hfault
  · intro hnames
    by_cases hall : (root.all .addIndex).all saysIndex = true
    · -- Every node says an index, so one that lacks columns would have its name only.
      have hcolumns : ∀ n ∈ root.all .addIndex, n.keyColumns ≠ [] := by
        intro n hn hnil
        refine hnames ⟨⟨n, hn, hnil⟩, fun m hm hm' => ?_⟩
        rw [← saysIndex_of_keyColumns hm']
        exact List.all_eq_true.mp hall m hm
      refine ⟨fun _ => ⟨_, by rw [apply_addIndex], ?_⟩,
        fun n hn hnil => absurd hnil (hcolumns n hn)⟩
      rintro index hindex
      obtain ⟨n, hn, rfl⟩ := List.mem_map.mp hindex
      exact hcolumns n ((List.takeWhile_sublist _).subset hn)
    · have hfault : (addIndex.apply root s).2 = some (.missing .addIndex .keyParts) := by
        rw [apply_addIndex, if_neg hall]
      refine ⟨fun hnone => ?_, fun _ _ _ => hfault⟩
      rw [hfault] at hnone
      cases hnone

/-! ## Primary keys -/

/-- The node is about no primary key, or its key has columns. -/
def keyHasColumns (n : Node) : Bool :=
  !n.hasPart .primaryKey || !n.keyColumns.isEmpty

/-- The primary keys that nodes say, one for each node that is about one. -/
def keysOf (ns : List Node) : List (List String) :=
  (ns.filter (·.hasPart .primaryKey)).map Node.keyColumns

private theorem findPrimaryKey_eq (r : Rule) (n : Node) :
    findPrimaryKey r n =
      if keyHasColumns n then ((keysOf [n]).map Fact.addPrimaryKey).map .ok
      else [.error (.missing r .keyParts)] := by
  unfold findPrimaryKey keyHasColumns keysOf
  cases hkey : n.hasPart .primaryKey with
  | false => simp [hkey]
  | true => cases hcolumns : n.keyColumns <;> simp [hkey, hcolumns]

private theorem keysOf_append (ms ns : List Node) : keysOf (ms ++ ns) = keysOf ms ++ keysOf ns := by
  rw [keysOf, List.filter_append, List.map_append]
  rfl

private theorem flatMap_keysOf (ns : List Node) :
    ns.flatMap (fun n => (keysOf [n]).map Fact.addPrimaryKey) =
      (keysOf ns).map Fact.addPrimaryKey := by
  induction ns with
  | nil => rfl
  | cons n ns ih =>
    rw [List.flatMap_cons, ih, ← List.map_append, ← keysOf_append]
    rfl

/-- Keys are recorded up to the first node whose key has no columns, which is a fault. -/
theorem apply_primaryKey (r : Rule) (root : Node) (s : Statement) :
    (primaryKey r).apply root s =
      ({ s with addedPrimaryKey :=
          s.addedPrimaryKey ++ (keysOf ((root.all r).takeWhile keyHasColumns)).flatten },
        if (root.all r).all keyHasColumns then none else some (.missing r .keyParts)) := by
  have hfindings : (primaryKey r).findings root = (root.all r).flatMap (findPrimaryKey r) := rfl
  rw [apply, hfindings, upToFault_flatMap (findPrimaryKey_eq r), flatMap_keysOf,
    ← Statement.foldl_record_addPrimaryKey]

/-- The node is about a primary key that has no columns. -/
def LacksKeyColumns (n : Node) : Prop :=
  n.hasPart .primaryKey = true ∧ n.keyColumns = []

private theorem keyHasColumns_iff : keyHasColumns n = true ↔ ¬ LacksKeyColumns n := by
  unfold keyHasColumns LacksKeyColumns
  cases n.hasPart .primaryKey <;> simp

/-- The first primary key without columns is a fault, and the keys in front of it are recorded. -/
structure PrimaryKeysHaveColumns (r : Rule) (root : Node) (s : Statement) : Prop where
  recorded : (∀ n ∈ root.all r, ¬ LacksKeyColumns n) → (primaryKey r).apply root s =
    ({ s with addedPrimaryKey := s.addedPrimaryKey ++ (keysOf (root.all r)).flatten }, none)
  missing : ∀ front n back, root.all r = front ++ n :: back →
    (∀ m ∈ front, ¬ LacksKeyColumns m) → LacksKeyColumns n → (primaryKey r).apply root s =
      ({ s with addedPrimaryKey := s.addedPrimaryKey ++ (keysOf front).flatten },
        some (.missing r .keyParts))

/-- Every primary key has columns, or is a fault. -/
theorem primaryKeysHaveColumns (r : Rule) (root : Node) (s : Statement) :
    PrimaryKeysHaveColumns r root s where
  recorded h := by
    have hall : ∀ n ∈ root.all r, keyHasColumns n = true :=
      fun n hn => keyHasColumns_iff.mpr (h n hn)
    rw [apply_primaryKey, if_pos (List.all_eq_true.mpr hall), List.takeWhile_eq_self_iff.mpr hall]
  missing front n back hsplit hfront hn := by
    have hkeys : ∀ m ∈ front, keyHasColumns m = true :=
      fun m hm => keyHasColumns_iff.mpr (hfront m hm)
    have hlacks : ¬ keyHasColumns n = true := fun h => keyHasColumns_iff.mp h hn
    have htake : (root.all r).takeWhile keyHasColumns = front := by
      rw [hsplit, List.takeWhile_append_of_pos hkeys, List.takeWhile_cons_of_neg hlacks,
        List.append_nil]
    have hall : ¬ (root.all r).all keyHasColumns = true := fun h =>
      hlacks (List.all_eq_true.mp h n (by rw [hsplit]; exact List.mem_append_right _ (by simp)))
    rw [apply_primaryKey, htake, if_neg hall]

/-! ## Both kinds -/

/-- Primary keys have the columns they need whatever the tree is. Indexes do unless columns are
lacking and each index that lacks them has a name. -/
theorem haveColumns_iff (root : Node) (s : Statement) :
    (IndexesHaveColumns root s ↔ ¬ NamesHideLack root) ∧
      ∀ r, PrimaryKeysHaveColumns r root s :=
  ⟨indexesHaveColumns_iff, fun r => primaryKeysHaveColumns r root s⟩

/-- A clause that adds an index by its name alone. -/
def nameAlone : Node :=
  { rule := .addIndex, children := [{ rule := .indexName, text := "i" }] }

/-- An index without columns is recorded, and nothing is a fault. -/
theorem not_indexesHaveColumns_nameAlone :
    addIndex.apply { rule := .alterTable, children := [nameAlone] } {} =
        ({ addedIndexes := [{ name := "i", columns := [], unique := false }] }, none) ∧
      ¬ IndexesHaveColumns { rule := .alterTable, children := [nameAlone] } {} := by
  have happly : addIndex.apply { rule := .alterTable, children := [nameAlone] } {} =
      ({ addedIndexes := [{ name := "i", columns := [], unique := false }] }, none) := by
    decide +kernel
  have hwithin : nameAlone.Within { rule := .alterTable, children := [nameAlone] } :=
    Node.within_of_mem_children (List.mem_singleton_self _)
  refine ⟨happly, fun h => ?_⟩
  have hfault := h.missing nameAlone (Node.mem_all_iff.mpr ⟨hwithin, rfl⟩) (by decide +kernel)
  rw [happly] at hfault
  cases hfault

end Clause

end AlterTable
