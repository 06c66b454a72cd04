import AlterTable.Proofs.Grammar.Positions
import AlterTable.Proofs.Layout.Sorting
import AlterTable.Proofs.Statement.Completeness

/-!
# Moves in written order

Each move of a statement is said by one of the words `FIRST` and `AFTER` in its text, each of these
words says one move, and a move has the offset of its word. Clauses are read kind by kind, so the
moves are first found in another order than the words are written in. Sorting by the offsets
restores that order, whatever clauses the moves come from.

The proof goes by the nodes of positions. Those of the tree are the words of the text, in order; a
clause has at most one of them, right below it, and only three kinds of clauses have any.
-/

namespace AlterTable

open AlterTable.Grammar
open AlterTable.Node (Free Sole)

/-- The word that a move is said with, at the offset of the move. -/
def Move.word (m : Move) : Written :=
  match m.place with
  | .first => ⟨.keyword .first, m.offset⟩
  | .after _ => ⟨.keyword .after, m.offset⟩

/-- The word of a move has its offset. -/
@[simp] theorem Move.offset_word (m : Move) : m.word.offset = m.offset := by
  unfold word
  split <;> rfl

/-- The words of the positions in a node, in the order in which they are written. -/
def Node.words (n : Node) : List Written :=
  (n.outermost .firstOrAfterColumn).map Node.placeWord

/-- The rules of the clauses that can say where a column goes. -/
def placingRules : List Rule :=
  [.addColumn, .changeColumn, .modifyColumn]

/-- What the grammar says of the node of a clause, as far as positions go. -/
structure Node.IsClause (t : Node) : Prop where
  rule_ne : t.rule ≠ .firstOrAfterColumn
  /-- No clause stands in another one. -/
  flat : ∀ r ∈ placingRules, Free r t.children
  sole : ∃ o, Sole .firstOrAfterColumn t.children o
  free : t.rule ∉ placingRules → Free .firstOrAfterColumn t.children
  /-- Where a clause adds columns and has a position, it adds one column. -/
  single : t.rule = .addColumn → Free .firstOrAfterColumn t.children ∨
    ∃ d, Sole .columnDefinition t.children (some d)

/-! ## Clauses in the tree -/

namespace Grammar.Production

open AlterTable.Parse

variable {spelling : Token → List Char → List Char → Prop}
variable {c n : Cursor} {tree t : Node} {p : Rule × Production}

/-- The clauses that the grammar has, looked through one by one. -/
theorem position_below : ∀ p ∈ belowRoot.tops, p.1 ≠ .firstOrAfterColumn ∧
    (∀ r ∈ placingRules, r ∉ p.2.rules) ∧ p.2.once .firstOrAfterColumn = true ∧
    (p.1 ∉ placingRules → .firstOrAfterColumn ∉ p.2.rules) ∧
    (p.1 = .addColumn → node p.1 p.2 = addColumn) := by
  decide +kernel

/-- A clause that adds several columns has no position, and one with a position adds one column. -/
theorem Derives.free_or_sole (h : addColumn.Derives spelling c [t] n) :
    Free .firstOrAfterColumn t.children ∨ ∃ d, Sole .columnDefinition t.children (some d) := by
  obtain ⟨ys, ht, hbody⟩ := derives_node.mp h
  obtain ⟨_, _, _, rfl, hadd, hoption⟩ := derives_seq.mp hbody
  obtain ⟨_, _, _, rfl, hcolumn, hadded⟩ := derives_seq.mp hoption
  obtain ⟨rfl, -⟩ := derives_token.mp hadd
  obtain rfl := hcolumn.eq_nil_of_parts rfl
  cases ht
  obtain ⟨a, ha, hd⟩ := derives_alts.mp hadded
  rcases List.mem_pair.mp ha with rfl | rfl
  · exact .inl (hd.free (by decide +kernel))
  · obtain ⟨o, ho⟩ := hd.exists_sole (r := .columnDefinition) (by decide +kernel)
    obtain ⟨u, hu, hur⟩ := hd.exists_of_mem_musts (r := .columnDefinition) (by decide +kernel)
    cases o with
    | none =>
      cases ho with
      | none hfree => exact absurd hur (hfree u hu u .self)
    | some d => exact .inr ⟨d, ho⟩

/-- What stands below the root, the name of the table included, has positions as clauses do. -/
theorem Derives.isClause (h : statement.Derives spelling c [tree] n) (ht : t ∈ tree.children) :
    t.IsClause := by
  obtain ⟨_, -, hbelow⟩ := h.exists_below
  obtain ⟨p, hp, c', m, zs, -, -, rfl, hd, -⟩ := hbelow.exists_top ht
  obtain ⟨hrule, hflat, honce, hfree, hadd⟩ := position_below p hp
  refine ⟨hrule, fun r hr => hd.free (hflat r hr), hd.exists_sole honce,
    fun h => hd.free (hfree h), fun h => ?_⟩
  have hnode : addColumn.Derives spelling c' [span p.1 c' m zs] m := hadd h ▸ .node hd
  exact hnode.free_or_sole

end Grammar.Production

/-! ## Moves of single clauses -/

namespace Node

variable {n : Node} {o : Option Node}

private theorem word_of_move? (n : Node) (column : String) :
    (n.move? column).map Move.word = (n.first? .firstOrAfterColumn).map placeWord := by
  rw [move?, Option.map_map]
  refine congrArg (Option.map · _) (funext fun p => ?_)
  rw [Function.comp_apply, placeWord, hasPart]
  cases p.first? .columnName <;> rfl

/-- The one position of a clause says its one move. -/
theorem word_of_sole (h : Sole .firstOrAfterColumn n.children o)
    (hn : n.rule ≠ .firstOrAfterColumn) (column : String) :
    (n.move? column).toList.map Move.word = n.words := by
  rw [words, h.outermost_eq hn, ← Option.toList_map, ← Option.toList_map, word_of_move?,
    h.first?_eq hn]

end Node

namespace Clause

/-- The moves that come with what is found. -/
def movesOf : Finding → List Move
  | .ok fact => fact.moves
  | .error _ => []

/-- The moves of what is found are those of the findings that are no faults. -/
theorem flatMap_moves (findings : List Finding) :
    (findings.filterMap Except.toOption).flatMap Fact.moves = findings.flatMap movesOf := by
  induction findings with
  | nil => rfl
  | cons finding findings ih =>
    cases finding with
    | error e => exact ih
    | ok fact =>
      rw [List.flatMap_cons, ← ih]
      rfl

variable {n root : Node}

/-- A changed column is moved where its words say. -/
theorem words_findChanged (h : n.Complete) (ht : n.IsClause) (hrule : n.rule = .changeColumn) :
    (movesOf (findChanged n)).map Move.word = n.words := by
  obtain ⟨o, ho⟩ := ht.sole
  obtain ⟨old, column, hfound⟩ := findChanged_ok h hrule
  rw [hfound]
  exact Node.word_of_sole ho ht.rule_ne column.name

/-- A modified column is moved where its words say. -/
theorem words_findModified (h : n.Complete) (ht : n.IsClause) (hrule : n.rule = .modifyColumn) :
    (movesOf (findModified n)).map Move.word = n.words := by
  obtain ⟨o, ho⟩ := ht.sole
  obtain ⟨column, hfound⟩ := findModified_ok h (by rw [hrule]; decide)
  rw [hfound]
  exact Node.word_of_sole ho ht.rule_ne column.name

/-- A clause without a position adds columns without moving them. -/
theorem movesOf_findAdded_of_free (h : Free .firstOrAfterColumn n.children)
    (hn : n.rule ≠ .firstOrAfterColumn) : (findAdded n).flatMap movesOf = [] := by
  have hmove : ∀ column, n.move? column = none := fun column =>
    Node.move?_eq_none_iff.mpr (Node.first?_eq_none (h.all_eq_nil hn))
  refine List.flatMap_eq_nil_iff.mpr fun finding hfinding => ?_
  unfold findAdded at hfinding
  split at hfinding
  next =>
    obtain rfl := List.mem_singleton.mp hfinding
    rfl
  next single _ =>
    obtain rfl := List.mem_singleton.mp hfinding
    cases hcolumn : single.columnDefinition with
    | error e => rfl
    | ok column =>
      rw [bind_eq_of_ok rfl, hmove]
      rfl
  next =>
    obtain ⟨u, -, rfl⟩ := List.mem_map.mp hfinding
    cases u.columnDefinition <;> rfl

/-- Added columns are moved where their words say. -/
theorem words_findAdded (h : n.Complete) (ht : n.IsClause) (hrule : n.rule = .addColumn) :
    ((findAdded n).flatMap movesOf).map Move.word = n.words := by
  obtain ⟨o, ho⟩ := ht.sole
  rcases ht.single hrule with hfree | ⟨d, hd⟩
  · rw [movesOf_findAdded_of_free hfree ht.rule_ne, Node.words, Node.outermost_of_ne ht.rule_ne,
      hfree.outermosts_eq_nil]
    rfl
  · have hall : n.all .columnDefinition = [d] := hd.all_eq (by rw [hrule]; decide)
    obtain ⟨column, hcolumn⟩ := h.columnDefinition_of_mem_all
      (by rw [hall]; exact List.mem_singleton_self d)
    have hfound : findAdded n = [.ok (.addColumn column (n.move? column.name))] := by
      unfold findAdded
      rw [hall]
      show [d.columnDefinition >>= _] = _
      rw [bind_eq_of_ok hcolumn]
      rfl
    rw [hfound, List.flatMap_singleton]
    exact Node.word_of_sole ho ht.rule_ne column.name

/-! ## Moves of whole trees -/

/-- The rules of the nodes that say moves to the clauses of this kind. -/
def placing : Clause → List Rule
  | addColumn => [.addColumn]
  | changeColumn => [.changeColumn]
  | modifyColumn => [.modifyColumn]
  | _ => []

private theorem all_eq_of_placing (hroot : root.rule = .alterTable)
    (hclauses : ∀ t ∈ root.children, t.IsClause) {r : Rule} (hr : r ∈ placingRules) :
    root.all r = root.children.filter (·.rule == r) := by
  refine Node.all_of_children (by rw [hroot]; rintro rfl; revert hr; decide) fun u hu => ?_
  obtain ⟨s, hs, hus⟩ := Node.mem_breadthFirst_iff.mp hu
  obtain ⟨t, ht, hst⟩ := List.mem_flatMap.mp hs
  exact (hclauses t ht).flat r hr s hst u hus

/-- Clauses of the other kinds move nothing. -/
theorem movesOf_eq_nil {clause : Clause} (hclause : clause.placing = []) :
    ∀ finding ∈ clause.findings root, movesOf finding = [] := by
  intro finding hfinding
  cases clause with
  | tableName =>
    obtain rfl := List.mem_singleton.mp hfinding
    cases root.require .tableName <;> rfl
  | dropColumn =>
    obtain ⟨n, -, rfl⟩ := List.mem_map.mp hfinding
    cases n.require .columnName <;> rfl
  | addIndex =>
    obtain ⟨n, -, rfl⟩ := List.mem_map.mp hfinding
    unfold findIndex
    dsimp only
    split <;> rfl
  | dropIndex =>
    obtain ⟨n, -, rfl⟩ := List.mem_map.mp hfinding
    cases n.require .indexName <;> rfl
  | renameIndex =>
    obtain ⟨n, -, rfl⟩ := List.mem_map.mp hfinding
    unfold findRename
    split <;> rfl
  | primaryKey r =>
    obtain ⟨n, -, hfinding⟩ := List.mem_flatMap.mp hfinding
    unfold findPrimaryKey at hfinding
    split at hfinding
    · split at hfinding <;> (obtain rfl := List.mem_singleton.mp hfinding; rfl)
    · cases hfinding
  | dropPrimaryKey =>
    rw [findings] at hfinding
    split at hfinding
    · obtain rfl := List.mem_singleton.mp hfinding
      rfl
    · cases hfinding
  | addColumn => cases hclause
  | changeColumn => cases hclause
  | modifyColumn => cases hclause

/-- The moves that one kind of clauses finds have the words of the positions in these clauses. -/
theorem words_findings (h : root.Complete) (hroot : root.rule = .alterTable)
    (hclauses : ∀ t ∈ root.children, t.IsClause) (clause : Clause) :
    ((clause.findings root).flatMap movesOf).map Move.word =
      clause.placing.flatMap fun r => (root.all r).flatMap Node.words := by
  have heach : ∀ {r : Rule} {f : Node → List Finding}, r ∈ placingRules →
      (∀ n : Node, n.Complete → n.IsClause → n.rule = r →
        ((f n).flatMap movesOf).map Move.word = n.words) →
      (((root.all r).flatMap f).flatMap movesOf).map Move.word =
        [r].flatMap fun r => (root.all r).flatMap Node.words := by
    intro r f hr hf
    rw [List.flatMap_assoc, List.map_flatMap, List.flatMap_singleton]
    refine List.flatMap_congr fun n hn => ?_
    obtain ⟨hwithin, hrule⟩ := Node.mem_all_iff.mp hn
    rw [all_eq_of_placing hroot hclauses hr] at hn
    exact hf n (h.within hwithin) (hclauses n (List.mem_filter.mp hn).1) hrule
  cases clause with
  | addColumn => exact heach (by decide) fun n => words_findAdded
  | changeColumn =>
    rw [findings, List.map_eq_flatMap (f := findChanged)]
    refine heach (r := .changeColumn) (by decide) fun n hn ht hrule => ?_
    rw [List.flatMap_singleton, words_findChanged hn ht hrule]
  | modifyColumn =>
    rw [findings, List.map_eq_flatMap (f := findModified)]
    refine heach (r := .modifyColumn) (by decide) fun n hn ht hrule => ?_
    rw [List.flatMap_singleton, words_findModified hn ht hrule]
  | _ =>
    rw [List.flatMap_eq_nil_iff.mpr (movesOf_eq_nil rfl)]
    rfl

end Clause

/-- Going through nodes rule by rule gives what going through them in order gives, if nodes of other
rules give nothing. -/
theorem flatMap_filter_perm {α : Type} {f : Node → List α} {rules : List Rule}
    (hrules : rules.Nodup) {ns : List Node} (h : ∀ t ∈ ns, t.rule ∉ rules → f t = []) :
    (rules.flatMap fun r => (ns.filter (·.rule == r)).flatMap f).Perm (ns.flatMap f) := by
  induction rules generalizing ns with
  | nil =>
    have hnone : ns.flatMap f = [] :=
      List.flatMap_eq_nil_iff.mpr fun t ht => h t ht List.not_mem_nil
    rw [hnone]
    rfl
  | cons r rules ih =>
    obtain ⟨hr, hrules⟩ := List.nodup_cons.mp hrules
    -- The further rules are gone through without the nodes of this one, which none of them has.
    have hother : ∀ r' ∈ rules, (ns.filter (!·.rule == r)).filter (·.rule == r') =
        ns.filter (·.rule == r') := by
      intro r' hr'
      rw [List.filter_filter]
      refine List.filter_congr fun t _ => ?_
      by_cases ht : t.rule = r'
      · subst ht
        have hne : t.rule ≠ r := fun heq => hr (heq ▸ hr')
        simp [hne]
      · simp [ht]
    have hnone : ∀ t ∈ ns.filter (!·.rule == r), t.rule ∉ rules → f t = [] := by
      intro t ht htr
      obtain ⟨hmem, hne⟩ := List.mem_filter.mp ht
      have hne' : t.rule ≠ r := by simpa using hne
      exact h t hmem (List.not_mem_cons_of_ne_of_not_mem hne' htr)
    have hrest := ih hrules hnone
    rw [List.flatMap_congr fun r' hr' => congrArg _ (hother r' hr')] at hrest
    have hsplit := (List.filter_append_perm (·.rule == r) ns).flatMap_right f
    rw [List.flatMap_append] at hsplit
    rw [List.flatMap_cons]
    exact (hrest.append_left _).trans hsplit

namespace Reader

variable {root : Node}

/-- The moves in the order of their reading have the words of the clauses kind by kind. -/
theorem words_by_kind (h : root.Complete) (hroot : root.rule = .alterTable)
    (hclauses : ∀ t ∈ root.children, t.IsClause) :
    ((mysql.clauses.flatMap (Clause.facts root)).flatMap Fact.moves).map Move.word =
      placingRules.flatMap fun r => (root.children.filter (·.rule == r)).flatMap Node.words :=
  calc ((mysql.clauses.flatMap (Clause.facts root)).flatMap Fact.moves).map Move.word
      = mysql.clauses.flatMap fun clause =>
          (((clause.findings root).flatMap Clause.movesOf).map Move.word) := by
        rw [List.flatMap_assoc, List.map_flatMap]
        refine List.flatMap_congr fun clause _ => ?_
        rw [Clause.facts, Clause.flatMap_moves]
    _ = mysql.clauses.flatMap fun clause =>
          clause.placing.flatMap fun r => (root.all r).flatMap Node.words :=
        List.flatMap_congr fun clause _ => Clause.words_findings h hroot hclauses clause
    _ = placingRules.flatMap fun r => (root.all r).flatMap Node.words := by
        rw [← List.flatMap_assoc]
        rfl
    _ = _ := List.flatMap_congr fun r hr => by
        rw [Clause.all_eq_of_placing hroot hclauses hr]

/-- All moves together have the words of the positions in the tree, each as often. -/
theorem words_perm (h : root.Complete) (hroot : root.rule = .alterTable)
    (hclauses : ∀ t ∈ root.children, t.IsClause) :
    (((mysql.clauses.flatMap (Clause.facts root)).flatMap Fact.moves).map Move.word).Perm
      root.words := by
  have hwords : root.words = root.children.flatMap Node.words := by
    rw [Node.words, Node.outermost_of_ne (by rw [hroot]; decide), Node.outermosts_eq_flatMap,
      List.map_flatMap]
    rfl
  rw [words_by_kind h hroot hclauses, hwords]
  refine flatMap_filter_perm (by decide) fun t ht hrule => ?_
  rw [Node.words, Node.outermost_of_ne (hclauses t ht).rule_ne,
    ((hclauses t ht).free hrule).outermosts_eq_nil]
  rfl

end Reader

/-! ## Written order -/

/-- Sorting moves whose words stand at distinct offsets puts them in the order of their words. -/
theorem Move.word_inOrder {moves : List Move} {words : List Written}
    (hperm : (moves.map word).Perm words) (hwords : words.Pairwise (·.offset < ·.offset)) :
    (inOrder moves).map word = words := by
  have hsorted : ((inOrder moves).map word).Pairwise (·.offset ≤ ·.offset) := by
    rw [List.pairwise_map]
    simpa only [offset_word] using inOrder_pairwise moves
  have hsame : ((inOrder moves).map word).Perm words := ((inOrder_perm moves).map word).trans hperm
  have hdistinct : ∀ a ∈ words, ∀ b ∈ words, a.offset = b.offset → a = b :=
    List.Pairwise.forall_of_forall_of_flip (fun _ _ _ => rfl)
      (hwords.imp fun h hab => absurd hab (Nat.ne_of_lt h))
      (hwords.imp fun h hba => absurd hba (Nat.ne_of_gt h))
  refine hsame.eq_of_pairwise (fun a b ha hb hab hba => ?_) hsorted
    (hwords.imp fun h => Nat.le_of_lt h)
  exact hdistinct a (hsame.mem_iff.mp ha) b hb (Nat.le_antisymm hab hba)

/-- The moves that are read from the tree of the text are said by the words: each word stands in
the text, before the next one, and says one move, and with the layout of the table at hand the
moves are in the order of the words. -/
structure MovesFollow (text : String) (tree : Node) (words : List Written) : Prop where
  standing : ∀ w ∈ words, ∃ k ∈ [Keyword.first, .after],
    w.token = .keyword k ∧ KeywordAt text k w.offset
  ascending : words.Pairwise (·.offset < ·.offset)
  found : ∃ s, Reader.mysql.read tree none = .ok s ∧ (s.moves.map Move.word).Perm words
  ordered : ∀ table, ∃ s, Reader.mysql.read tree (some table) = .ok s ∧
    s.moves.map Move.word = words ∧ s.moves.Pairwise (·.offset < ·.offset)

/-- Whatever tokens a statement is written with, its moves follow the words `FIRST` and `AFTER`
among them. -/
theorem moves_follow_words {text : String} {tree : Node} (h : Node.ofText? text = .ok tree) :
    (∃ ts, WrittenAs text ts) ∧
      ∀ ts, WrittenAs text ts → MovesFollow text tree (placeWords ts) := by
  refine ⟨exists_writtenAs h, fun ts hts => ?_⟩
  obtain ⟨tree', htree', hwords⟩ := hts.exists_tree
  obtain rfl : tree = tree' := Except.ok.inj (h.symm.trans htree')
  obtain ⟨n, hd⟩ := ofText?_eq_ok_iff_derives.mp h
  obtain ⟨-, hroot, -⟩ := hd.exists_below
  have hread := Reader.read_of_complete hd.complete hroot
  have hperm := Reader.words_perm hd.complete hroot fun _ ht => hd.isClause ht
  rw [Node.words, ← hwords] at hperm
  rw [Statement.foldl_record] at hread
  have hascending := hts.pairwise_placeWords
  refine ⟨fun w hw => hts.keywordAt hw, hascending, ⟨_, hread, hperm⟩, fun table => ?_⟩
  have hordered := Move.word_inOrder hperm hascending
  have hmoves := hascending
  rw [← hordered, List.pairwise_map] at hmoves
  simp only [Move.offset_word] at hmoves
  exact ⟨_, Reader.read_some_eq_ok hread table, hordered, hmoves⟩

/-- A statement that says moves by clauses of three kinds, not in the order of their reading. -/
def scatteredMoves : String :=
  "alter table t modify é int first,add b int default first after a,change c d date FIRST"

/-- Positions in clauses of three kinds, recorded kind by kind and written in another order. -/
theorem moves_follow_words_scattered : ∃ tree ts, Node.ofText? scatteredMoves = .ok tree ∧
    WrittenAs scatteredMoves ts ∧ (placeWords ts).map Written.offset = [28, 58, 82] ∧
    MovesFollow scatteredMoves tree (placeWords ts) := by
  have hwords : (Node.ofText? scatteredMoves).toOption.map (fun tree =>
      (tree.words).map Written.offset) = some [28, 58, 82] := by
    decide +kernel
  cases h : Node.ofText? scatteredMoves with
  | error fault =>
    rw [h] at hwords
    cases hwords
  | ok tree =>
    rw [h] at hwords
    obtain ⟨⟨ts, hts⟩, hfollow⟩ := moves_follow_words h
    obtain ⟨tree', htree', hsame⟩ := hts.exists_tree
    obtain rfl : tree = tree' := Except.ok.inj (h.symm.trans htree')
    refine ⟨tree, ts, rfl, hts, ?_, hfollow ts hts⟩
    rw [hsame]
    exact Option.some.inj hwords

end AlterTable
