import AlterTable.Proofs.Grammar.Naming
import AlterTable.Proofs.Statement.ReadingOrder

/-!
# Statements with their clauses joined

Two statements about the same table can be made one, by a comma between their specifications. The
tree of the one has the clauses of the first tree as they are and behind them those of the second,
further on by as many bytes as now stand before them; and what it says is, kind by kind, what the
first statement says and then what the second one says.

No clause reaches across the comma, since what is derived does not depend on what follows, as long
as no word goes on there. The texts that are joined must not contain a Kelvin sign: what is read of
it depends on whether more text follows.
-/

namespace AlterTable

open AlterTable.Grammar
open AlterTable.Parse
open AlterTable.Reader

/-! ## Texts -/

/-- The text of a statement about the table. -/
def textAbout (name specifications : String) : String :=
  "ALTER TABLE " ++ name ++ " " ++ specifications

/-- The specifications of two statements in one. -/
def joined (a b : String) : String :=
  a ++ ", " ++ b

/-- The name is that of a table and nothing else. -/
def IsTableName (name : String) : Prop :=
  ∃ t n, tableName (.ofText name.toList) = .done t n ∧ n.rest = []

/-- The text ends with neither a semicolon nor white space. -/
def EndsOpen (s : List Char) : Prop :=
  ∀ d, s.getLast? = some d → d ≠ ';' ∧ isGap d = false

variable {name a b : String} {A B C tree : Node} {k : Nat}

/-- The characters of a statement about a table. -/
theorem toList_textAbout (name s : String) :
    (textAbout name s).toList = about name.toList s.toList := by
  have hopening : "ALTER TABLE ".toList = "ALTER TABLE".toList ++ [' '] := rfl
  have hblank : " ".toList = [' '] := rfl
  have hsplit : ∀ p q r t : String,
      (p ++ q ++ r ++ t).toList = p.toList ++ q.toList ++ r.toList ++ t.toList := by
    intro p q r t
    simp only [String.toList_append]
  show _ = "ALTER TABLE".toList ++ ' ' :: (name.toList ++ ' ' :: s.toList)
  rw [textAbout, hsplit, hopening, hblank]
  simp only [List.append_assoc, List.cons_append, List.nil_append]

private theorem toList_joined (a b : String) :
    (joined a b).toList = a.toList ++ ',' :: ' ' :: b.toList := by
  have hcomma : ", ".toList = [',', ' '] := rfl
  rw [joined, String.toList_append, String.toList_append, hcomma, List.append_assoc]
  rfl

/-! ## Derivations -/

namespace Grammar

variable {c e f m n : Cursor} {xs ys : List Node} {v w l l' : List Char}

/-- Specifications that are derived in a text that ends open leave nothing of it. -/
theorem rest_eq_nil_of_endsOpen
    (h : (Production.list .specification).Derives Token.Read ⟨k, ' ' :: l⟩ xs e)
    (hclosing : Production.closing.Derives Token.Read e ys m) (hopen : EndsOpen l) :
    e.rest = [] := by
  obtain ⟨w, hover⟩ := h.over
  have hlt : e.rest.length < (' ' :: l).length := h.accepted.length_lt rfl
  have hsplit : ' ' :: l = w ++ e.rest := hover.rest
  cases w with
  | nil =>
    rw [hsplit, List.nil_append] at hlt
    exact absurd hlt (Nat.lt_irrefl _)
  | cons d w =>
    have hl : l = w ++ e.rest := (List.cons.inj hsplit).2
    by_contra hne
    have hlast : l.getLast? = some (e.rest.getLast hne) := by
      rw [hl, List.getLast?_append_of_ne_nil _ hne, List.getLast?_eq_some_getLast hne]
    obtain ⟨hsemicolon, hgap⟩ := hopen _ hlast
    rcases hclosing.isClosing.2.mem _ (List.getLast_mem hne) with hd | hd
    · exact hsemicolon hd
    · rw [hgap] at hd
      cases hd

/-- No token of a statement without its closing may be missing from the text. -/
theorem not_nullable_of_mem_alterTable :
    ∀ t ∈ Production.alterTable.tokens, t.nullable = false := by
  decide +kernel

private theorem not_nullable_of_mem_tokens :
    ∀ t ∈ (Production.list .specification).tokens, t.nullable = false := by
  intro t ht
  apply not_nullable_of_mem_alterTable
  exact List.mem_append_right _ (List.mem_append_right _ (List.mem_append_left _ ht))

/-- Specifications that are derived from the whole of a text and from another one are derived from
both, with a comma between. -/
theorem derives_joined
    (h : (Production.list .specification).Derives Token.Read ⟨k, ' ' :: l⟩ xs e)
    (he : e.rest = [])
    (h' : (Production.list .specification).Derives Token.Read ⟨k, ' ' :: l'⟩ ys f)
    (hl : kelvinSign ∉ l) (hl' : kelvinSign ∉ l') :
    (Production.list .specification).Derives Token.Read ⟨k, ' ' :: (l ++ ',' :: ' ' :: l')⟩
      (xs ++ ys.map (Node.shift (Text.byteLength l + 2)))
      ⟨f.offset + (Text.byteLength l + 2), f.rest⟩ := by
  have hbehind : ∀ {d : Char} {s : List Char}, kelvinSign ≠ d → kelvinSign ∉ s →
      kelvinSign ∉ d :: s := List.not_mem_cons_of_ne_of_not_mem
  have hsecondRest : kelvinSign ∉ ' ' :: l' := hbehind (by decide) hl'
  have hfirst := (h.spelled_of_notMem (hbehind (by decide) hl)).inFrontOf
    (x := ',' :: ' ' :: l') not_nullable_of_mem_tokens rfl
  have hsecond := (h'.spelled_of_notMem hsecondRest).movedOn (Text.byteLength l + 2)
  have hoffset : e.offset = k + Text.byteLength (' ' :: l) := by
    obtain ⟨w, hover⟩ := h.over
    have hrest : ' ' :: l = w ++ e.rest := hover.rest
    rw [hover.offset, hrest, he, List.append_nil]
  have hcomma : (Production.mark .comma).Derives Token.Spelled
      ⟨e.offset, e.rest ++ ',' :: ' ' :: l'⟩ [] ⟨k + (Text.byteLength l + 2), ' ' :: l'⟩ := by
    refine .token (.mark gap_nil) ⟨?_, ?_⟩
    · rw [he]
      rfl
    · show k + (Text.byteLength l + 2) = e.offset + 1
      rw [hoffset]
      show _ = k + (1 + Text.byteLength l) + 1
      omega
  have hrest : kelvinSign ∉ l ++ ',' :: ' ' :: l' :=
    List.not_mem_append hl (hbehind (by decide) hsecondRest)
  exact (hfirst.list_append hcomma hsecond).read_of_notMem (hbehind (by decide) hrest)

end Grammar

/-! ## Trees -/

/-- The third tree has the name of the table that the first two have, and then the clauses of the
first one and, `k` bytes further on, those of the second one. -/
structure Node.Joined (k : Nat) (A B C table : Node) (as bs : List Node) : Prop where
  rule : table.rule = .tableName
  first : A.children = table :: as
  second : B.children = table :: bs
  both : C.children = table :: (as ++ bs.map (Node.shift k))
  start : ∀ t ∈ bs, ∀ u : Node, u.Within t → (u.shift k).start = u.start + k
  stop : ∀ t ∈ bs, ∀ u : Node, u.Within t → (u.shift k).stop = u.stop + k

/-- Whatever is derived behind the first byte starts there. -/
theorem Grammar.Production.Derives.start_pos {spelling : Token → List Char → List Char → Prop}
    {p : Production} {c n : Cursor} {xs : List Node} {t u : Node} (h : p.Derives spelling c xs n)
    (hc : 0 < c.offset) (ht : t ∈ xs) (hu : u.Within t) : 0 < u.start := by
  obtain ⟨q, -, c', m, ys, v, -, rfl, -, hv, -⟩ := h.exists_part ht hu
  have hle := offset_le_start_span q.1 c' m ys
  have hoffset := hv.offset
  omega

/-- The specifications of two statements about a table make one statement about it. -/
theorem exists_joined (hname : IsTableName name) (ha : kelvinSign ∉ a.toList)
    (hb : kelvinSign ∉ b.toList) (hopen : EndsOpen a.toList)
    (hA : Node.ofText? (textAbout name a) = .ok A) (hB : Node.ofText? (textAbout name b) = .ok B) :
    ∃ C table as bs, Node.ofText? (textAbout name (joined a b)) = .ok C ∧
      Node.Joined (a.utf8ByteSize + 2) A B C table as bs := by
  obtain ⟨t, n, htable, hn⟩ := hname
  have habout := toList_textAbout name
  obtain ⟨as, e, m, hlist, hclosing, rfl⟩ := (ofText?_about_iff htable hn (habout a)).mp hA
  obtain ⟨bs, f, m', hlist', hclosing', rfl⟩ := (ofText?_about_iff htable hn (habout b)).mp hB
  have hnil := rest_eq_nil_of_endsOpen hlist hclosing hopen
  have hboth := derives_joined hlist hnil hlist' ha hb
  rw [← toList_joined, Text.byteLength_toList] at hboth
  have hend := hclosing'.movedOn (a.utf8ByteSize + 2)
  have hC := (ofText?_about_iff htable hn (habout (joined a b))).mpr
    ⟨_, _, _, hboth, hend, rfl⟩
  refine ⟨_, nameNode 11 name.toList, as, bs, hC, rfl, rfl, rfl, rfl,
    fun _ _ u _ => u.start_mapStart _, fun t ht u hu => ?_⟩
  exact Node.stop_shift (hlist'.start_pos (Nat.add_pos_left (by decide) _) ht hu)

/-! ## Statements -/

namespace Clause

variable {root table : Node} {ts as bs : List Node} {clause : Clause}

/-- The name of the table is no clause, so the others say what there is to say. -/
theorem facts_of_children (h : root.Orderly) (hchildren : root.children = table :: ts)
    (htable : table.rule = .tableName) (hclause : clause ∈ nodewise) :
    clause.facts root = clause.factsAmong ts := by
  have hrule : table.rule ≠ Draft.ruleOf clause := by
    rw [htable]
    revert clause
    decide
  rw [facts_of_nodewise h hclause, hchildren, factsAmong_cons_of_ne hrule]

/-- A statement says the name of its table once. -/
theorem facts_tableName_of_children (h : root.rule = .alterTable)
    (hchildren : root.children = table :: ts) (htable : table.rule = .tableName) :
    Clause.tableName.facts root =
      [.table (String.ofList (plainTableName table.text.toList))] := by
  have hfirst : root.first? .tableName = some table := by
    refine Node.first?_of_child (by rw [h]; decide) ?_
    rw [hchildren, List.find?_cons_of_pos (by rw [htable]; rfl)]
  have hrequire : root.require .tableName = .ok table := by
    rw [Node.require, hfirst]
  rw [facts, findings, bind_eq_of_ok hrequire]
  rfl

end Clause

namespace Node.Joined

variable {table : Node} {as bs : List Node} {clause : Clause}

/-- Kind by kind, the clauses of the third tree say what those of the first two say. -/
theorem facts_eq (h : Node.Joined k A B C table as bs) (hA : A.Orderly) (hB : B.Orderly)
    (hC : C.Orderly) (hclause : clause ∈ Clause.nodewise) : clause.facts C =
      clause.facts A ++ (clause.facts B).map (Fact.mapOffset (· + k)) := by
  rw [Clause.facts_of_children hC h.both h.rule hclause,
    Clause.facts_of_children hA h.first h.rule hclause,
    Clause.facts_of_children hB h.second h.rule hclause, Clause.factsAmong_append,
    Clause.factsAmong_mapStart]

/-- What is said without offsets is said by the clauses of the one tree and then of the other. -/
theorem flatMap_facts_eq {α : Type} {say : Fact → List α}
    (hsay : ∀ (f : Nat → Nat) (fact : Fact), say (fact.mapOffset f) = say fact)
    (h : Node.Joined k A B C table as bs) (hA : A.Orderly) (hB : B.Orderly)
    (hC : C.Orderly) (hclause : clause ∈ Clause.nodewise) : (clause.facts C).flatMap say =
      (clause.facts A).flatMap say ++ (clause.facts B).flatMap say := by
  rw [h.facts_eq hA hB hC hclause, List.flatMap_append, List.flatMap_map]
  exact congrArg _ (List.flatMap_congr fun fact _ => hsay _ fact)

/-- The moves of joined statements are those of the first, and those of the second further on. -/
theorem movesFrom_eq (h : Node.Joined k A B C table as bs) (hA : A.Orderly) (hB : B.Orderly)
    (hC : C.Orderly) (hclause : clause ∈ Clause.nodewise) : movesFrom C clause =
      movesFrom A clause ++ (movesFrom B clause).map (Move.mapOffset (· + k)) := by
  rw [movesFrom, h.facts_eq hA hB hC hclause, List.flatMap_append, List.flatMap_map,
    movesFrom, movesFrom, List.map_flatMap]
  exact congrArg _ (List.flatMap_congr fun fact _ => fact.moves_mapOffset _)

/-- Joined statements drop the primary key if one of them does. -/
theorem dropsPrimaryKey_eq (h : Node.Joined k A B C table as bs) (hA : A.Orderly) (hB : B.Orderly)
    (hC : C.Orderly) : (gathered mysql.clauses C).dropsPrimaryKey =
      ((gathered mysql.clauses A).dropsPrimaryKey ||
        (gathered mysql.clauses B).dropsPrimaryKey) := by
  have htable : (table.rule == Rule.dropPrimaryKey) = false := by
    rw [h.rule]
    rfl
  have hshift : (bs.map (Node.shift k)).any (·.rule == .dropPrimaryKey) =
      bs.any (·.rule == .dropPrimaryKey) := by
    rw [List.any_map]
    exact congrArg bs.any (funext fun t => by rw [Function.comp_apply, Node.rule_mapStart])
  rw [dropsPrimaryKey_gathered hA, dropsPrimaryKey_gathered hB, dropsPrimaryKey_gathered hC,
    h.first, h.second, h.both, List.any_cons, List.any_cons, List.any_cons, htable,
    List.any_append, hshift, Bool.false_or, Bool.false_or, Bool.false_or]

end Node.Joined

/-- The two lists that take from more than one kind of clauses, part by part. -/
structure Statement.InParts (s : Statement) (root : Node) : Prop where
  changed : s.changedColumns = changes root .changeColumn ++ changes root .modifyColumn
  moved : s.moves = movesFrom root .addColumn ++ movesFrom root .changeColumn ++
    movesFrom root .modifyColumn

/-- In each list the third statement has what the first one has and then what the second one has,
with offsets that are `k` bytes further on. The lists that take from more than one kind of clauses
do so for each kind. -/
structure Statement.Joined (k : Nat) (A B C : Node) (s s' t : Statement) : Prop where
  table : t.table = s.table ∧ t.table = s'.table
  addedColumns : t.addedColumns = s.addedColumns ++ s'.addedColumns
  droppedColumns : t.droppedColumns = s.droppedColumns ++ s'.droppedColumns
  addedIndexes : t.addedIndexes = s.addedIndexes ++ s'.addedIndexes
  droppedIndexes : t.droppedIndexes = s.droppedIndexes ++ s'.droppedIndexes
  renamedIndexes : t.renamedIndexes = s.renamedIndexes ++ s'.renamedIndexes
  addedPrimaryKey : t.addedPrimaryKey = s.addedPrimaryKey ++ s'.addedPrimaryKey
  dropsPrimaryKey : t.dropsPrimaryKey = (s.dropsPrimaryKey || s'.dropsPrimaryKey)
  layout : s.layout = none ∧ s'.layout = none ∧ t.layout = none
  parts : s.InParts A ∧ s'.InParts B ∧ t.InParts C
  changed : ∀ clause ∈ [Clause.changeColumn, .modifyColumn],
    changes C clause = changes A clause ++ changes B clause
  moved : ∀ clause ∈ [Clause.addColumn, .changeColumn, .modifyColumn],
    movesFrom C clause = movesFrom A clause ++ (movesFrom B clause).map (Move.mapOffset (· + k))

/-- What is gathered takes its two mixed lists part by part. -/
theorem Reader.inParts_gathered (root : Node) : (gathered mysql.clauses root).InParts root where
  changed := by rw [gathered_mysql]
  moved := by rw [gathered_mysql]

/-- What is gathered from joined trees is joined. -/
theorem Node.Joined.gathered {table : Node} {as bs : List Node}
    (h : Node.Joined k A B C table as bs) (hA : A.Orderly) (hB : B.Orderly) (hC : C.Orderly) :
    Statement.Joined k A B C (gathered mysql.clauses A) (gathered mysql.clauses B)
      (gathered mysql.clauses C) where
  table := by
    rw [gathered_mysql, gathered_mysql, gathered_mysql,
      Clause.facts_tableName_of_children hA.rule h.first h.rule,
      Clause.facts_tableName_of_children hB.rule h.second h.rule,
      Clause.facts_tableName_of_children hC.rule h.both h.rule]
    exact ⟨rfl, rfl⟩
  addedColumns := by
    rw [gathered_mysql, gathered_mysql, gathered_mysql]
    exact h.flatMap_facts_eq Fact.added_mapOffset hA hB hC (by decide)
  droppedColumns := by
    rw [gathered_mysql, gathered_mysql, gathered_mysql]
    exact h.flatMap_facts_eq Fact.dropped_mapOffset hA hB hC (by decide)
  addedIndexes := by
    rw [gathered_mysql, gathered_mysql, gathered_mysql]
    exact h.flatMap_facts_eq Fact.addedIndex_mapOffset hA hB hC (by decide)
  droppedIndexes := by
    rw [gathered_mysql, gathered_mysql, gathered_mysql]
    exact h.flatMap_facts_eq Fact.droppedIndex_mapOffset hA hB hC (by decide)
  renamedIndexes := by
    rw [gathered_mysql, gathered_mysql, gathered_mysql]
    exact h.flatMap_facts_eq Fact.renamedIndex_mapOffset hA hB hC (by decide)
  addedPrimaryKey := by
    rw [gathered_mysql, gathered_mysql, gathered_mysql]
    exact h.flatMap_facts_eq Fact.addedKey_mapOffset hA hB hC (by decide)
  dropsPrimaryKey := h.dropsPrimaryKey_eq hA hB hC
  layout := by
    rw [gathered_mysql, gathered_mysql, gathered_mysql]
    exact ⟨rfl, rfl, rfl⟩
  parts := ⟨inParts_gathered A, inParts_gathered B, inParts_gathered C⟩
  changed clause hclause := by
    have hnodewise : clause ∈ Clause.nodewise := by
      revert clause
      decide
    exact h.flatMap_facts_eq Fact.changed_mapOffset hA hB hC hnodewise
  moved clause hclause := by
    have hnodewise : clause ∈ Clause.nodewise := by
      revert clause
      decide
    exact h.movesFrom_eq hA hB hC hnodewise

/-- Two statements about a table can be made one with a comma between their specifications: its tree
has the clauses of the first tree and, further on, those of the second, and it says what the first
statement says and then what the second one says. -/
theorem ofText?_joined (hname : IsTableName name) (ha : kelvinSign ∉ a.toList)
    (hb : kelvinSign ∉ b.toList) (hopen : EndsOpen a.toList)
    (hA : Node.ofText? (textAbout name a) = .ok A) (hB : Node.ofText? (textAbout name b) = .ok B) :
    ∃ C table as bs s s' t, Node.ofText? (textAbout name (joined a b)) = .ok C ∧
      Node.Joined (a.utf8ByteSize + 2) A B C table as bs ∧
      mysql.read A none = .ok s ∧ mysql.read B none = .ok s' ∧ mysql.read C none = .ok t ∧
      Statement.Joined (a.utf8ByteSize + 2) A B C s s' t := by
  obtain ⟨C, table, as, bs, hC, htrees⟩ := exists_joined hname ha hb hopen hA hB
  exact ⟨C, table, as, bs, _, _, _, hC, htrees, read_of_ofText? hA, read_of_ofText? hB,
    read_of_ofText? hC, htrees.gathered (Node.orderly_of_ofText? hA) (Node.orderly_of_ofText? hB)
      (Node.orderly_of_ofText? hC)⟩

/-- A result that is there is a success. -/
theorem exists_of_isSome {ε α : Type} {x : Except ε α} (h : x.toOption.isSome = true) :
    ∃ v, x = .ok v := by
  cases x with
  | error e => cases h
  | ok v => exact ⟨v, rfl⟩

/-- Two statements of which the second one ends with a semicolon and moves a column. -/
theorem ofText?_joined_behind : IsTableName "s.t" ∧ ∃ A B,
    Node.ofText? (textAbout "s.t" "ADD é INT FIRST, DROP PRIMARY KEY") = .ok A ∧
    Node.ofText? (textAbout "s.t" "drop y, MODIFY x INT AFTER é ; ") = .ok B ∧
    ∃ C table as bs s s' t, Node.ofText? (textAbout "s.t"
        (joined "ADD é INT FIRST, DROP PRIMARY KEY" "drop y, MODIFY x INT AFTER é ; ")) = .ok C ∧
      Node.Joined 36 A B C table as bs ∧ mysql.read A none = .ok s ∧ mysql.read B none = .ok s' ∧
      mysql.read C none = .ok t ∧ Statement.Joined 36 A B C s s' t := by
  have hname : IsTableName "s.t" := ⟨_, _, rfl, rfl⟩
  have hopen : EndsOpen "ADD é INT FIRST, DROP PRIMARY KEY".toList := by
    rintro d hd
    obtain rfl : 'Y' = d := Option.some.inj hd
    decide
  obtain ⟨A, hA⟩ := exists_of_isSome (x := Node.ofText?
    (textAbout "s.t" "ADD é INT FIRST, DROP PRIMARY KEY")) (by decide +kernel)
  obtain ⟨B, hB⟩ := exists_of_isSome (x := Node.ofText?
    (textAbout "s.t" "drop y, MODIFY x INT AFTER é ; ")) (by decide +kernel)
  exact ⟨hname, A, B, hA, hB, ofText?_joined hname (by decide) (by decide) hopen hA hB⟩

end AlterTable
