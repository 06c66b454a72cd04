import AlterTable.Proofs.Statement.WrittenOrder
import AlterTable.Proofs.Draft.Facts
import Mathlib.Data.List.Flatten

/-!
# Orderly trees

The tree of a statement is a root over its clauses, none of which stands in another one. So looking
up a kind of clauses is going through the nodes right below the root. Trees of texts are orderly,
and so are trees from which clauses have been taken out.
-/

namespace AlterTable

open AlterTable.Draft (ruleOf)
open AlterTable.Grammar
open AlterTable.Node (Free)

/-- The rules of the nodes that the readers of clauses look for. -/
def clauseRules : List Rule :=
  Reader.mysql.clauses.map ruleOf

/-- The tree is one of a statement, with clauses that stand side by side and positions that stand
one behind the other. -/
structure Node.Orderly (root : Node) : Prop where
  rule : root.rule = .alterTable
  complete : root.Complete
  clauses : ∀ t ∈ root.children, t.IsClause
  flat : ∀ t ∈ root.children, ∀ r ∈ clauseRules, Free r t.children
  ascending : root.words.Pairwise (·.offset < ·.offset)

/-! ## Trees of texts -/

namespace Grammar.Production

open AlterTable.Parse

variable {spelling : Token → List Char → List Char → Prop}
variable {c n : Cursor} {tree t : Node} {r : Rule}

private theorem clauseRules_below : ∀ p ∈ belowRoot.tops, ∀ r ∈ clauseRules, r ∉ p.2.rules := by
  decide +kernel

private theorem Derives.flat (h : statement.Derives spelling c [tree] n) (ht : t ∈ tree.children)
    (hr : r ∈ clauseRules) : Free r t.children := by
  obtain ⟨_, -, hbelow⟩ := h.exists_below
  obtain ⟨p, hp, c', m, zs, -, -, rfl, hd, -⟩ := hbelow.exists_top ht
  exact hd.free (clauseRules_below p hp r hr)

end Grammar.Production

/-- Every parsed text has an orderly tree. -/
theorem Node.orderly_of_ofText? {text : String} {tree : Node} (h : Node.ofText? text = .ok tree) :
    tree.Orderly := by
  obtain ⟨n, hd⟩ := ofText?_eq_ok_iff_derives.mp h
  obtain ⟨-, hroot, -⟩ := hd.exists_below
  obtain ⟨ts, hts⟩ := exists_writtenAs h
  obtain ⟨tree', htree', hwords⟩ := hts.exists_tree
  obtain rfl : tree = tree' := Except.ok.inj (h.symm.trans htree')
  refine ⟨hroot, hd.complete, fun _ ht => hd.isClause ht, fun _ ht _ hr => hd.flat ht hr, ?_⟩
  have hascending := hts.pairwise_placeWords
  rwa [hwords] at hascending

/-! ## Looking up clauses -/

namespace Node.Orderly

variable {root n : Node} {r : Rule} {front back : List Node}

private theorem rule_ne (h : root.Orderly) (hr : r ∈ clauseRules) : root.rule ≠ r := by
  rw [h.rule]
  rintro rfl
  revert hr
  decide

/-- The nodes of a kind of clauses are those right below the root. -/
theorem all_eq (h : root.Orderly) (hr : r ∈ clauseRules) :
    root.all r = root.children.filter (·.rule == r) := by
  refine Node.all_of_children (h.rule_ne hr) fun u hu => ?_
  obtain ⟨s, hs, hus⟩ := Node.mem_breadthFirst_iff.mp hu
  obtain ⟨t, ht, hst⟩ := List.mem_flatMap.mp hs
  exact h.flat t ht r hr s hst u hus

/-- The name of the table stands right below the root. -/
theorem exists_tableName (h : root.Orderly) : ∃ t ∈ root.children, t.rule = .tableName := by
  have hneeds : Rule.tableName ∈ root.rule.needs := by
    rw [h.rule]
    decide
  obtain ⟨u, hu, hur⟩ := h.complete.parts root .self _ hneeds
  rcases Node.within_iff.mp hu with rfl | ⟨t, ht, hut⟩
  · rw [h.rule] at hur
    cases hur
  · rcases Node.within_iff.mp hut with rfl | ⟨v, hv, huv⟩
    · exact ⟨u, ht, hur⟩
    · exact absurd hur (h.flat t ht .tableName (by decide) v hv u huv)

end Node.Orderly

/-! ## Taking clauses out -/

namespace Node

variable {root n : Node} {front back : List Node}

/-- The words of a statement are those of its clauses, one clause after the other. -/
theorem words_of_alterTable (root : Node) (h : root.rule = .alterTable) :
    root.words = root.children.flatMap words := by
  rw [words, outermost_of_ne (by rw [h]; decide), outermosts_eq_flatMap, List.map_flatMap]
  rfl

/-- A root with other children is complete if these are, and if the name of the table is one. -/
theorem Complete.withChildren {ts : List Node} (hroot : root.rule = .alterTable)
    (hts : ∀ t ∈ ts, t.Complete) (htable : ∃ t ∈ ts, t.rule = .tableName) :
    Complete { root with children := ts } where
  parts := by
    intro u hu r hr
    rcases within_iff.mp hu with rfl | ⟨t, ht, hut⟩
    · have hneeds : r ∈ root.rule.needs := hr
      rw [hroot] at hneeds
      obtain rfl := List.mem_singleton.mp hneeds
      obtain ⟨t, ht, htr⟩ := htable
      exact ⟨t, within_of_mem_children ht, htr⟩
    · exact (hts t ht).parts u hut r hr
  names := by
    intro u hu hr
    rcases within_iff.mp hu with rfl | ⟨t, ht, hut⟩
    · have hrule : root.rule = .renameIndex := hr
      rw [hroot] at hrule
      cases hrule
    · exact (hts t ht).names u hut hr

/-- A tree stays orderly if a clause is taken out. -/
theorem Orderly.takeOut (h : root.Orderly) (hsplit : root.children = front ++ n :: back)
    (hn : n.rule ≠ .tableName) : Orderly { root with children := front ++ back } := by
  have hsub : (front ++ back).Sublist root.children := by
    rw [hsplit]
    exact (List.sublist_cons_self n back).append_left front
  have hcomplete : ∀ t ∈ front ++ back, t.Complete :=
    fun t ht => h.complete.within (within_of_mem_children (hsub.subset ht))
  have htable : ∃ t ∈ front ++ back, t.rule = .tableName := by
    obtain ⟨t, ht, htr⟩ := h.exists_tableName
    refine ⟨t, ?_, htr⟩
    rw [hsplit, List.mem_append, List.mem_cons] at ht
    rcases ht with ht | rfl | ht
    · exact List.mem_append_left _ ht
    · exact absurd htr hn
    · exact List.mem_append_right _ ht
  refine ⟨h.rule, .withChildren h.rule hcomplete htable, fun t ht => h.clauses t (hsub.subset ht),
    fun t ht => h.flat t (hsub.subset ht), ?_⟩
  have hascending := h.ascending
  rw [words_of_alterTable root h.rule] at hascending
  rw [words_of_alterTable { root with children := front ++ back } h.rule]
  exact hascending.sublist (hsub.flatMap _)

end Node

end AlterTable
