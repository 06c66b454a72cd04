import AlterTable.Proofs.Node.Outermost
import AlterTable.Proofs.Statement.Orderly

/-!
# Where rules occur in trees of texts

Most parts of a clause occur in it at most once, and the others right below its node only, which
shows in the grammar (`sole_of_mem_parts`, `flat_of_mem_parts`). So a tree of a text is regular:
what is looked up in it stands where it is expected. And every node stands at the end of a path of
rules that the grammar has, so the places at which something can be named are those of a finite
list.
-/

namespace AlterTable

open AlterTable.Grammar
open AlterTable.Node (Free Sole)

/-! ## Paths -/

namespace Grammar.Production

open AlterTable.Parse

variable {spelling : Token → List Char → List Char → Prop}
variable {a : Production} {c m n : Cursor} {xs : List Node} {t u tree : Node} {r : Rule}
variable {p : Rule × Production} {path : List Rule}

/-- The rules on the way to each part that has nodes, the part's own rule included. -/
def paths : Production → List (List Rule)
  | never => []
  | empty => []
  | token _ => []
  | seq a b => a.paths ++ b.paths
  | alt a b => a.paths ++ b.paths
  | star a => a.paths
  | node r a => [r] :: a.paths.map (r :: ·)

private theorem singleton_mem_paths (hp : p ∈ a.tops) : [p.1] ∈ a.paths := by
  induction a with
  | never => cases hp
  | empty => cases hp
  | token t => cases hp
  | seq a b iha ihb => exact List.mem_append.mpr ((List.mem_append.mp hp).imp iha ihb)
  | alt a b iha ihb => exact List.mem_append.mpr ((List.mem_append.mp hp).imp iha ihb)
  | star a ih => exact ih hp
  | node r a =>
    obtain rfl := List.mem_singleton.mp hp
    exact List.mem_cons_self

private theorem cons_mem_paths (hp : p ∈ a.tops) (hpath : path ∈ p.2.paths) :
    p.1 :: path ∈ a.paths := by
  induction a with
  | never => cases hp
  | empty => cases hp
  | token t => cases hp
  | seq a b iha ihb => exact List.mem_append.mpr ((List.mem_append.mp hp).imp iha ihb)
  | alt a b iha ihb => exact List.mem_append.mpr ((List.mem_append.mp hp).imp iha ihb)
  | star a ih => exact ih hp
  | node r a =>
    obtain rfl := List.mem_singleton.mp hp
    exact List.mem_cons_of_mem _ (List.mem_map_of_mem hpath)

/-- A node that stands anywhere in what is derived stands at the end of a path of the grammar. -/
theorem Derives.exists_path (h : a.Derives spelling c xs n) (ht : t ∈ xs) (hu : u.Within t) :
    ∃ path, t.rule :: path ∈ a.paths ∧ u ∈ t.along path := by
  induction hu generalizing a c xs n with
  | self =>
    obtain ⟨p, hp, c', m, ys, v, w, rfl, -⟩ := h.exists_top ht
    exact ⟨[], singleton_mem_paths hp, List.mem_singleton_self _⟩
  | @under s t' ht' _ ih =>
    obtain ⟨p, hp, c', m, ys, v, w, rfl, hd, -⟩ := h.exists_top ht
    obtain ⟨path, hpath, hu⟩ := ih hd ht'
    exact ⟨t'.rule :: path, cons_mem_paths hp hpath, Node.mem_along_cons ht' hu⟩

end Grammar.Production

/-! ## Regular trees -/

/-- The parts of which a node of the rule has at most one, however far down. -/
def Rule.soles : Rule → List Rule
  | addColumn => [firstOrAfterColumn]
  | columnDefinition => [columnName]
  | firstOrAfterColumn => [columnName]
  | addIndex => [indexName, keyParts]
  | addConstraint => [primaryKey, keyParts]
  | dropIndex => [indexName]
  | dropColumn => [columnName]
  | changeColumn => [columnDefinition, firstOrAfterColumn]
  | modifyColumn => [columnDefinition, firstOrAfterColumn]
  | _ => []

/-- The parts that stand right below a node of the rule, if they stand in it at all. -/
def Rule.flats : Rule → List Rule
  | addColumn => [columnDefinition]
  | keyParts => [columnName]
  | renameIndex => [indexName]
  | _ => []

/-- No rule is among the parts that its own nodes have at most once. -/
theorem Rule.notMem_soles (r : Rule) : r ∉ r.soles := by
  cases r <;> decide

/-- No rule is among the parts that stand right below its own nodes. -/
theorem Rule.notMem_flats (r : Rule) : r ∉ r.flats := by
  cases r <;> decide

/-- What can be looked up in a node stands at one place of it, or right below it. -/
structure Node.Regular (n : Node) : Prop where
  sole : ∀ u : Node, u.Within n → ∀ r ∈ u.rule.soles, ∃ o, Sole r u.children o
  flat : ∀ u : Node, u.Within n → ∀ r ∈ u.rule.flats, ∀ t ∈ u.children, Free r t.children
  /-- The column to change is named first and right below the node, and no other one is there. -/
  changed : ∀ u : Node, u.Within n → u.rule = .changeColumn →
    ∃ old rest, u.children = old :: rest ∧ old.rule = .columnName ∧
      ∀ t ∈ rest, t.rule ≠ .columnName
  keyed : ∀ u : Node, u.Within n → u.rule = .addConstraint → u.hasPart .primaryKey = true

namespace Grammar.Production

open AlterTable.Parse

variable {spelling : Token → List Char → List Char → Prop}
variable {a : Production} {c m n : Cursor} {xs : List Node} {t u tree : Node} {r : Rule}

private theorem sole_of_mem_parts : ∀ p ∈ statement.parts, ∀ r ∈ p.1.soles, p.2.once r = true := by
  decide +kernel

private theorem flat_of_mem_parts : ∀ p ∈ statement.parts, ∀ r ∈ p.1.flats, ∀ q ∈ p.2.tops,
    r ∉ q.2.rules := by
  decide +kernel

private theorem eq_changeColumn : ∀ p ∈ statement.parts, p.1 = .changeColumn →
    node p.1 p.2 = changeColumn := by
  decide +kernel

private theorem primaryKey_mem_musts : ∀ p ∈ statement.parts, p.1 = .addConstraint →
    .primaryKey ∈ p.2.musts := by
  decide +kernel

/-- Behind the name of the column to change stand its definition and perhaps a position. -/
theorem Derives.eq_of_changeColumn (h : changeColumn.Derives spelling c [u] n) :
    ∃ old rest, u.children = old :: rest ∧ old.rule = .columnName ∧
      ∀ t ∈ rest, t.rule ≠ .columnName := by
  obtain ⟨ys, hu, h₁⟩ := derives_node.mp h
  obtain ⟨_, _, _, rfl, hchange, h₂⟩ := derives_seq.mp h₁
  obtain ⟨_, _, _, rfl, hcolumn, h₃⟩ := derives_seq.mp h₂
  obtain ⟨_, _, rest, rfl, hold, h₄⟩ := derives_seq.mp h₃
  obtain ⟨rfl, -⟩ := derives_token.mp hchange
  obtain rfl := hcolumn.eq_nil_of_parts rfl
  obtain ⟨old, rfl, hrule, -⟩ := hold.eq_of_name
  cases hu
  refine ⟨old, rest, rfl, hrule, fun t ht => ?_⟩
  obtain ⟨p, hp, c', m, zs, v, w, rfl, -⟩ := h₄.exists_top ht
  have hrules : ∀ p ∈ (seqs [definition, option position]).tops, p.1 ≠ .columnName := by
    decide
  exact hrules p hp

/-- Whatever is derived for a text is regular. -/
theorem Derives.regular (h : statement.Derives spelling c [tree] n) : tree.Regular where
  sole := by
    intro u hu r hr
    obtain ⟨p, hp, c', m, xs, -, -, rfl, hd, -⟩ := h.exists_part (List.mem_singleton_self _) hu
    exact hd.exists_sole (sole_of_mem_parts p hp r hr)
  flat := by
    intro u hu r hr t ht
    obtain ⟨p, hp, c', m, xs, -, -, rfl, hd, -⟩ := h.exists_part (List.mem_singleton_self _) hu
    obtain ⟨q, hq, c'', m', ys, -, -, rfl, hd', -⟩ := hd.exists_top ht
    exact hd'.free (flat_of_mem_parts p hp r hr q hq)
  changed := by
    intro u hu hr
    obtain ⟨p, hp, c', m, xs, -, -, rfl, hd, -⟩ := h.exists_part (List.mem_singleton_self _) hu
    have hnode : changeColumn.Derives spelling c' [span p.1 c' m xs] m :=
      eq_changeColumn p hp hr ▸ .node hd
    exact hnode.eq_of_changeColumn
  keyed := by
    intro u hu hr
    obtain ⟨p, hp, c', m, xs, -, -, rfl, hd, -⟩ := h.exists_part (List.mem_singleton_self _) hu
    obtain ⟨t, ht, htr⟩ := hd.exists_of_mem_musts (primaryKey_mem_musts p hp hr)
    exact Node.hasPart_iff.mpr (List.ne_nil_of_mem
      (Node.mem_all_iff.mpr ⟨Node.within_of_mem_children ht, htr⟩))

end Grammar.Production

/-- A parsed text has a regular tree. -/
theorem Node.regular_of_ofText? {text : String} {tree : Node} (h : Node.ofText? text = .ok tree) :
    tree.Regular := by
  obtain ⟨n, hd⟩ := Grammar.ofText?_eq_ok_iff_derives.mp h
  exact hd.regular

namespace Node.Regular

variable {n u t : Node} {r : Rule}

/-- What is regular has regular nodes below it. -/
theorem within (h : n.Regular) (hu : u.Within n) : u.Regular where
  sole v hv := h.sole v (hv.trans hu)
  flat v hv := h.flat v (hv.trans hu)
  changed v hv := h.changed v (hv.trans hu)
  keyed v hv := h.keyed v (hv.trans hu)

/-- A node is not of the rule of a part that it has at most once. -/
theorem rule_ne_of_mem_soles (hr : r ∈ n.rule.soles) : n.rule ≠ r :=
  fun h => n.rule.notMem_soles (h.symm ▸ hr)

/-- A part that a node needs and has at most once is there once. -/
theorem exists_sole (h : n.Regular) (hcomplete : n.Complete) (hr : r ∈ n.rule.soles)
    (hneeds : r ∈ n.rule.needs) : ∃ u, Sole r n.children (some u) := by
  obtain ⟨o, ho⟩ := h.sole n .self r hr
  obtain ⟨v, hv, hvr⟩ := hcomplete.parts n .self r hneeds
  obtain rfl := ho.eq_some (rule_ne_of_mem_soles hr) hv hvr
  exact ⟨v, ho⟩

/-- Names that a rule has on one level only are found on that level. -/
theorem all_eq (h : n.Regular) (hr : r ∈ n.rule.flats) : n.all r = n.along [r] :=
  Node.all_of_flat (fun hn => n.rule.notMem_flats (hn.symm ▸ hr)) (h.flat n .self r hr)

end Node.Regular

end AlterTable
