import AlterTable.Proofs.Grammar.Rules
import AlterTable.Proofs.Node.Outermost

/-!
# Parts of productions

What a grammar alone says of the trees that it derives. `tops` and `parts` list the parts that have
nodes, at the top and at any depth; `musts` has the rules of which every derivation has a node at
the top, and `once` checks that no derivation has more than one node of a rule. A node that stands
anywhere in a derived tree was derived from one of the parts, between two places on the way
(`Derives.exists_part`), so what all nodes of a rule have in common is found by looking through the
finitely many parts of the grammar.
-/

namespace AlterTable.Grammar.Production

open AlterTable.Parse

deriving instance DecidableEq for Production

variable {spelling : Token → List Char → List Char → Prop}
variable {a b : Production} {c c' m n : Cursor} {xs : List Node} {t u : Node} {r : Rule}
variable {p : Rule × Production}

/-! ## Where a node comes from -/

/-- The parts that have nodes at the top, each with what is derived for its node's children. -/
def tops : Production → List (Rule × Production)
  | never => []
  | empty => []
  | token _ => []
  | seq a b => a.tops ++ b.tops
  | alt a b => a.tops ++ b.tops
  | star a => a.tops
  | node r a => [(r, a)]

/-- The parts that have nodes at any depth. -/
def parts : Production → List (Rule × Production)
  | never => []
  | empty => []
  | token _ => []
  | seq a b => a.parts ++ b.parts
  | alt a b => a.parts ++ b.parts
  | star a => a.parts
  | node r a => (r, a) :: a.parts

/-- The parts of a part are parts as well. -/
theorem mem_parts_of_mem_tops (hp : p ∈ a.tops) : p ∈ a.parts ∧ p.2.parts ⊆ a.parts := by
  have hleft : ∀ {ps qs : List (Rule × Production)}, p ∈ ps ∧ p.2.parts ⊆ ps →
      p ∈ ps ++ qs ∧ p.2.parts ⊆ ps ++ qs :=
    fun ⟨hmem, hsub⟩ => ⟨List.mem_append_left _ hmem, List.subset_append_of_subset_left _ hsub⟩
  have hright : ∀ {ps qs : List (Rule × Production)}, p ∈ qs ∧ p.2.parts ⊆ qs →
      p ∈ ps ++ qs ∧ p.2.parts ⊆ ps ++ qs :=
    fun ⟨hmem, hsub⟩ => ⟨List.mem_append_right _ hmem, List.subset_append_of_subset_right _ hsub⟩
  induction a with
  | never => cases hp
  | empty => cases hp
  | token t => cases hp
  | seq a b iha ihb =>
    rcases List.mem_append.mp hp with hp | hp
    · exact hleft (iha hp)
    · exact hright (ihb hp)
  | alt a b iha ihb =>
    rcases List.mem_append.mp hp with hp | hp
    · exact hleft (iha hp)
    · exact hright (ihb hp)
  | star a ih => exact ih hp
  | node r a =>
    obtain rfl := List.mem_singleton.mp hp
    exact ⟨List.mem_cons_self, List.subset_cons_self _ _⟩

/-- The node was derived from the part somewhere between the two places. -/
def DerivedWithin (spelling : Token → List Char → List Char → Prop) (p : Rule × Production)
    (c n : Cursor) (u : Node) : Prop :=
  ∃ c' m xs v w, u = span p.1 c' m xs ∧ p.2.Derives spelling c' xs m ∧ c.Over v c' ∧ m.Over w n

/-- What is derived inside a part is derived inside one that begins earlier. -/
theorem DerivedWithin.before {v : List Char} (h : DerivedWithin spelling p m n u)
    (hv : c.Over v m) : DerivedWithin spelling p c n u := by
  obtain ⟨c', m', xs, v', w, hu, hd, hc, hm⟩ := h
  exact ⟨c', m', xs, v ++ v', w, hu, hd, hv.trans hc, hm⟩

/-- What is derived inside a part is derived inside one that ends later. -/
theorem DerivedWithin.behind {w : List Char} (h : DerivedWithin spelling p c m u)
    (hw : m.Over w n) : DerivedWithin spelling p c n u := by
  obtain ⟨c', m', xs, v, w', hu, hd, hc, hm⟩ := h
  exact ⟨c', m', xs, v, w' ++ w, hu, hd, hc, hm.trans hw⟩

/-- Each tree that is derived comes from one of the parts at the top. -/
theorem Derives.exists_top (h : a.Derives spelling c xs n) (ht : t ∈ xs) :
    ∃ p ∈ a.tops, DerivedWithin spelling p c n t := by
  induction h with
  | empty => cases ht
  | token => cases ht
  | seq ha hb iha ihb =>
    rcases List.mem_append.mp ht with ht | ht
    · obtain ⟨p, hp, hpart⟩ := iha ht
      obtain ⟨w, hw⟩ := hb.over
      exact ⟨p, List.mem_append_left _ hp, hpart.behind hw⟩
    · obtain ⟨p, hp, hpart⟩ := ihb ht
      obtain ⟨v, hv⟩ := ha.over
      exact ⟨p, List.mem_append_right _ hp, hpart.before hv⟩
  | left _ ih =>
    obtain ⟨p, hp, hpart⟩ := ih ht
    exact ⟨p, List.mem_append_left _ hp, hpart⟩
  | right _ ih =>
    obtain ⟨p, hp, hpart⟩ := ih ht
    exact ⟨p, List.mem_append_right _ hp, hpart⟩
  | starNil => cases ht
  | starCons ha hs iha ihs =>
    rcases List.mem_append.mp ht with ht | ht
    · obtain ⟨p, hp, hpart⟩ := iha ht
      obtain ⟨w, hw⟩ := hs.over
      exact ⟨p, hp, hpart.behind hw⟩
    · obtain ⟨p, hp, hpart⟩ := ihs ht
      obtain ⟨v, hv⟩ := ha.over
      exact ⟨p, hp, hpart.before hv⟩
  | @node r a c n xs ha =>
    obtain rfl := List.mem_singleton.mp ht
    exact ⟨(r, a), List.mem_singleton_self _, c, n, xs, [], [], rfl, ha, .refl c, .refl n⟩

/-- A node that stands anywhere in what is derived was derived from one of the parts. -/
theorem Derives.exists_part (h : a.Derives spelling c xs n) (ht : t ∈ xs) (hu : u.Within t) :
    ∃ p ∈ a.parts, DerivedWithin spelling p c n u := by
  induction hu generalizing a c xs n with
  | self =>
    obtain ⟨p, hp, hpart⟩ := h.exists_top ht
    exact ⟨p, (mem_parts_of_mem_tops hp).1, hpart⟩
  | under hchild _ ih =>
    obtain ⟨p, hp, c', m, ys, v, w, rfl, hd, hv, hw⟩ := h.exists_top ht
    obtain ⟨q, hq, hpart⟩ := ih hd hchild
    exact ⟨q, (mem_parts_of_mem_tops hp).2 hq, (hpart.before hv).behind hw⟩

/-- The rules of the nodes that a production may derive, at any depth. -/
def rules (a : Production) : List Rule :=
  a.parts.map Prod.fst

private theorem Derives.rule_mem_rules (h : a.Derives spelling c xs n) (ht : t ∈ xs)
    (hu : u.Within t) : u.rule ∈ a.rules := by
  obtain ⟨p, hp, c', m, ys, v, w, rfl, -⟩ := h.exists_part ht hu
  exact List.mem_map_of_mem hp

/-- Without parts that have nodes, nothing is derived but text. -/
theorem Derives.eq_nil_of_parts (h : a.Derives spelling c xs n) (ha : a.parts = []) : xs = [] := by
  refine List.eq_nil_iff_forall_not_mem.mpr fun t ht => ?_
  obtain ⟨p, hp, -⟩ := h.exists_part ht .self
  rw [ha] at hp
  cases hp

/-! ## Between which places a node is derived -/

/-- A derivation in which the node `u` is derived from the place `c` to the place `n`, at the top or
at some depth. It goes along the derivation up to that node and no further. -/
inductive DerivesWith (spelling : Token → List Char → List Char → Prop) (u : Node) (c n : Cursor) :
    Production → Cursor → List Node → Cursor → Prop
  | here {r : Rule} {a : Production} {xs : List Node} :
      a.Derives spelling c xs n → u = span r c n xs → DerivesWith spelling u c n (.node r a) c [u] n
  | inside {r : Rule} {a : Production} {first last : Cursor} {xs : List Node} :
      DerivesWith spelling u c n a first xs last →
      DerivesWith spelling u c n (.node r a) first [span r first last xs] last
  | seqLeft {a b : Production} {first m last : Cursor} {xs ys : List Node} :
      DerivesWith spelling u c n a first xs m → b.Derives spelling m ys last →
      DerivesWith spelling u c n (.seq a b) first (xs ++ ys) last
  | seqRight {a b : Production} {first m last : Cursor} {xs ys : List Node} :
      a.Derives spelling first xs m → DerivesWith spelling u c n b m ys last →
      DerivesWith spelling u c n (.seq a b) first (xs ++ ys) last
  | left {a b : Production} {first last : Cursor} {xs : List Node} :
      DerivesWith spelling u c n a first xs last →
      DerivesWith spelling u c n (.alt a b) first xs last
  | right {a b : Production} {first last : Cursor} {xs : List Node} :
      DerivesWith spelling u c n b first xs last →
      DerivesWith spelling u c n (.alt a b) first xs last
  | starHead {a : Production} {first m last : Cursor} {xs ys : List Node} :
      DerivesWith spelling u c n a first xs m → (star a).Derives spelling m ys last →
      DerivesWith spelling u c n (.star a) first (xs ++ ys) last
  | starTail {a : Production} {first m last : Cursor} {xs ys : List Node} :
      a.Derives spelling first xs m → DerivesWith spelling u c n (.star a) m ys last →
      DerivesWith spelling u c n (.star a) first (xs ++ ys) last

/-- Every node that is derived, is derived between some two places on the way. -/
theorem Derives.exists_derivesWith (h : a.Derives spelling c xs n) (ht : t ∈ xs)
    (hu : u.Within t) : ∃ c' n', a.DerivesWith spelling u c' n' c xs n := by
  induction h generalizing t with
  | empty => cases ht
  | token => cases ht
  | seq ha hb iha ihb =>
    rcases List.mem_append.mp ht with ht | ht
    · obtain ⟨c', n', hwith⟩ := iha ht hu
      exact ⟨c', n', .seqLeft hwith hb⟩
    · obtain ⟨c', n', hwith⟩ := ihb ht hu
      exact ⟨c', n', .seqRight ha hwith⟩
  | left _ ih =>
    obtain ⟨c', n', hwith⟩ := ih ht hu
    exact ⟨c', n', .left hwith⟩
  | right _ ih =>
    obtain ⟨c', n', hwith⟩ := ih ht hu
    exact ⟨c', n', .right hwith⟩
  | starNil => cases ht
  | starCons ha hs iha ihs =>
    rcases List.mem_append.mp ht with ht | ht
    · obtain ⟨c', n', hwith⟩ := iha ht hu
      exact ⟨c', n', .starHead hwith hs⟩
    · obtain ⟨c', n', hwith⟩ := ihs ht hu
      exact ⟨c', n', .starTail ha hwith⟩
  | @node r a c n xs ha ih =>
    obtain rfl := List.mem_singleton.mp ht
    rcases Node.within_iff.mp hu with rfl | ⟨t, ht, hut⟩
    · exact ⟨c, n, .here ha rfl⟩
    · obtain ⟨c', n', hwith⟩ := ih ht hut
      exact ⟨c', n', .inside hwith⟩

/-- The two places lie on the way, and the node spans what lies between them. -/
theorem DerivesWith.exists_over {first last : Cursor}
    (h : a.DerivesWith spelling u c n first xs last) :
    ∃ v w, first.Over v c ∧ c.Over w n ∧ u = span u.rule c n u.children := by
  induction h with
  | @here r a xs ha hu =>
    obtain ⟨w, hw⟩ := ha.over
    exact ⟨[], w, .refl c, hw, by rw [hu]; rfl⟩
  | inside _ ih => exact ih
  | seqLeft _ _ ih => exact ih
  | seqRight ha _ ih =>
    obtain ⟨x, hx⟩ := ha.over
    obtain ⟨v, w, hv, hrest⟩ := ih
    exact ⟨x ++ v, w, hx.trans hv, hrest⟩
  | left _ ih => exact ih
  | right _ ih => exact ih
  | starHead _ _ ih => exact ih
  | starTail ha _ ih =>
    obtain ⟨x, hx⟩ := ha.over
    obtain ⟨v, w, hv, hrest⟩ := ih
    exact ⟨x ++ v, w, hx.trans hv, hrest⟩

/-! ## What must be there -/

/-- The rules of which every derivation has a node at the top. Where nothing is derived, that is
true of any rule. -/
def musts : Production → List Rule
  | never => Rule.all
  | empty => []
  | token _ => []
  | seq a b => a.musts ++ b.musts
  | alt a b => a.musts.filter (· ∈ b.musts)
  | star _ => []
  | node r _ => [r]

/-- What a production must have is there. -/
theorem Derives.exists_of_mem_musts (h : a.Derives spelling c xs n) (hr : r ∈ a.musts) :
    ∃ t ∈ xs, t.rule = r := by
  induction h with
  | empty => cases hr
  | token => cases hr
  | seq _ _ iha ihb =>
    rcases List.mem_append.mp hr with hr | hr
    · obtain ⟨t, ht, htr⟩ := iha hr
      exact ⟨t, List.mem_append_left _ ht, htr⟩
    · obtain ⟨t, ht, htr⟩ := ihb hr
      exact ⟨t, List.mem_append_right _ ht, htr⟩
  | left _ ih => exact ih (List.mem_filter.mp hr).1
  | right _ ih => exact ih (by simpa using (List.mem_filter.mp hr).2)
  | starNil => cases hr
  | starCons => cases hr
  | node =>
    obtain rfl := List.mem_singleton.mp hr
    exact ⟨_, List.mem_singleton_self _, rfl⟩

/-! ## What occurs at most once -/

/-- A rule that no part has occurs nowhere in what is derived. -/
theorem Derives.free (h : a.Derives spelling c xs n) (hr : r ∉ a.rules) : Node.Free r xs := by
  rintro t ht u hu rfl
  exact hr (h.rule_mem_rules ht hu)

/-- No derivation has more than one node of the rule at the top, and there is none further down. -/
def once (r : Rule) : Production → Bool
  | never => true
  | empty => true
  | token _ => true
  | seq a b => (decide (r ∉ a.rules) && b.once r) || (a.once r && decide (r ∉ b.rules))
  | alt a b => a.once r && b.once r
  | star a => decide (r ∉ a.rules)
  | node _ a => decide (r ∉ a.rules)

/-- What a production has at most once is there at most once. -/
theorem Derives.exists_sole (h : a.Derives spelling c xs n) (ha : a.once r = true) :
    ∃ o, Node.Sole r xs o := by
  induction h with
  | empty => exact ⟨none, .none Node.free_nil⟩
  | token => exact ⟨none, .none Node.free_nil⟩
  | seq ha' hb' iha ihb =>
    rcases (Bool.or_eq_true_iff).mp ha with hfree | hfree
    · obtain ⟨hleft, hright⟩ := Bool.and_eq_true_iff.mp hfree
      obtain ⟨o, ho⟩ := ihb hright
      exact ⟨o, ho.behind_free (ha'.free (of_decide_eq_true hleft))⟩
    · obtain ⟨hleft, hright⟩ := Bool.and_eq_true_iff.mp hfree
      obtain ⟨o, ho⟩ := iha hleft
      exact ⟨o, ho.before_free (hb'.free (of_decide_eq_true hright))⟩
  | left _ ih => exact ih (Bool.and_eq_true_iff.mp ha).1
  | right _ ih => exact ih (Bool.and_eq_true_iff.mp ha).2
  | starNil => exact ⟨none, .none Node.free_nil⟩
  | starCons ha' hs' =>
    have hstar := Derives.starCons ha' hs'
    exact ⟨none, .none (hstar.free (of_decide_eq_true ha))⟩
  | @node q a c n xs ha' =>
    -- A node has nothing of the rule below it, so all that counts is whether it is one itself.
    have hfree : Node.Free r xs := ha'.free (of_decide_eq_true ha)
    by_cases hq : q = r
    · subst hq
      have hsole : Node.Sole q ([] ++ [span q c n xs]) (some (span q c n xs)) :=
        .some Node.free_nil rfl hfree Node.free_nil
      exact ⟨_, hsole⟩
    · refine ⟨none, .none fun t ht u hu => ?_⟩
      obtain rfl := List.mem_singleton.mp ht
      rcases Node.within_iff.mp hu with rfl | ⟨t, ht, hut⟩
      · exact hq
      · exact hfree t ht u hut

/-! ## Statements -/

/-- What stands below the root of a statement. -/
def belowRoot : Production :=
  .seq (keywords [.alter, .table]) (seqs [tableName, list specification])

/-- The one tree of a statement has the root of one, and below it what the grammar says. -/
theorem Derives.exists_below (h : statement.Derives spelling c [t] n) :
    ∃ m, t.rule = .alterTable ∧ belowRoot.Derives spelling c t.children m := by
  obtain ⟨xs, m, _, hxs, htree, -⟩ := derives_seq.mp h
  obtain ⟨ys, rfl, hbelow⟩ := derives_node.mp htree
  obtain rfl : t = span .alterTable c m ys := (List.cons.inj hxs).1
  exact ⟨m, rfl, hbelow⟩

end AlterTable.Grammar.Production
