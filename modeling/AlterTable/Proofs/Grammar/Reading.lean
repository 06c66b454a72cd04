import AlterTable.Proofs.Grammar.Lookahead

/-!
# Parsers that read a production

`Reads p pre a follow` says that the parser `p` reads what the production `a` derives: whatever it
reads is derived (`derives`), and whatever is derived in front of one of the leads `follow` is read
up to the same place (`done`). The parser tries alternatives in order and takes options and
repetitions as far as they go, so the second half holds only where the text behind tells that
nothing more is to come; `follow` is what it may go on with.

There is one law for each way to put parsers together. The value of a parser is related to a
derivation by the trees in it, and `pre` holds those that were read before, which a sequence hands
on to its last part.

A part may read more than is read of the whole: `DROP` in front of a lone Kelvin sign is read as a
keyword, but the sign is then taken for another one. So the spelling in which a parser's results are
derived is left open. It is `Token.Accepted` for the parts, and `Token.Read` from specifications on.
-/

namespace AlterTable.Grammar

open AlterTable.Parse
open AlterTable.Parse.Parser

/-! ## Trees in a value -/

/-- A kind of value that holds trees. -/
class HasTrees (α : Type) where
  trees : α → List Node

export HasTrees (trees)

instance : HasTrees Unit := ⟨fun _ => []⟩

instance : HasTrees Node := ⟨fun n => [n]⟩

instance {α : Type} [HasTrees α] : HasTrees (Option α) := ⟨fun o => o.toList.flatMap trees⟩

instance {α : Type} [HasTrees α] : HasTrees (List α) := ⟨fun l => l.flatMap trees⟩

/-- A result without content has no nodes. -/
@[simp] theorem trees_unit (u : Unit) : trees u = [] := rfl

/-- A node is its own only node. -/
@[simp] theorem trees_node (n : Node) : trees n = [n] := rfl

/-- A list of nodes is the nodes of the list. -/
@[simp] theorem trees_nodes (ns : List Node) : trees ns = ns := by
  show ns.flatMap (fun n => [n]) = ns
  simp

variable {α β : Type}

section

variable [HasTrees α]

/-- A missing result has no nodes. -/
@[simp] theorem trees_none : trees (none : Option α) = [] := rfl

/-- A result that is there has its own nodes. -/
@[simp] theorem trees_some (a : α) : trees (some a) = trees a := by
  show [a].flatMap trees = trees a
  simp

/-- Without results there are no nodes. -/
@[simp] theorem trees_nil : trees ([] : List α) = [] := rfl

/-- The nodes of results are those of the first and then those of the others. -/
@[simp] theorem trees_cons (a : α) (l : List α) : trees (a :: l) = trees a ++ trees l := rfl

end

/-! ## Refusing -/

/-- The parser refuses a text that has none of the leads. -/
def Refuses (p : Parser α) (leads : List Lead) : Prop :=
  ∀ ⦃c : Cursor⦄, lead c.rest ∉ leads → ∃ t, p c = .refused t

section

variable {p : Parser α} {f : α → Parser β} {leads : List Lead} {r : Rule}

/-- A parser that refuses where certain tokens are missing refuses where more are missing. -/
theorem Refuses.mono {more : List Lead} (h : Refuses p leads) (hsub : leads ⊆ more) :
    Refuses p more :=
  fun _ hl => h fun hmem => hl (hsub hmem)

/-- Where the first parser refuses, both refuse. -/
theorem Refuses.bind (h : Refuses p leads) : Refuses (p >>= f) leads := by
  intro c hl
  obtain ⟨t, ht⟩ := h hl
  exact ⟨t, by rw [bind_apply, ht]⟩

/-- Behind a part that is left out, the rest refuses. -/
theorem Refuses.maybe_bind {f : Option α → Parser β} {more : List Lead} (h : Refuses p leads)
    (hf : Refuses (f none) more) : Refuses (maybe p >>= f) (leads ++ more) := by
  intro c hl
  obtain ⟨t, ht⟩ := h fun hmem => hl (List.mem_append_left _ hmem)
  have hnone : maybe p c = .done none c := by rw [maybe, ht]
  rw [bind_apply, hnone]
  exact hf fun hmem => hl (List.mem_append_right _ hmem)

/-- A named part is refused where its content is. -/
theorem Refuses.node {p : Parser (List Node)} (h : Refuses p leads) :
    Refuses (node r p) leads := by
  intro c hl
  obtain ⟨t, ht⟩ := h hl
  exact ⟨_, by rw [Grammar.node, ht]⟩

/-- A named part without content of its own is refused where its text is. -/
theorem Refuses.leaf {p : Parser Unit} (h : Refuses p leads) : Refuses (leaf r p) leads :=
  Refuses.node h.bind

/-- Alternatives refuse what each of them refuses. -/
theorem Refuses.choice {ps : List (Parser α)} (h : ∀ p ∈ ps, Refuses p leads) :
    Refuses (choice ps) leads := by
  intro c hl
  have hafter : ∀ (ps : List (Parser α)) (last : Trace), (∀ p ∈ ps, Refuses p leads) →
      ∃ t, choiceAfter last ps c = .refused t := by
    intro ps
    induction ps with
    | nil => exact fun last _ => ⟨_, rfl⟩
    | cons p ps ih =>
      intro last hps
      obtain ⟨t, ht⟩ := hps p List.mem_cons_self hl
      obtain ⟨t', ht'⟩ := ih t fun q hq => hps q (List.mem_cons_of_mem _ hq)
      exact ⟨t', by rw [choiceAfter, ht]; exact ht'⟩
  exact hafter ps [] h

/-- The parser refuses what the production derives. -/
def Precludes (p : Parser α) (b : Production) : Prop :=
  ∀ ⦃c ys n⦄, b.Derives Token.Read c ys n → ∃ t, p c = .refused t

/-- Two parts without a common lead are told apart by the first of them. -/
theorem Refuses.precludes {b : Production} (h : Refuses p leads) (hb : b.nullable = false)
    (hdisj : ∀ l ∈ b.first, l ∉ leads) : Precludes p b :=
  fun _ _ _ hd => h (hdisj _ (hd.accepted.lead_first hb))

private theorem precludes_alts {bs : List Production} (h : ∀ b ∈ bs, Precludes p b) :
    Precludes p (.alts bs) := by
  intro c ys n hd
  obtain ⟨b, hb, hdb⟩ := Production.derives_alts.mp hd
  exact h b hb hdb

end

/-! ## Reading -/

variable [HasTrees α] [HasTrees β]

/-- The parser reads the production in front of the leads `follow`, with results that are derived
in the spelling. -/
structure ReadsAs (spelling : Token → List Char → List Char → Prop) (p : Parser α)
    (pre : List Node) (a : Production) (follow : List Lead) : Prop where
  derives : ∀ {c v n}, p c = .done v n → ∃ ys, trees v = pre ++ ys ∧ a.Derives spelling c ys n
  done : ∀ {c ys n}, a.Derives Token.Read c ys n → lead n.rest ∈ follow →
    ∃ v, p c = .done v n ∧ trees v = pre ++ ys

/-- The parser reads the production in front of the leads `follow`. -/
abbrev Reads (p : Parser α) (pre : List Node) (a : Production) (follow : List Lead) : Prop :=
  ReadsAs Token.Accepted p pre a follow

variable {spelling : Token → List Char → List Char → Prop}
variable {p : Parser α} {f : α → Parser β} {pre : List Node}
variable {a b : Production} {follow : List Lead} {r : Rule}

/-- A parser that reads in front of certain tokens reads in front of fewer. -/
theorem ReadsAs.mono {more : List Lead} (h : ReadsAs spelling p pre a more)
    (hsub : follow ⊆ more) : ReadsAs spelling p pre a follow where
  derives := h.derives
  done hd hn := h.done hd (hsub hn)

/-- Nothing but `DROP` is accepted and not read. -/
theorem ReadsAs.read (h : Reads p pre a follow) (ha : .keyword .drop ∉ a.tokens) :
    ReadsAs Token.Read p pre a follow where
  derives hc := by
    obtain ⟨ys, hv, hd⟩ := h.derives hc
    exact ⟨ys, hv, hd.read_of_tokens ha⟩
  done := h.done

/-- A parser that reads a production refuses a text that begins with none of its first leads, if
it does not fail otherwise. -/
theorem Reads.refuses (h : Reads p pre a follow) (ha : a.nullable = false)
    (hfatal : ∀ c t, p c ≠ .fatal t) : Refuses p a.first := by
  intro c hl
  cases hp : p c with
  | refused t => exact ⟨t, rfl⟩
  | fatal t => exact absurd hp (hfatal c t)
  | done v n =>
    obtain ⟨ys, -, hd⟩ := h.derives hp
    exact absurd (hd.lead_first ha) hl

/-! ### Sequences -/

/-- Returning a value reads the empty part. -/
theorem reads_pure {v : α} (hv : trees v = pre) :
    ReadsAs spelling (pure v : Parser α) pre .empty follow where
  derives h := by
    rw [pure_apply] at h
    cases h
    exact ⟨[], by rw [hv, List.append_nil], .empty⟩
  done hd _ := by
    obtain ⟨rfl, rfl⟩ := Production.derives_empty.mp hd
    exact ⟨v, rfl, by rw [hv, List.append_nil]⟩

/-- One part in front of another is read in front of what the other begins with. -/
theorem ReadsAs.bind (hp : ReadsAs spelling p [] a (b.leads follow))
    (hf : ∀ v, ReadsAs spelling (f v) (pre ++ trees v) b follow) :
    ReadsAs spelling (p >>= f) pre (.seq a b) follow where
  derives {c w n} h := by
    rw [bind_apply] at h
    cases hpc : p c with
    | refused t => rw [hpc] at h; cases h
    | fatal t => rw [hpc] at h; cases h
    | done v m =>
      rw [hpc] at h
      obtain ⟨xs, hv, ha⟩ := hp.derives hpc
      obtain ⟨ys, hw, hb⟩ := (hf v).derives h
      rw [List.nil_append] at hv
      exact ⟨xs ++ ys, by rw [hw, hv, List.append_assoc], .seq ha hb⟩
  done {c ys n} hd hn := by
    obtain ⟨xs, m, zs, rfl, ha, hb⟩ := Production.derives_seq.mp hd
    obtain ⟨v, hpc, hv⟩ := hp.done ha (hb.accepted.lead_mem hn)
    obtain ⟨t, ht⟩ := ha.over
    obtain ⟨w, hfm, hw⟩ := (hf v).done hb hn
    refine ⟨w, ?_, ?_⟩
    · rw [bind_apply, hpc]
      exact hfm
    · rw [hw, hv, List.nil_append, List.append_assoc]

/-- What is read does not change where the value is replaced by one with the same trees. -/
theorem ReadsAs.value {v : β} (h : ReadsAs spelling p pre a follow)
    (hv : ∀ x : α, trees x = trees v) :
    ReadsAs spelling (p >>= fun _ => pure v) pre a follow where
  derives {c w n} hc := by
    rw [bind_apply] at hc
    cases hp : p c with
    | done x m =>
      rw [hp] at hc
      cases hc
      rw [← hv x]
      exact h.derives hp
    | refused t => rw [hp] at hc; cases hc
    | fatal t => rw [hp] at hc; cases hc
  done hd hn := by
    obtain ⟨x, hp, hx⟩ := h.done hd hn
    exact ⟨v, by rw [bind_apply, hp]; rfl, by rw [← hv x, hx]⟩

/-! ### Parts that are committed to, have a name, or have a node -/

/-- To make failures final changes nothing of what is read. -/
theorem ReadsAs.commit (h : ReadsAs spelling p pre a follow) :
    ReadsAs spelling (commit p) pre a follow where
  derives {c v n} hc := by
    unfold Parser.commit at hc
    split at hc
    next => cases hc
    next => exact h.derives hc
  done hd hn := by
    obtain ⟨v, hp, hv⟩ := h.done hd hn
    exact ⟨v, by rw [Parser.commit, hp], hv⟩

/-- A name in traces changes nothing of what is read. -/
theorem ReadsAs.named {s : String} (h : ReadsAs spelling p pre a follow) :
    ReadsAs spelling (named s p) pre a follow where
  derives {c v n} hc := by
    unfold Parser.named at hc
    split at hc
    next => cases hc
    next => cases hc
    next => exact h.derives hc
  done hd hn := by
    obtain ⟨v, hp, hv⟩ := h.done hd hn
    exact ⟨v, by rw [Parser.named, hp], hv⟩

/-- A named part is read as its content is, with one node around it. -/
theorem ReadsAs.node {p : Parser (List Node)} (h : ReadsAs spelling p [] a follow) :
    ReadsAs spelling (node r p) [] (.node r a) follow where
  derives {c v n} hc := by
    unfold Grammar.node at hc
    split at hc
    next xs n' hp =>
      cases hc
      obtain ⟨ys, hxs, hd⟩ := h.derives hp
      rw [trees_nodes, List.nil_append] at hxs
      exact ⟨_, rfl, hxs ▸ .node hd⟩
    next => cases hc
    next => cases hc
  done hd hn := by
    obtain ⟨ys, rfl, ha⟩ := Production.derives_node.mp hd
    obtain ⟨v, hp, hv⟩ := h.done ha hn
    rw [trees_nodes, List.nil_append] at hv
    exact ⟨_, by rw [Grammar.node, hp], by rw [hv]; rfl⟩

/-- A named part without nodes of its own is read as its text is. -/
theorem ReadsAs.leaf {p : Parser Unit} (h : ReadsAs spelling p [] a follow) :
    ReadsAs spelling (leaf r p) [] (Production.leaf r a) follow := by
  refine ReadsAs.node (.bind (h.mono ?_) fun _ => reads_pure rfl)
  simp [Production.leads, Production.heads, Production.nullable]

/-! ### Options and alternatives -/

/-- A part that may be left out is read where what follows it cannot be the part. -/
theorem ReadsAs.maybe (h : ReadsAs spelling p [] a follow) (hrefuses : Refuses p a.first)
    (hdisj : ∀ l ∈ follow, l ∉ a.first) : ReadsAs spelling (maybe p) [] (.option a) follow where
  derives {c v n} hc := by
    unfold Parser.maybe at hc
    split at hc
    next v n' hp =>
      cases hc
      obtain ⟨ys, hv, hd⟩ := h.derives hp
      exact ⟨ys, by rw [trees_some, hv], .left hd⟩
    next =>
      cases hc
      exact ⟨[], rfl, .right .empty⟩
    next => cases hc
  done {c ys n} hd hn := by
    rcases Production.derives_alt.mp hd with ha | he
    · obtain ⟨v, hp, hv⟩ := h.done ha hn
      exact ⟨some v, by rw [Parser.maybe, hp], by rw [trees_some, hv]⟩
    · obtain ⟨rfl, rfl⟩ := Production.derives_empty.mp he
      obtain ⟨t, hp⟩ := hrefuses (hdisj _ hn)
      exact ⟨none, by rw [Parser.maybe, hp], rfl⟩

/-- The first alternative and the others, where the first refuses what the others derive. -/
theorem Reads.orElse {ps : List (Parser α)} (h : Reads p [] a follow)
    (hps : ∀ last, Reads (choiceAfter last ps) [] b follow) (hpre : Precludes p b)
    (last : Trace) : Reads (choiceAfter last (p :: ps)) [] (.alt a b) follow where
  derives {c v n} hc := by
    rw [choiceAfter] at hc
    split at hc
    next t _ =>
      obtain ⟨ys, hv, hb⟩ := (hps t).derives hc
      exact ⟨ys, hv, .right hb⟩
    next =>
      obtain ⟨ys, hv, ha⟩ := h.derives hc
      exact ⟨ys, hv, .left ha⟩
  done {c ys n} hd hn := by
    rcases Production.derives_alt.mp hd with ha | hb
    · obtain ⟨v, hp, hv⟩ := h.done ha hn
      exact ⟨v, by rw [choiceAfter, hp], hv⟩
    · obtain ⟨t, ht⟩ := hpre hb
      obtain ⟨v, hp, hv⟩ := (hps t).done hb hn
      exact ⟨v, by rw [choiceAfter, ht]; exact hp, hv⟩

private theorem reads_choiceAfter_nil (last : Trace) :
    Reads (choiceAfter last ([] : List (Parser α))) [] .never follow where
  derives h := by cases h
  done hd _ := absurd hd Production.derives_never

/-- Alternatives each of which refuses what the later ones derive. -/
theorem reads_choice {l : List (Parser α × Production)} (h : ∀ x ∈ l, Reads x.1 [] x.2 follow)
    (hpre : l.Pairwise fun x y => Precludes x.1 y.2) :
    Reads (choice (l.map Prod.fst)) [] (.alts (l.map Prod.snd)) follow := by
  have hafter : ∀ last, Reads (choiceAfter last (l.map Prod.fst)) []
      (.alts (l.map Prod.snd)) follow := by
    induction l with
    | nil => exact reads_choiceAfter_nil
    | cons x l ih =>
      obtain ⟨hx, hl⟩ := List.pairwise_cons.mp hpre
      refine (h x List.mem_cons_self).orElse
        (ih (fun y hy => h y (List.mem_cons_of_mem _ hy)) hl) (precludes_alts fun b hb => ?_)
      obtain ⟨y, hy, rfl⟩ := List.mem_map.mp hb
      exact hx y hy
  exact hafter []

/-- A part that is read, and refused where none of its first leads stands. -/
structure Alternative (p : Parser α) (a : Production) (follow : List Lead) : Prop where
  reads : Reads p [] a follow
  refuses : Refuses p a.first
  takes : a.nullable = false

/-- Alternatives of which no two have a common lead. -/
theorem reads_choice_of_disjoint {l : List (Parser α × Production)}
    (h : ∀ x ∈ l, Alternative x.1 x.2 follow)
    (hdisj : (l.map Prod.snd).Pairwise fun a b => ∀ x ∈ b.first, x ∉ a.first) :
    Reads (choice (l.map Prod.fst)) [] (.alts (l.map Prod.snd)) follow := by
  refine reads_choice (fun x hx => (h x hx).reads) ?_
  refine (List.pairwise_map.mp hdisj).imp_of_mem fun hx hy hxy => ?_
  exact Refuses.precludes (h _ hx).refuses (h _ hy).takes hxy

/-- A choice refuses a text with none of the first leads. -/
theorem refuses_choice {l : List (Parser α × Production)}
    (h : ∀ x ∈ l, Alternative x.1 x.2 follow) :
    Refuses (choice (l.map Prod.fst)) (Production.alts (l.map Prod.snd)).first := by
  refine Refuses.choice fun p hp => ?_
  obtain ⟨x, hx, rfl⟩ := List.mem_map.mp hp
  refine Refuses.mono (h x hx).refuses ?_
  exact Production.first_subset_alts (List.mem_map_of_mem hx)

/-- Of two alternatives without a common lead, the one that can be taken is read. -/
theorem Alternative.reads_or {q : Parser α} (hp : Alternative p a follow)
    (hq : Reads q [] b follow) (hb : b.nullable = false) (hdisj : ∀ l ∈ b.first, l ∉ a.first) :
    Reads (choice [p, q]) [] (.alts [a, b]) follow := by
  refine reads_choice (l := [(p, a), (q, b)]) (fun x hx => ?_) ?_
  · simp only [List.mem_cons, List.not_mem_nil, or_false] at hx
    rcases hx with rfl | rfl
    · exact hp.reads
    · exact hq
  · exact List.pairwise_pair.mpr (hp.refuses.precludes hb hdisj)

/-- Two alternatives without a common lead are one. -/
theorem Alternative.or {q : Parser α} (hp : Alternative p a follow) (hq : Alternative q b follow)
    (hdisj : ∀ l ∈ b.first, l ∉ a.first) :
    Alternative (choice [p, q]) (.alts [a, b]) follow := by
  have hmem : ∀ x ∈ [(p, a), (q, b)], Alternative x.1 x.2 follow := by
    intro x hx
    simp only [List.mem_cons, List.not_mem_nil, or_false] at hx
    rcases hx with rfl | rfl
    · exact hp
    · exact hq
  refine ⟨hp.reads_or hq.reads hq.takes hdisj, refuses_choice hmem, ?_⟩
  simp [Production.alts, Production.nullable, hp.takes, hq.takes]

/-! ### Repetition -/

/-- A repetition ends where what follows cannot be one more. -/
theorem ReadsAs.many (h : ReadsAs spelling p [] a (a.first ++ follow))
    (hrefuses : Refuses p a.first) (ha : a.nullable = false) (hdisj : ∀ l ∈ follow, l ∉ a.first) :
    ReadsAs spelling (many p) [] (.star a) follow where
  derives {c v n} hc := by
    fun_induction Parser.many p c generalizing v n with
    | case1 c x m hp hlt xs last hmany ih =>
      cases hc
      obtain ⟨ys, hx, hd⟩ := h.derives hp
      obtain ⟨zs, hxs, hs⟩ := ih hmany
      rw [List.nil_append] at hx hxs
      exact ⟨ys ++ zs, by rw [trees_cons, hx, hxs, List.nil_append], .starCons hd hs⟩
    | case2 => cases hc
    | case3 => cases hc
    | case4 =>
      cases hc
      exact ⟨[], rfl, .starNil⟩
    | case5 =>
      cases hc
      exact ⟨[], rfl, .starNil⟩
    | case6 => cases hc
  done {c ys n} hd hn := by
    generalize hs : Production.star a = s at hd
    induction hd with
    | starNil =>
      cases hs
      obtain ⟨t, ht⟩ := hrefuses (hdisj _ hn)
      exact ⟨[], by rw [Parser.many, ht], rfl⟩
    | @starCons _ c m n xs zs hda hds _ ih =>
      cases hs
      have hlead : lead m.rest ∈ a.first ++ follow := by
        have hl := hds.accepted.lead_mem hn
        rw [Production.leads, Production.nullable, if_pos rfl] at hl
        exact (List.mem_append.mp hl).elim
          (fun h => List.mem_append_left _ (Production.heads_subset_first (a := a) h))
          (List.mem_append_right _)
      obtain ⟨v, hp, hv⟩ := h.done hda hlead
      obtain ⟨vs, hmany, hvs⟩ := ih hn rfl
      refine ⟨v :: vs, ?_, ?_⟩
      · rw [Parser.many, hp]
        simp only [hda.accepted.length_lt ha, if_true, hmany]
      · rw [trees_cons, hv, hvs, List.nil_append, List.nil_append, List.nil_append]
    | _ => cases hs

end AlterTable.Grammar
