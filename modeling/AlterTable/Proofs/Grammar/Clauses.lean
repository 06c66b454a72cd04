import AlterTable.Grammar.Statement
import AlterTable.Proofs.Grammar.Columns

/-!
# Clauses are read exactly

Each clause begins with a keyword, and those that share one differ in what stands behind it:
`ADD UNIQUE`, `ADD PRIMARY` and `ADD COLUMN` are told apart by their second word. So a clause
refuses what a later one derives, and gives up before it commits. Only behind `DROP` this fails,
where a lone Kelvin sign is a column to one clause and is taken for `KEY` by another.
-/

namespace AlterTable.Grammar

open AlterTable.Parse
open AlterTable.Parse.Parser

variable {follow : List Lead} {r : Rule} {k : Keyword}

@[simp] private theorem trees_option_node (o : Option Node) : trees o = o.toList :=
  trees_nodes o.toList

/-! ## Indexes -/

private theorem alternative_indexOrKey : Alternative indexOrKey .indexOrKey follow :=
  .or (alternative_keyword .index) (alternative_keyword .key) (by decide)

/-- What stands behind a key part. -/
def keyPartEnd : List Lead := [.mark ',', .mark ')']

/-- The parser of a key part reads its production. -/
theorem reads_keyPart : Reads keyPart [] .keyPart keyPartEnd := by
  have hdirection : Alternative (choice [keyword .asc, keyword .desc])
      (.alts [.keyword .asc, .keyword .desc]) keyPartEnd :=
    .or (alternative_keyword .asc) (alternative_keyword .desc) (by decide)
  exact .bind (reads_name _) fun _ => .bind (.maybe reads_numbers refuses_numbers (by decide))
    fun _ => .bind (.maybe hdirection.reads hdirection.refuses (by decide)) fun _ =>
    reads_pure (by simp)

/-- The parser of the columns of an index reads their production. -/
theorem reads_keyParts : Reads keyParts [] .keyParts follow :=
  .node (reads_parens (reads_list reads_keyPart (by decide)))

/-- What stands behind the kind of an index. -/
def indexKindEnd : List Lead := (Production.token .identifier).heads false ++ [.mark '(']

private theorem alternative_indexKind : Alternative indexKind .indexKind indexKindEnd := by
  have hindex := @alternative_indexOrKey indexKindEnd
  have hunique : Alternative (leaf .unique (keywords [.unique]))
      (.leaf .unique (Production.keywords [.unique]))
      ([.keyword .index, .keyword .key] ++ indexKindEnd) :=
    alternative_keywords _ _ (by decide)
  refine .or ⟨?_, Refuses.bind hunique.refuses, rfl⟩ ⟨?_, Refuses.bind hindex.refuses, rfl⟩
    (by decide)
  · exact .bind hunique.reads fun _ => .bind (.maybe hindex.reads hindex.refuses (by decide))
      fun _ => reads_pure (by simp)
  · exact .bind alternative_indexOrKey.reads fun _ => reads_pure (by simp)

private theorem alternative_constraint :
    Alternative constraint .constraint [.keyword .primary] where
  reads := .bind (reads_keyword _) fun _ => .maybe (reads_name _) (refuses_name _) (by decide)
  refuses := Refuses.bind (refuses_keyword _)
  takes := rfl

/-! ## Telling clauses apart -/

/-- How a clause begins: with a keyword and then one of the leads `behind`. It yields where it is
refused if the keyword goes on with none of the leads that it `takes`. -/
structure Opening where
  keyword : Keyword
  behind : List Lead
  takes : List Lead
  yields : Bool
deriving DecidableEq, Repr, Inhabited

/-- The two beginnings are never taken for each other, if the first is tried first. -/
def Opening.Before (o o' : Opening) : Prop :=
  o.keyword ≠ o'.keyword ∨ (o.yields = true ∧ ∀ l ∈ o'.behind, l ∉ o.takes)

instance (o o' : Opening) : Decidable (o.Before o') :=
  inferInstanceAs (Decidable (_ ∨ _))

/-- In front of the place there is no `DROP` with a lone Kelvin sign behind it. -/
def NoSignDropped (c : Cursor) : Prop :=
  ∀ ⦃w m⦄, c.Over w m → Token.Spelled (.keyword .drop) w m.rest → ¬ IsLoneSign m.rest

/-- The parser reads a clause that begins like this. -/
structure Opens (p : Parser Node) (a : Production) (o : Opening) : Prop where
  reads : Reads p [] a clauseEnd
  refuses : Refuses p (Production.keyword o.keyword).first
  refuses_behind : o.yields = true → ∀ {c w m}, c.Over w m →
    Token.Spelled (.keyword o.keyword) w m.rest → lead m.rest ∉ o.takes → ∃ t, p c = .refused t
  begins : ∀ {c ys n}, a.Derives Token.Read c ys n →
    ∃ w m, c.Over w m ∧ Token.Spelled (.keyword o.keyword) w m.rest ∧ lead m.rest ∈ o.behind
  read : ∀ {c ys n}, NoSignDropped c → a.Derives Token.Accepted c ys n →
    a.Derives Token.Read c ys n

/-- A clause refuses what one with another beginning derives. -/
theorem Opens.precludes {p q : Parser Node} {a b : Production} {o o' : Opening}
    (hp : Opens p a o) (hq : Opens q b o') (h : o.Before o') : Precludes p b := by
  intro c ys n hd
  obtain ⟨w, m, hover, hw, hm⟩ := hq.begins hd
  by_cases hk : o.keyword = o'.keyword
  · obtain ⟨hyields, hdisj⟩ := h.resolve_left fun hne => hne hk
    rw [← hk] at hw
    exact hp.refuses_behind hyields hover hw (hdisj _ hm)
  · refine hp.refuses fun hmem => hk ?_
    rw [hover.rest, hw.lead_keyword] at hmem
    exact (Token.keyword_mem_first_iff.mp (List.mem_filter.mp hmem).1).symm

/-- A keyword with a part behind it opens a clause, which yields if the part is refused before
anything is committed to. -/
theorem opens_node {f : Unit → Parser (List Node)} {b : Production} {behind takes : List Lead}
    {yields : Bool} (hk : k ≠ .key)
    (hreads : Reads (node r (keyword k >>= f)) [] (.node r (.seq (.keyword k) b)) clauseEnd)
    (hb : b.nullable = false) (hbehind : ∀ l ∈ b.first, l ∈ behind ∨ (k = .drop ∧ l = .kelvin))
    (hdrop : .keyword .drop ∉ b.tokens) (hf : yields = true → Refuses (f ()) takes) :
    Opens (node r (keyword k >>= f)) (.node r (.seq (.keyword k) b))
      ⟨k, behind, takes, yields⟩ where
  reads := hreads
  refuses := Refuses.node (Refuses.bind (refuses_keyword k))
  refuses_behind hyields {c w m} hover hw hm := by
    obtain ⟨t, ht⟩ := hf hyields hm
    exact ⟨t, by rw [Grammar.node, bind_apply, keyword_done hw.accepted hover]; simp only [ht]⟩
  begins {c ys n} hd := by
    obtain ⟨xs, -, hseq⟩ := Production.derives_node.mp hd
    obtain ⟨_, m, _, -, hkeyword, hrest⟩ := Production.derives_seq.mp hseq
    obtain ⟨-, w, hw, hover⟩ := Production.derives_token.mp hkeyword
    refine ⟨w, m, hover, hw.spelled fun h => hk (Token.keyword.inj h), ?_⟩
    rcases hbehind _ (hrest.accepted.lead_first hb) with hmem | ⟨rfl, hkelvin⟩
    · exact hmem
    · exact absurd (lead_eq_kelvin_iff.mp hkelvin) (hw.2 rfl)
  read {c ys n} hno hd := by
    obtain ⟨xs, rfl, hseq⟩ := Production.derives_node.mp hd
    obtain ⟨us, m, vs, rfl, hkeyword, hrest⟩ := Production.derives_seq.mp hseq
    obtain ⟨rfl, w, hw, hover⟩ := Production.derives_token.mp hkeyword
    have hread : Token.Read (.keyword k) w m.rest :=
      ⟨hw, fun h => hno hover (h ▸ hw.spelled fun h' => hk (Token.keyword.inj h'))⟩
    exact .node (.seq (.token hread hover) (hrest.read_of_tokens hdrop))

/-! ## Clauses about indexes -/

/-- The words for an index, and a Kelvin sign that is taken for one. -/
def indexLeads : List Lead := [.keyword .index, .keyword .key, .kelvin]

private theorem opens_addIndex : Opens addIndex .addIndex
    ⟨.add, [.keyword .unique, .keyword .index, .keyword .key], .keyword .unique :: indexLeads,
      true⟩ := by
  refine opens_node nofun (.node ?_) rfl (by decide) (by decide) fun _ =>
    Refuses.bind alternative_indexKind.refuses
  exact .bind (reads_keyword _) fun _ => .bind alternative_indexKind.reads fun _ =>
    .commit (.bind (.maybe (reads_name _) (refuses_name _) (by decide)) fun _ =>
      .bind reads_keyParts fun _ => reads_pure (by simp))

private theorem opens_addConstraint : Opens addConstraint .addConstraint
    ⟨.add, [.keyword .constraint, .keyword .primary], [.keyword .constraint, .keyword .primary],
      true⟩ := by
  have hprimary : Alternative (leaf .primaryKey (keywords [.primary, .key]))
      (.leaf .primaryKey (Production.keywords [.primary, .key])) [.mark '('] :=
    alternative_keywords _ _ (by decide)
  refine opens_node nofun (.node ?_) rfl (by decide) (by decide) fun _ => ?_
  · refine .bind (reads_keyword _) fun _ =>
      .bind (.maybe alternative_constraint.reads alternative_constraint.refuses (by decide))
        fun symbol => .bind hprimary.reads fun _ =>
          .bind (.commit reads_keyParts) fun _ => reads_pure ?_
    rcases symbol with _ | _ | _ <;> rfl
  · exact Refuses.maybe_bind alternative_constraint.refuses (Refuses.bind hprimary.refuses)

/-- The three words of the clause, the first of them apart. -/
theorem dropPrimaryKey_eq : dropPrimaryKey = node .dropPrimaryKey (do
    keyword .drop
    keywords [.primary, .key]
    return []) := by
  funext c
  rw [dropPrimaryKey, leaf, keywords]
  simp only [Grammar.node, bind_apply]
  cases keyword .drop c <;> rfl

private theorem opens_dropPrimaryKey : Opens dropPrimaryKey .dropPrimaryKey
    ⟨.drop, [.keyword .primary], [.keyword .primary], true⟩ := by
  rw [dropPrimaryKey_eq]
  refine opens_node (b := .keywords [.primary, .key]) nofun (.node ?_) rfl (by decide) (by decide)
    fun _ => Refuses.bind (refuses_keywords _ _)
  exact .bind (reads_keyword _) fun _ => .value (reads_keywords _) fun _ => rfl

private theorem opens_dropIndex : Opens dropIndex .dropIndex
    ⟨.drop, [.keyword .index, .keyword .key], indexLeads, true⟩ := by
  have hindex := @alternative_indexOrKey Token.identifier.first
  refine opens_node nofun (.node ?_) rfl (by decide) (by decide) fun _ =>
    Refuses.bind hindex.refuses
  exact .bind (reads_keyword _) fun _ => .bind alternative_indexOrKey.reads fun _ =>
    .bind (.commit (reads_name _)) fun _ => reads_pure (by simp)

private theorem opens_renameIndex : Opens renameIndex .renameIndex
    ⟨.rename, [.keyword .index, .keyword .key], indexLeads, true⟩ := by
  have hindex := @alternative_indexOrKey Token.identifier.first
  refine opens_node nofun (.node ?_) rfl (by decide) (by decide) fun _ =>
    Refuses.bind hindex.refuses
  exact .bind (reads_keyword _) fun _ => .bind alternative_indexOrKey.reads fun _ =>
    .commit (.bind (reads_name _) fun _ => .bind (reads_keyword _) fun _ =>
      .bind (reads_name _) fun _ => reads_pure (by simp))

/-! ## Clauses about columns -/

/-- What a name begins with, if more has to follow it. -/
def nameLeads : List Lead :=
  [.mark Text.backQuote, .name, .number, .keyword .asc, .keyword .desc]

private theorem reads_maybeColumn (hcolumn : .keyword .column ∉ follow) :
    Reads (maybe (keyword .column)) [] (.option (.keyword .column)) follow := by
  refine .maybe (reads_keyword _) (refuses_keyword _) fun l hl hmem => ?_
  rw [List.mem_singleton.mp hmem] at hl
  exact hcolumn hl

private theorem opens_addColumn : Opens addColumn .addColumn
    ⟨.add, [.keyword .column, .mark '('] ++ nameLeads, [], false⟩ := by
  have hmany : Alternative (between (mark '(') (mark ')') (separatedBy (mark ',') definition))
      (.parens (.list .definition)) clauseEnd :=
    ⟨reads_parens (reads_list (reads_definition.mono (by decide)) (by decide)),
      Refuses.bind (refuses_mark .openParen), rfl⟩
  have hone : Reads (do
        let column ← definition
        let place ← maybe position
        return column :: place.toList) []
      (.seqs [.definition, .option .position]) clauseEnd :=
    .bind (reads_definition.mono (by decide)) fun _ => .bind reads_maybePosition fun _ =>
      reads_pure (by simp)
  refine opens_node nofun (.node ?_) rfl (by decide) (by decide) (fun h => by cases h)
  refine .bind (reads_keyword _) fun _ => .bind (reads_maybeColumn (by decide)) fun o => ?_
  rw [trees_option_unit]
  exact .commit (hmany.reads_or hone rfl (by decide))

private theorem opens_dropColumn : Opens dropColumn .dropColumn
    ⟨.drop, .keyword .column :: nameLeads, [], false⟩ := by
  refine opens_node nofun (.node ?_) rfl (by decide) (by decide) (fun h => by cases h)
  exact .bind (reads_keyword _) fun _ => .bind (reads_maybeColumn (by decide)) fun _ =>
    .bind (.commit (reads_name _)) fun _ => reads_pure (by simp)

private theorem opens_changeColumn : Opens changeColumn .changeColumn
    ⟨.change, .keyword .column :: nameLeads, [], false⟩ := by
  refine opens_node nofun (.node ?_) rfl (by decide) (by decide) (fun h => by cases h)
  exact .bind (reads_keyword _) fun _ => .bind (reads_maybeColumn (by decide)) fun _ =>
    .commit (.bind (reads_name _) fun _ => .bind (reads_definition.mono (by decide)) fun _ =>
      .bind reads_maybePosition fun _ => reads_pure (by simp))

private theorem opens_modifyColumn : Opens modifyColumn .modifyColumn
    ⟨.modify, .keyword .column :: nameLeads, [], false⟩ := by
  refine opens_node nofun (.node ?_) rfl (by decide) (by decide) (fun h => by cases h)
  exact .bind (reads_keyword _) fun _ => .bind (reads_maybeColumn (by decide)) fun _ =>
    .commit (.bind (reads_definition.mono (by decide)) fun _ =>
      .bind reads_maybePosition fun _ => reads_pure (by simp))

/-! ## Specifications -/

/-- The clauses in the order in which they are tried, with their productions and beginnings. -/
def clauses : List ((Parser Node × Production) × Opening) :=
  [((addIndex, .addIndex), ⟨.add, [.keyword .unique, .keyword .index, .keyword .key],
     .keyword .unique :: indexLeads, true⟩),
   ((addConstraint, .addConstraint), ⟨.add, [.keyword .constraint, .keyword .primary],
     [.keyword .constraint, .keyword .primary], true⟩),
   ((addColumn, .addColumn),
     ⟨.add, [.keyword .column, .mark '('] ++ nameLeads, [], false⟩),
   ((dropPrimaryKey, .dropPrimaryKey),
     ⟨.drop, [.keyword .primary], [.keyword .primary], true⟩),
   ((dropIndex, .dropIndex), ⟨.drop, [.keyword .index, .keyword .key], indexLeads, true⟩),
   ((dropColumn, .dropColumn), ⟨.drop, .keyword .column :: nameLeads, [], false⟩),
   ((renameIndex, .renameIndex),
     ⟨.rename, [.keyword .index, .keyword .key], indexLeads, true⟩),
   ((changeColumn, .changeColumn), ⟨.change, .keyword .column :: nameLeads, [], false⟩),
   ((modifyColumn, .modifyColumn), ⟨.modify, .keyword .column :: nameLeads, [], false⟩)]

/-- Every clause opens as the table of clauses says. -/
theorem opens_of_mem_clauses {x : (Parser Node × Production) × Opening} (hx : x ∈ clauses) :
    Opens x.1.1 x.1.2 x.2 := by
  simp only [clauses, List.mem_cons, List.not_mem_nil, or_false] at hx
  rcases hx with rfl | rfl | rfl | rfl | rfl | rfl | rfl | rfl | rfl
  · exact opens_addIndex
  · exact opens_addConstraint
  · exact opens_addColumn
  · exact opens_dropPrimaryKey
  · exact opens_dropIndex
  · exact opens_dropColumn
  · exact opens_renameIndex
  · exact opens_changeColumn
  · exact opens_modifyColumn

/-- No clause is taken for one that is tried later. -/
theorem pairwise_before_clauses : clauses.Pairwise fun x y => x.2.Before y.2 := by
  have hall : (clauses.map Prod.snd).Pairwise Opening.Before := by decide
  exact List.pairwise_map.mp hall

/-- Behind `DROP` a lone Kelvin sign is taken for `KEY`, and then a name is missing. -/
theorem dropIndex_fatal {c m : Cursor} {w : List Char} (hover : c.Over w m)
    (hw : Token.Spelled (.keyword .drop) w m.rest) (hm : IsLoneSign m.rest) :
    ∃ t, dropIndex c = .fatal t := by
  let n := m.advance m.rest.length
  have hmn : m.Over m.rest n := by
    have h := m.over_advance m.rest.length
    rwa [List.take_length] at h
  have hn : n.rest = [] := List.drop_length
  have hkey : Token.Read (.keyword .key) m.rest n.rest := ⟨.inr ⟨rfl, hn, hm⟩, nofun⟩
  obtain ⟨u, hu, -⟩ := (@alternative_indexOrKey [.stop]).reads.done
    (.right (.left (.token hkey hmn))) (by rw [hn]; decide)
  obtain ⟨t, ht⟩ := refuses_name .indexName (c := n) (by rw [hn]; decide)
  refine ⟨t, ?_⟩
  rw [dropIndex, Grammar.node, bind_apply, keyword_done hw.accepted hover]
  simp only [bind_apply, hu, Parser.commit, ht]

private theorem specification_fatal {c m : Cursor} {w : List Char} (hover : c.Over w m)
    (hw : Token.Spelled (.keyword .drop) w m.rest) (hm : IsLoneSign m.rest) :
    ∃ t, specification c = .fatal t := by
  have hlead : lead c.rest ∉ (Production.keyword .add).first := by
    rw [hover.rest, hw.lead_keyword]
    decide
  have hkelvin : lead m.rest ∉ [Lead.keyword .primary] := by
    rw [lead_eq_kelvin_iff.mpr hm]
    decide
  obtain ⟨_, h₁⟩ := opens_addIndex.refuses hlead
  obtain ⟨_, h₂⟩ := opens_addConstraint.refuses hlead
  obtain ⟨_, h₃⟩ := opens_addColumn.refuses hlead
  obtain ⟨_, h₄⟩ := opens_dropPrimaryKey.refuses_behind rfl hover hw hkelvin
  obtain ⟨t, h₅⟩ := dropIndex_fatal hover hw hm
  exact ⟨_, by
    rw [specification, Parser.named, choice, choiceAfter_of_refused h₁, choiceAfter_of_refused h₂,
      choiceAfter_of_refused h₃, choiceAfter_of_refused h₄, choiceAfter, h₅]⟩

/-- What is accepted of a specification is read of the whole, since a `DROP` with a lone Kelvin
sign behind it makes the specification fail. -/
theorem reads_specification : ReadsAs Token.Read specification [] .specification clauseEnd := by
  have hreads : Reads specification [] .specification clauseEnd := by
    refine .named (reads_choice (l := clauses.map Prod.fst) ?_ ?_)
    · intro x hx
      obtain ⟨y, hy, rfl⟩ := List.mem_map.mp hx
      exact (opens_of_mem_clauses hy).reads
    · refine List.pairwise_map.mpr (pairwise_before_clauses.imp_of_mem fun hx hy hxy => ?_)
      exact (opens_of_mem_clauses hx).precludes (opens_of_mem_clauses hy) hxy
  refine ⟨fun {c v n} hc => ?_, hreads.done⟩
  have hno : NoSignDropped c := by
    intro w m hover hw hm
    obtain ⟨t, ht⟩ := specification_fatal hover hw hm
    rw [hc] at ht
    cases ht
  obtain ⟨ys, hv, hd⟩ := hreads.derives hc
  obtain ⟨a, ha, hda⟩ := Production.derives_alts.mp hd
  have hclauses : a ∈ (clauses.map Prod.fst).map Prod.snd := ha
  obtain ⟨x, hx, rfl⟩ := List.mem_map.mp hclauses
  obtain ⟨y, hy, rfl⟩ := List.mem_map.mp hx
  exact ⟨ys, hv, Production.derives_alts.mpr ⟨_, ha, (opens_of_mem_clauses hy).read hno hda⟩⟩

end AlterTable.Grammar
