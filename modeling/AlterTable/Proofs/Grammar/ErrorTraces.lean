import AlterTable.Proofs.Grammar.Production
import AlterTable.Proofs.Text
import AlterTable.Syntax

/-!
# Traces of errors

A text that is no statement is refused with a trace that can be shown (`Parse.Trace.Inside`): it
has an entry, each entry has a place of the text, with as many bytes before it as it says and the
rest of the text behind it, and from one entry to the next the places do not move on.

Every parser has its part in this. `Parser.Faithful` says that what a parser reads lies ahead of
where it started, and that the trace of a failure leads back to there. Failures are only ever passed
on from places ahead, and the entries that alternatives and names of parts add stand where these
were tried. So the property goes through each way to put parsers together, and the grammar has it
part by part.
-/

namespace AlterTable

open AlterTable.Parse

namespace Parse

/-! ## Traces that lead back to a place -/

/-- The entries are at the place or ahead of it, and none is ahead of one that stands before it in
the trace. -/
structure Trace.LeadsTo (t : Trace) (c : Cursor) : Prop where
  ahead : ∀ e ∈ t, ∃ w, c.Over w e.place
  ordered : t.Pairwise fun inner outer => outer.place.offset ≤ inner.place.offset

/-- A failure with this trace can be told of at the place. -/
structure Trace.From (t : Trace) (c : Cursor) : Prop extends t.LeadsTo c where
  ne_nil : t ≠ []

variable {c n : Cursor} {t : Trace} {w : List Char} {expected : Expectation}

private theorem Cursor.Over.offset_le (h : c.Over w n) : c.offset ≤ n.offset := by
  rw [h.offset]
  omega

private theorem Trace.leadsTo_nil (c : Cursor) : Trace.LeadsTo [] c :=
  ⟨by simp, .nil⟩

/-- What leads to a place leads to the places before it. -/
theorem Trace.From.of_over (h : t.From n) (hover : c.Over w n) : t.From c where
  ahead := by
    intro e he
    obtain ⟨v, hv⟩ := h.ahead e he
    exact ⟨w ++ v, hover.trans hv⟩
  ordered := h.ordered
  ne_nil := h.ne_nil

/-- One more entry at the place itself is the outermost. -/
theorem Trace.LeadsTo.within (h : t.LeadsTo c) (expected : Expectation) :
    (t.within c expected).From c where
  ahead := by
    intro e he
    rcases List.mem_append.mp he with he | he
    · exact h.ahead e he
    · rw [List.mem_singleton.mp he]
      exact ⟨[], .refl c⟩
  ordered := by
    apply List.pairwise_append.mpr
    refine ⟨h.ordered, List.pairwise_singleton _ _, ?_⟩
    intro inner hinner outer houter
    obtain ⟨w, hw⟩ := h.ahead inner hinner
    rw [List.mem_singleton.mp houter]
    exact hw.offset_le
  ne_nil := t.within_ne_nil c expected

private theorem Trace.from_entry (c : Cursor) (expected : Expectation) :
    Trace.From [⟨c, expected⟩] c :=
  (Trace.leadsTo_nil c).within expected

/-! ## Faithful parsers -/

variable {α β γ : Type}

/-- What was read lies ahead of the place, or the failure can be told of there. -/
def Outcome.Faithful (c : Cursor) : Outcome α → Prop
  | .done _ n => ∃ w, c.Over w n
  | .refused t => t.From c
  | .fatal t => t.From c

/-- An outcome that is faithful further on is faithful from an earlier place. -/
theorem Outcome.Faithful.of_over {o : Outcome α} (h : o.Faithful n) (hover : c.Over w n) :
    o.Faithful c := by
  cases o with
  | done a m =>
    obtain ⟨v, hv⟩ := h
    exact ⟨w ++ v, hover.trans hv⟩
  | refused t => exact Trace.From.of_over h hover
  | fatal t => exact Trace.From.of_over h hover

namespace Parser

/-- All that the parser answers is about what lies ahead. -/
def Faithful (p : Parser α) : Prop :=
  ∀ c, (p c).Faithful c

variable {p : Parser α} {f : α → Parser β}

/-- A parser that never fails is faithful. -/
theorem faithful_pure (a : α) : Faithful (pure a) :=
  fun c => ⟨[], .refl c⟩

/-- What can be told of behind something that was read can be told of in front of it. -/
theorem Faithful.behind {o : Outcome β} {a : α} (hp : p.Faithful) (h : p c = .done a n)
    (ho : o.Faithful n) : o.Faithful c := by
  have hdone := hp c
  rw [h] at hdone
  obtain ⟨w, hw⟩ := hdone
  exact ho.of_over hw

/-- Two faithful parsers, one behind the other, are faithful. -/
theorem Faithful.bind (hp : p.Faithful) (hf : ∀ a, (f a).Faithful) : (p >>= f).Faithful := by
  intro c
  have h := hp c
  rw [bind_apply]
  cases hpc : p c with
  | done a n => exact hp.behind hpc (hf a n)
  | refused t =>
    rw [hpc] at h
    exact h
  | fatal t =>
    rw [hpc] at h
    exact h

/-- A lexeme fails with the one entry of the place where it was expected. -/
theorem faithful_lexeme (expected : Expectation) (width? : List Char → Option Nat) :
    (lexeme expected width?).Faithful := by
  intro c
  unfold lexeme
  split
  next k _ => exact ⟨c.rest.take k, c.over_advance k⟩
  next => exact Trace.from_entry c expected

/-- A look ahead fails with the one entry of its place. -/
theorem faithful_notAhead (test : Char → Bool) : (notAhead test).Faithful := by
  intro c
  unfold notAhead
  split
  · exact Trace.from_entry c .absence
  · exact ⟨[], .refl c⟩

/-- The end of the text fails with the one entry of its place. -/
theorem faithful_endOfText : endOfText.Faithful := by
  intro c
  unfold endOfText
  split
  · exact ⟨[], .refl c⟩
  · exact Trace.from_entry c .endOfText

/-- An option gives up the trace of a refusal. -/
theorem Faithful.maybe (hp : p.Faithful) : (maybe p).Faithful := by
  intro c
  have h := hp c
  unfold Parser.maybe
  generalize p c = o at h ⊢
  cases o with
  | done a n => exact h
  | refused t => exact ⟨[], .refl c⟩
  | fatal t => exact h

/-- Alternatives keep the trace of the one that was tried last. -/
theorem faithful_choiceAfter {ps : List (Parser α)} (hps : ∀ p ∈ ps, p.Faithful) {last : Trace}
    (hlast : last.LeadsTo c) : (choiceAfter last ps c).Faithful c := by
  induction ps generalizing last with
  | nil => exact hlast.within .choice
  | cons p ps ih =>
    have h := hps p List.mem_cons_self c
    rw [choiceAfter]
    generalize p c = o at h ⊢
    cases o with
    | done a n => exact h
    | refused t =>
      have hrefused : t.From c := h
      exact ih (fun q hq => hps q (List.mem_cons_of_mem _ hq)) hrefused.toLeadsTo
    | fatal t => exact h

/-- A choice of faithful parsers is faithful: its entry stands at the place where all of them began.
-/
theorem faithful_choice {ps : List (Parser α)} (hps : ∀ p ∈ ps, p.Faithful) :
    (choice ps).Faithful :=
  fun c => faithful_choiceAfter hps (Trace.leadsTo_nil c)

/-- A failure that is made final keeps its trace. -/
theorem Faithful.commit (hp : p.Faithful) : (commit p).Faithful := by
  intro c
  have h := hp c
  unfold Parser.commit
  generalize p c = o at h ⊢
  cases o with
  | done a n => exact h
  | refused t => exact h
  | fatal t => exact h

/-- To test what was read is faithful: a refusal has the place before it. -/
theorem Faithful.accepting (hp : p.Faithful) (test : α → Bool) : (accepting p test).Faithful := by
  intro c
  have h := hp c
  unfold Parser.accepting
  generalize p c = o at h ⊢
  cases o with
  | done a n =>
    dsimp only
    split
    · exact h
    · exact Trace.from_entry c .accepted
  | refused t => exact h
  | fatal t => exact h

/-- The name of a part is the outermost entry. -/
theorem Faithful.named (hp : p.Faithful) (name : String) : (named name p).Faithful := by
  intro c
  have h := hp c
  unfold Parser.named
  generalize p c = o at h ⊢
  cases o with
  | done a n => exact h
  | refused t =>
    have hrefused : t.From c := h
    exact hrefused.toLeadsTo.within (.part name)
  | fatal t =>
    have hfatal : t.From c := h
    exact hfatal.toLeadsTo.within (.part name)

/-- A repetition gives up the trace of the refusal that ends it. -/
theorem Faithful.many (hp : p.Faithful) : (many p).Faithful := by
  intro c
  fun_induction Parser.many p c with
  | case1 c a m hpc _ as last hmany ih =>
    rw [hmany] at ih
    have hall := hp.behind hpc ih
    exact hall
  | case2 c a m hpc _ t hmany ih =>
    rw [hmany] at ih
    exact hp.behind hpc ih
  | case3 c a m hpc _ t hmany ih =>
    rw [hmany] at ih
    exact hp.behind hpc ih
  | case4 c => exact ⟨[], .refl c⟩
  | case5 c => exact ⟨[], .refl c⟩
  | case6 c t hpc =>
    have h := hp c
    rw [hpc] at h
    exact h

/-- A list of what is read faithfully is read faithfully. -/
theorem Faithful.separatedBy {separator : Parser β} (hseparator : separator.Faithful)
    (hp : p.Faithful) : (separatedBy separator p).Faithful :=
  hp.bind fun _ => (Faithful.many (hseparator.bind fun _ => hp)).bind fun _ => faithful_pure _

/-- Something between two marks is read faithfully if all three are. -/
theorem Faithful.between {opening : Parser β} {closing : Parser γ} (hopening : opening.Faithful)
    (hclosing : closing.Faithful) (hp : p.Faithful) : (between opening closing p).Faithful :=
  hopening.bind fun _ => hp.bind fun _ => hclosing.bind fun _ => faithful_pure _

end Parser

end Parse

/-! ## The grammar -/

namespace Grammar

open AlterTable.Parse.Parser

variable {r : Rule}

/-- A named part is faithful if its content is. -/
theorem faithful_node {p : Parser (List Node)} (hp : p.Faithful) : (node r p).Faithful := by
  intro c
  have h := hp c
  unfold node
  generalize p c = o at h ⊢
  cases o with
  | done xs n => exact h
  | refused t => exact h
  | fatal t => exact h

private theorem faithful_leaf {p : Parser Unit} (hp : p.Faithful) : (leaf r p).Faithful :=
  faithful_node (hp.bind fun _ => faithful_pure _)

/-! ### Tokens -/

private theorem faithful_gap : gap.Faithful :=
  (faithful_lexeme _ _).bind fun _ => faithful_pure _

private theorem faithful_character (d : Char) : (character d).Faithful :=
  (faithful_lexeme _ _).bind fun _ => faithful_pure _

private theorem faithful_fixed (t : List Char) : (fixed t).Faithful :=
  (faithful_lexeme _ _).bind fun _ => faithful_pure _

private theorem faithful_mark (d : Char) : (mark d).Faithful :=
  faithful_gap.bind fun _ => faithful_fixed _

private theorem faithful_keyword (k : Keyword) : (keyword k).Faithful :=
  faithful_gap.bind fun _ => (faithful_lexeme _ _).bind fun _ => faithful_notAhead _

private theorem faithful_keywords (ks : List Keyword) : (keywords ks).Faithful := by
  induction ks with
  | nil => exact faithful_pure ()
  | cons k ks ih => exact (faithful_keyword k).bind fun _ => ih

private theorem faithful_bareWord : bareWord.Faithful :=
  faithful_lexeme _ _

private theorem faithful_digits : digits.Faithful :=
  (faithful_lexeme _ _).bind fun _ => faithful_pure _

private theorem faithful_quotedName : quotedName.Faithful :=
  (faithful_character _).bind fun _ => (faithful_lexeme _ _).bind fun _ => faithful_character _

private theorem faithful_bareName : bareName.Faithful :=
  (faithful_bareWord.accepting _).bind fun _ => faithful_pure _

private theorem faithful_identifier : identifier.Faithful :=
  faithful_gap.bind fun _ =>
    faithful_choice (by simp [faithful_quotedName, faithful_bareName])

private theorem faithful_name (r : Rule) : (name r).Faithful :=
  faithful_leaf faithful_identifier

private theorem faithful_string : string.Faithful := by
  have hrun : (do let _ ← lexeme .otherThan (runWidth? (· != quote)) : Parser Unit).Faithful :=
    (faithful_lexeme _ _).bind fun _ => faithful_pure _
  exact (faithful_character _).bind fun _ =>
    (Faithful.many (faithful_choice (by simp [hrun, faithful_fixed]))).bind fun _ =>
    faithful_character _

private theorem faithful_number : number.Faithful :=
  (faithful_character _).maybe.bind fun _ => faithful_digits.bind fun _ =>
    (Faithful.maybe ((faithful_character _).bind fun _ => faithful_digits)).bind fun _ =>
    faithful_pure _

private theorem faithful_literal : literal.Faithful := by
  have hword : (do let _ ← bareWord : Parser Unit).Faithful :=
    faithful_bareWord.bind fun _ => faithful_pure _
  exact faithful_gap.bind fun _ =>
    faithful_choice (by simp [faithful_string, faithful_number, hword])

private theorem faithful_numbers : numbers.Faithful :=
  (Faithful.between (faithful_mark _) (faithful_mark _) ((faithful_mark _).separatedBy
    (faithful_gap.bind fun _ => faithful_digits))).bind fun _ => faithful_pure _

/-! ### Columns -/

private theorem faithful_dataType : dataType.Faithful :=
  faithful_leaf (faithful_identifier.bind fun _ => faithful_numbers.maybe.bind fun _ =>
    (faithful_keyword _).maybe.bind fun _ => faithful_pure _)

private theorem faithful_columnAttribute : columnAttribute.Faithful := by
  have hwords : ∀ r ks, (leaf r (keywords ks)).Faithful :=
    fun r ks => faithful_leaf (faithful_keywords ks)
  have hunique : uniqueAttribute.Faithful :=
    faithful_leaf ((faithful_keyword _).bind fun _ => (faithful_keyword _).maybe.bind fun _ =>
      faithful_pure _)
  have hdefault : defaultAttribute.Faithful :=
    faithful_leaf ((faithful_keyword _).bind fun _ => faithful_literal.commit)
  have hcomment : commentAttribute.Faithful :=
    faithful_leaf ((faithful_keyword _).bind fun _ =>
      Faithful.commit (faithful_gap.bind fun _ => faithful_string))
  exact faithful_choice (by simp [hwords, hunique, hdefault, hcomment])

private theorem faithful_definition : definition.Faithful :=
  faithful_node ((faithful_name _).bind fun _ => (faithful_dataType.named _).bind fun _ =>
    faithful_columnAttribute.many.bind fun _ => faithful_pure _)

private theorem faithful_position : position.Faithful := by
  have hfirst : (do keyword .first; return [] : Parser (List Node)).Faithful :=
    (faithful_keyword _).bind fun _ => faithful_pure _
  have hafter : (do
      keyword .after
      let anchor ← commit (named "after column" (name .columnName))
      return [anchor] : Parser (List Node)).Faithful :=
    (faithful_keyword _).bind fun _ => ((faithful_name _).named _).commit.bind fun _ =>
      faithful_pure _
  exact faithful_node (faithful_choice (by simp [hfirst, hafter]))

/-! ### Indexes -/

private theorem faithful_indexOrKey : indexOrKey.Faithful :=
  faithful_choice (by simp [faithful_keyword])

private theorem faithful_keyPart : keyPart.Faithful := by
  have horder : (choice [keyword .asc, keyword .desc]).Faithful :=
    faithful_choice (by simp [faithful_keyword])
  exact (faithful_name _).bind fun _ => faithful_numbers.maybe.bind fun _ =>
    horder.maybe.bind fun _ => faithful_pure _

private theorem faithful_keyParts : keyParts.Faithful :=
  faithful_node (Faithful.between (faithful_mark _) (faithful_mark _)
    ((faithful_mark _).separatedBy faithful_keyPart))

private theorem faithful_indexKind : indexKind.Faithful := by
  have hunique : (do
      let unique ← leaf .unique (keywords [.unique])
      let _ ← maybe indexOrKey
      return some unique : Parser (Option Node)).Faithful :=
    (faithful_leaf (faithful_keywords _)).bind fun _ => faithful_indexOrKey.maybe.bind fun _ =>
      faithful_pure _
  have hplain : (do indexOrKey; return none : Parser (Option Node)).Faithful :=
    faithful_indexOrKey.bind fun _ => faithful_pure _
  exact faithful_choice (by simp [hunique, hplain])

private theorem faithful_addIndex : addIndex.Faithful :=
  faithful_node ((faithful_keyword _).bind fun _ => faithful_indexKind.bind fun _ =>
    Faithful.commit ((faithful_name _).maybe.bind fun _ => faithful_keyParts.bind fun _ =>
      faithful_pure _))

private theorem faithful_constraint : constraint.Faithful :=
  (faithful_keyword _).bind fun _ => (faithful_name _).maybe

private theorem faithful_addConstraint : addConstraint.Faithful :=
  faithful_node ((faithful_keyword _).bind fun _ => faithful_constraint.maybe.bind fun _ =>
    (faithful_leaf (faithful_keywords _)).bind fun _ => faithful_keyParts.commit.bind fun _ =>
    faithful_pure _)

private theorem faithful_dropPrimaryKey : dropPrimaryKey.Faithful :=
  faithful_leaf (faithful_keywords _)

private theorem faithful_dropIndex : dropIndex.Faithful :=
  faithful_node ((faithful_keyword _).bind fun _ => faithful_indexOrKey.bind fun _ =>
    (faithful_name _).commit.bind fun _ => faithful_pure _)

private theorem faithful_renameIndex : renameIndex.Faithful :=
  faithful_node ((faithful_keyword _).bind fun _ => faithful_indexOrKey.bind fun _ =>
    Faithful.commit ((faithful_name _).bind fun _ => (faithful_keyword _).bind fun _ =>
      (faithful_name _).bind fun _ => faithful_pure _))

/-! ### Statements -/

private theorem faithful_addColumn : addColumn.Faithful := by
  have hseveral : (between (mark '(') (mark ')') (separatedBy (mark ',') definition)).Faithful :=
    Faithful.between (faithful_mark _) (faithful_mark _)
      ((faithful_mark _).separatedBy faithful_definition)
  have hsingle : (do
      let column ← definition
      let place ← maybe position
      return column :: place.toList : Parser (List Node)).Faithful :=
    faithful_definition.bind fun _ => faithful_position.maybe.bind fun _ => faithful_pure _
  exact faithful_node ((faithful_keyword _).bind fun _ => (faithful_keyword _).maybe.bind fun _ =>
    Faithful.commit (faithful_choice (by simp [hseveral, hsingle])))

private theorem faithful_dropColumn : dropColumn.Faithful :=
  faithful_node ((faithful_keyword _).bind fun _ => (faithful_keyword _).maybe.bind fun _ =>
    (faithful_name _).commit.bind fun _ => faithful_pure _)

private theorem faithful_changeColumn : changeColumn.Faithful :=
  faithful_node ((faithful_keyword _).bind fun _ => (faithful_keyword _).maybe.bind fun _ =>
    Faithful.commit ((faithful_name _).bind fun _ => faithful_definition.bind fun _ =>
      faithful_position.maybe.bind fun _ => faithful_pure _))

private theorem faithful_modifyColumn : modifyColumn.Faithful :=
  faithful_node ((faithful_keyword _).bind fun _ => (faithful_keyword _).maybe.bind fun _ =>
    Faithful.commit (faithful_definition.bind fun _ => faithful_position.maybe.bind fun _ =>
      faithful_pure _))

/-- The parser of a clause is faithful, whichever clause it turns out to be. -/
theorem faithful_specification : specification.Faithful := by
  refine Faithful.named (faithful_choice ?_) _
  simp only [List.forall_mem_cons]
  exact ⟨faithful_addIndex, faithful_addConstraint, faithful_addColumn, faithful_dropPrimaryKey,
    faithful_dropIndex, faithful_dropColumn, faithful_renameIndex, faithful_changeColumn,
    faithful_modifyColumn, by simp⟩

private theorem faithful_tableName : tableName.Faithful :=
  faithful_leaf (faithful_identifier.bind fun _ =>
    (Faithful.maybe ((faithful_fixed _).bind fun _ => faithful_identifier)).bind fun _ =>
    faithful_pure _)

private theorem faithful_alterTable : alterTable.Faithful :=
  faithful_node ((faithful_keywords _).bind fun _ =>
    Faithful.commit ((faithful_tableName.named _).bind fun _ =>
      ((faithful_mark _).separatedBy faithful_specification).bind fun _ => faithful_pure _))

/-- The parser of whole statements is faithful. -/
theorem faithful_statement : statement.Faithful :=
  faithful_alterTable.bind fun _ => (faithful_mark _).maybe.bind fun _ =>
    faithful_gap.bind fun _ => faithful_endOfText.bind fun _ => faithful_pure _

end Grammar

/-! ## Errors -/

variable {text : String} {fault : SyntaxError}

/-- The trace can be shown: there is something to show, each place is one of the text, between two
characters, and the places lead from the innermost entry to the outermost without moving on. -/
structure Parse.Trace.Inside (t : Trace) (text : String) : Prop where
  ne_nil : t ≠ []
  place : ∀ e ∈ t, ∃ before, text.toList = before ++ e.place.rest ∧
    e.place.offset = Text.byteLength before
  isValid : ∀ e ∈ t, String.Pos.Raw.IsValid text ⟨e.place.offset⟩
  offset_le : ∀ e ∈ t, e.place.offset ≤ text.utf8ByteSize
  outward : t.Pairwise fun inner outer => outer.place.offset ≤ inner.place.offset

/-- What is left of a text from a place on stands in the text there. -/
theorem Text.standsAt_rest {before rest : List Char} (h : text.toList = before ++ rest) :
    StandsAt (String.ofList rest) (byteLength before) text := by
  have hsplit : text.toList = before ++ ((String.ofList rest).toList ++ []) := by
    rw [String.toList_ofList, List.append_nil, h]
  exact standsAt_of_toList hsplit

/-- A trace from the start of a text is one of places inside it. -/
theorem Parse.Trace.From.inside {t : Trace} (h : t.From (.ofText text.toList)) :
    t.Inside text := by
  have hplace : ∀ e ∈ t, ∃ before, text.toList = before ++ e.place.rest ∧
      e.place.offset = Text.byteLength before := by
    intro e he
    obtain ⟨before, hover⟩ := h.ahead e he
    exact ⟨before, hover.rest, hover.offset.trans (Nat.zero_add _)⟩
  have hstands : ∀ e ∈ t, Text.StandsAt (String.ofList e.place.rest) e.place.offset text := by
    intro e he
    obtain ⟨before, hrest, hoffset⟩ := hplace e he
    rw [hoffset]
    exact Text.standsAt_rest hrest
  refine ⟨h.ne_nil, hplace, fun e he => (hstands e he).isValid_start, ?_, h.ordered⟩
  intro e he
  have hend := (hstands e he).end_le
  omega

/-- A syntax error has the trace that the parser of statements failed with. -/
theorem ofText?_eq_error (h : Node.ofText? text = .error fault) :
    fault.text = text.toList ∧
      (Grammar.statement (.ofText text.toList) = .refused fault.trace ∨
        Grammar.statement (.ofText text.toList) = .fatal fault.trace) := by
  unfold Node.ofText? at h
  dsimp only at h
  split at h
  next => cases h
  next t ht =>
    cases h
    exact ⟨rfl, .inl ht⟩
  next t ht =>
    cases h
    exact ⟨rfl, .inr ht⟩

/-- A text that is not read is reported with a trace that lies inside it. -/
theorem Parse.Trace.inside_of_ofText? (h : Node.ofText? text = .error fault) :
    fault.text = text.toList ∧ fault.trace.Inside text := by
  obtain ⟨htext, houtcome⟩ := ofText?_eq_error h
  have hfaithful := Grammar.faithful_statement (.ofText text.toList)
  refine ⟨htext, ?_⟩
  rcases houtcome with hrefused | hfatal
  · rw [hrefused] at hfaithful
    exact Trace.From.inside hfaithful
  · rw [hfatal] at hfaithful
    exact Trace.From.inside hfaithful

/-- A column without its type: three entries at the end of the text, one where the alternatives of
the clause began and one where the specification did. -/
theorem Parse.Trace.inside_of_ofText?_untyped : ∃ fault,
    Node.ofText? "ALTER TABLE t ADD é" = .error fault ∧
    fault.trace.map (·.place.offset) = [20, 20, 20, 17, 13] ∧
    fault.text = "ALTER TABLE t ADD é".toList ∧ fault.trace.Inside "ALTER TABLE t ADD é" := by
  have hoffsets : (((Node.ofText? "ALTER TABLE t ADD é").map fun _ => []).tryCatch fun fault =>
      .ok (fault.trace.map (·.place.offset))).toOption = some [20, 20, 20, 17, 13] := by
    decide +kernel
  cases h : Node.ofText? "ALTER TABLE t ADD é" with
  | ok tree =>
    rw [h] at hoffsets
    cases hoffsets
  | error fault =>
    rw [h] at hoffsets
    exact ⟨fault, rfl, Option.some.inj hoffsets, Parse.Trace.inside_of_ofText? h⟩

end AlterTable
