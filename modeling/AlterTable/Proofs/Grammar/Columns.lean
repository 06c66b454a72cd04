import AlterTable.Grammar.Statement
import AlterTable.Proofs.Grammar.Literal

/-!
# Column definitions are read exactly

The parsers of data types, attributes and definitions read their productions. Each law names the
leads that may follow: what stands behind an attribute is another attribute or the end of a
definition, and behind a definition a position, a comma or parenthesis, or the end of the clause.
-/

namespace AlterTable.Grammar

open AlterTable.Parse
open AlterTable.Parse.Parser

variable {α : Type} [HasTrees α] {follow : List Lead} {r : Rule} {k : Keyword}

/-! ## What may follow -/

/-- What stands behind a clause. -/
def clauseEnd : List Lead := [.mark ',', .mark ';', .stop]

/-- What stands behind a column definition. -/
def definitionEnd : List Lead := [.keyword .first, .keyword .after, .mark ')'] ++ clauseEnd

/-- What stands behind a data type or an attribute. -/
def attributeEnd : List Lead := Production.columnAttribute.first ++ definitionEnd

@[simp] private theorem trees_units (l : List Unit) : trees l = [] := by
  show l.flatMap (fun _ => []) = []
  simp

/-- An optional result without content has no nodes. -/
@[simp] theorem trees_option_unit (o : Option Unit) : trees o = [] := trees_units o.toList

/-! ## Words and names -/

/-- The parser of a name reads the production of the name. -/
theorem reads_name (r : Rule) : Reads (name r) [] (.name r) follow :=
  .leaf reads_identifier

/-- Where no identifier can begin, no name is read. -/
theorem refuses_name (r : Rule) : Refuses (name r) Token.identifier.first :=
  Refuses.leaf refuses_identifier

/-- Several keywords are refused where the first of them is. -/
theorem refuses_keywords (k : Keyword) (ks : List Keyword) :
    Refuses (keywords (k :: ks)) (Production.keyword k).first :=
  Refuses.bind (refuses_keyword k)

/-- A keyword is read, and refused where it cannot begin. -/
theorem alternative_keyword (k : Keyword) :
    Alternative (keyword k) (Production.keyword k) follow :=
  ⟨reads_keyword k, refuses_keyword k, rfl⟩

/-- No other keyword is mistaken like `KEY`. -/
theorem heads_keyword (hk : k ≠ .key) (last : Bool) :
    (Production.keyword k).heads last = [.keyword k] := by
  cases k with
  | key => exact absurd rfl hk
  | _ => rfl

/-- Keywords that make up a node are an alternative. -/
theorem alternative_keywords (r : Rule) (ks : List Keyword) (hk : k ≠ .key) :
    Alternative (leaf r (keywords (k :: ks))) (.leaf r (Production.keywords (k :: ks)))
      follow where
  reads := .leaf (reads_keywords _)
  refuses := by
    have hfirst : (Production.leaf r (Production.keywords (k :: ks))).first =
        (Production.keyword k).first := by
      show (Production.keyword k).heads _ ++ [] ++ [] = _
      rw [heads_keyword hk, Production.first, heads_keyword hk]
      rfl
    rw [hfirst]
    exact Refuses.leaf (refuses_keywords k ks)
  takes := rfl

/-! ## Types and attributes -/

/-- The parser of numbers in parentheses reads their production. -/
theorem reads_numbers : Reads numbers [] .numbers follow :=
  .bind (reads_parens (reads_list (reads_digits (by decide)) (by decide)))
    fun _ => reads_pure (by simp)

/-- Where no parenthesis opens, there are no numbers. -/
theorem refuses_numbers : Refuses numbers [.mark '('] :=
  Refuses.bind (Refuses.bind (refuses_mark .openParen))

/-- The parser of data types reads their production in front of an attribute or an end. -/
theorem reads_dataType : Reads dataType [] .dataType attributeEnd :=
  .leaf (.bind reads_identifier fun _ =>
    .bind (.maybe reads_numbers refuses_numbers (by decide)) fun _ =>
    .bind (.maybe (reads_keyword .unsigned) (refuses_keyword _) (by decide)) fun _ =>
    reads_pure (by simp))

private theorem alternative_unique : Alternative uniqueAttribute
    (.leaf .unique (.seqs [.keyword .unique, .option (.keyword .key)])) attributeEnd where
  reads := .leaf (.bind (reads_keyword _) fun _ =>
    .bind (.maybe (reads_keyword _) (refuses_keyword _) (by decide)) fun _ =>
    reads_pure (by simp))
  refuses := Refuses.leaf (Refuses.bind (refuses_keyword _))
  takes := rfl

private theorem alternative_default : Alternative defaultAttribute
    (.leaf .columnAttribute (.seq (.keyword .default) (.token .literal))) attributeEnd where
  reads := .leaf (.bind (reads_keyword _) fun _ => .commit (reads_literal (by decide)))
  refuses := Refuses.leaf (Refuses.bind (refuses_keyword _))
  takes := rfl

private theorem alternative_comment : Alternative commentAttribute
    (.leaf .columnAttribute (.seq (.keyword .comment) (.token .string))) attributeEnd where
  reads := .leaf (.bind (reads_keyword _) fun _ => .commit (reads_string (by decide)))
  refuses := Refuses.leaf (Refuses.bind (refuses_keyword _))
  takes := rfl

/-- The attributes, each with its production. -/
def attributes : List (Parser Node × Production) :=
  [(leaf .notNull (keywords [.not, .null]), .leaf .notNull (.keywords [.not, .null])),
   (leaf .columnAttribute (keywords [.null]), .leaf .columnAttribute (.keywords [.null])),
   (leaf .primaryKey (keywords [.primary, .key]), .leaf .primaryKey (.keywords [.primary, .key])),
   (leaf .autoIncrement (keywords [.autoIncrement]),
     .leaf .autoIncrement (.keywords [.autoIncrement])),
   (uniqueAttribute, .leaf .unique (.seqs [.keyword .unique, .option (.keyword .key)])),
   (defaultAttribute, .leaf .columnAttribute (.seq (.keyword .default) (.token .literal))),
   (commentAttribute, .leaf .columnAttribute (.seq (.keyword .comment) (.token .string)))]

/-- Every parser of an attribute is an alternative that reads its own production. -/
theorem alternative_of_mem_attributes {x : Parser Node × Production} (hx : x ∈ attributes) :
    Alternative x.1 x.2 attributeEnd := by
  simp only [attributes, List.mem_cons, List.not_mem_nil, or_false] at hx
  rcases hx with rfl | rfl | rfl | rfl | rfl | rfl | rfl
  · exact alternative_keywords _ _ (by decide)
  · exact alternative_keywords _ _ (by decide)
  · exact alternative_keywords _ _ (by decide)
  · exact alternative_keywords _ _ (by decide)
  · exact alternative_unique
  · exact alternative_default
  · exact alternative_comment

/-- No two attributes have a common lead. -/
theorem disjoint_attributes : (attributes.map Prod.snd).Pairwise fun a b =>
    ∀ l ∈ b.first, l ∉ a.first := by
  decide

/-- The parser of attributes reads their production. -/
theorem reads_columnAttribute : Reads columnAttribute [] .columnAttribute attributeEnd :=
  reads_choice_of_disjoint (l := attributes) (fun _ => alternative_of_mem_attributes)
    disjoint_attributes

/-- Where no attribute can begin, none is read. -/
theorem refuses_columnAttribute : Refuses columnAttribute Production.columnAttribute.first :=
  refuses_choice (l := attributes) fun _ => alternative_of_mem_attributes

/-! ## Definitions and positions -/

/-- The parser of definitions reads their production in front of a position or an end. -/
theorem reads_definition : Reads definition [] .definition definitionEnd :=
  .node (.bind (reads_name _) fun _ => .bind (.named reads_dataType) fun _ =>
    .bind (.many reads_columnAttribute refuses_columnAttribute rfl (by decide)) fun _ =>
    reads_pure (by simp))

private theorem alternative_position : Alternative (choice
    [do keyword .first; return ([] : List Node),
     do
      keyword .after
      let anchor ← commit (named "after column" (name .columnName))
      return [anchor]])
    (.alts [.seqs [.keyword .first], .seqs [.keyword .after, .name .columnName]]) follow := by
  refine .or ⟨?_, Refuses.bind (refuses_keyword _), rfl⟩
    ⟨?_, Refuses.bind (refuses_keyword _), rfl⟩ (by decide)
  · exact .bind (reads_keyword _) fun _ => reads_pure rfl
  · exact .bind (reads_keyword _) fun _ => .bind (.commit (.named (reads_name _))) fun _ =>
      reads_pure (by simp)

/-- The parser of positions reads their production. -/
theorem reads_position : Reads position [] .position follow :=
  .node alternative_position.reads

/-- Where no position can begin, none is read. -/
theorem refuses_position : Refuses position Production.position.first := by
  have halternative := @alternative_position []
  exact Refuses.node halternative.refuses

/-- The parser of an optional position reads its production at the end of a clause. -/
theorem reads_maybePosition : Reads (maybe position) [] (.option .position) clauseEnd :=
  .maybe reads_position refuses_position (by decide)

end AlterTable.Grammar
