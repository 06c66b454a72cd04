import AlterTable.Grammar.Statement
import AlterTable.Proofs.Grammar.Spelling

/-!
# Productions

A grammar over the tokens as data, and what it derives. `Derives` is declarative: an alternative
may be taken whichever stands first, an option may be left out although it could be taken, and a
repetition may end early. A production derives the trees of the parts that it marks with a rule,
each spanning the text it was derived from.

The relation is stated for any spelling of the tokens, since what is read is not spelled quite as
the grammar says. `Derives.mono` leads from one spelling to another.
-/

namespace AlterTable.Parse.Cursor

/-- The place `n` is reached from the place `c` over the text `w`. -/
structure Over (c : Cursor) (w : List Char) (n : Cursor) : Prop where
  rest : c.rest = w ++ n.rest
  offset : n.offset = c.offset + Text.byteLength w

variable {c m n : Cursor} {v w : List Char}

/-- Over no text one stays at the same place. -/
theorem Over.refl (c : Cursor) : c.Over [] c :=
  ⟨rfl, rfl⟩

/-- What is passed over in two steps is passed over in one. -/
theorem Over.trans (h : c.Over v m) (h' : m.Over w n) : c.Over (v ++ w) n := by
  refine ⟨?_, ?_⟩
  · rw [h.rest, h'.rest, List.append_assoc]
  · rw [h'.offset, h.offset, Text.byteLength_append, Nat.add_assoc]

/-- The place reached over a text is determined by it. -/
theorem Over.eq_advance (h : c.Over w n) : n = c.advance w.length := by
  obtain ⟨offset, rest⟩ := n
  have hr : c.rest = w ++ rest := h.rest
  have ho : offset = c.offset + Text.byteLength w := h.offset
  simp only [advance, hr, List.take_left', List.drop_left', ho]

/-- Going characters further passes over just these characters. -/
theorem over_advance (c : Cursor) (k : Nat) : c.Over (c.rest.take k) (c.advance k) :=
  ⟨(List.take_append_drop k c.rest).symm, rfl⟩

/-- What lies before a place reached over a text is that text. -/
theorem Over.upTo_eq (h : c.Over w n) : c.upTo n = w := by
  rw [h.eq_advance, upTo_advance, h.rest, List.take_left']
  rfl

/-- Two places reached over texts that leave the same rest are the same place. -/
theorem Over.eq_of_rest {w' : List Char} {n' : Cursor} (h : c.Over w n) (h' : c.Over w' n')
    (hr : n.rest = n'.rest) : n = n' := by
  have hw : w = w' := by
    have := h.rest.symm.trans h'.rest
    rw [hr] at this
    exact List.append_cancel_right this
  rw [h.eq_advance, h'.eq_advance, hw]

end AlterTable.Parse.Cursor

namespace AlterTable.Grammar

open AlterTable.Parse

/-- An expression of the grammar. -/
inductive Production where
  /-- Nothing is derived, not even the empty text. -/
  | never
  /-- The empty text. -/
  | empty
  | token (t : Token)
  | seq (a b : Production)
  | alt (a b : Production)
  /-- Any number of times. -/
  | star (a : Production)
  /-- A part that has a node in the tree. -/
  | node (r : Rule) (a : Production)
deriving Repr, Inhabited

namespace Production

/-- The production derives the trees from the text between the two places. -/
inductive Derives (spelling : Token → List Char → List Char → Prop) :
    Production → Cursor → List Node → Cursor → Prop
  | empty {c} : Derives spelling .empty c [] c
  | token {t w c n} : spelling t w n.rest → c.Over w n → Derives spelling (.token t) c [] n
  | seq {a b c m n xs ys} : Derives spelling a c xs m → Derives spelling b m ys n →
      Derives spelling (.seq a b) c (xs ++ ys) n
  | left {a b c n xs} : Derives spelling a c xs n → Derives spelling (.alt a b) c xs n
  | right {a b c n xs} : Derives spelling b c xs n → Derives spelling (.alt a b) c xs n
  | starNil {a c} : Derives spelling (.star a) c [] c
  | starCons {a c m n xs ys} : Derives spelling a c xs m → Derives spelling (.star a) m ys n →
      Derives spelling (.star a) c (xs ++ ys) n
  | node {r a c n xs} : Derives spelling a c xs n →
      Derives spelling (.node r a) c [span r c n xs] n

variable {spelling : Token → List Char → List Char → Prop}
variable {a b : Production} {c n : Cursor} {xs : List Node}

/-! ## Inversion -/

/-- The impossible part derives nothing. -/
@[simp] theorem derives_never : ¬ Derives spelling .never c xs n := by
  intro h
  cases h

/-- The empty part stays where it is, without nodes. -/
@[simp] theorem derives_empty : Derives spelling .empty c xs n ↔ xs = [] ∧ n = c := by
  constructor
  · intro h
    cases h
    exact ⟨rfl, rfl⟩
  · rintro ⟨rfl, rfl⟩
    exact .empty

/-- A token leaves no node and passes over what spells it. -/
theorem derives_token {t : Token} :
    Derives spelling (.token t) c xs n ↔ xs = [] ∧ ∃ w, spelling t w n.rest ∧ c.Over w n := by
  constructor
  · intro h
    cases h with
    | token hw hover => exact ⟨rfl, _, hw, hover⟩
  · rintro ⟨rfl, w, hw, hover⟩
    exact .token hw hover

/-- A sequence is derived in two steps, with the nodes of both. -/
theorem derives_seq : Derives spelling (.seq a b) c xs n ↔
    ∃ ys m zs, xs = ys ++ zs ∧ Derives spelling a c ys m ∧ Derives spelling b m zs n := by
  constructor
  · intro h
    cases h with
    | seq ha hb => exact ⟨_, _, _, rfl, ha, hb⟩
  · rintro ⟨ys, m, zs, rfl, ha, hb⟩
    exact .seq ha hb

/-- An alternative is derived on one of its two sides. -/
theorem derives_alt : Derives spelling (.alt a b) c xs n ↔
    Derives spelling a c xs n ∨ Derives spelling b c xs n := by
  constructor
  · intro h
    cases h with
    | left h => exact .inl h
    | right h => exact .inr h
  · rintro (h | h)
    · exact .left h
    · exact .right h

/-- A named part leaves one node around those of its content. -/
theorem derives_node {r : Rule} : Derives spelling (.node r a) c xs n ↔
    ∃ ys, xs = [span r c n ys] ∧ Derives spelling a c ys n := by
  constructor
  · intro h
    cases h with
    | node ha => exact ⟨_, rfl, ha⟩
  · rintro ⟨ys, rfl, ha⟩
    exact .node ha

/-! ## Derivations and the text -/

/-- A derivation passes over some text. -/
theorem Derives.over (h : Derives spelling a c xs n) : ∃ w, c.Over w n := by
  induction h with
  | empty => exact ⟨[], .refl _⟩
  | token _ hover => exact ⟨_, hover⟩
  | seq _ _ iha ihb =>
    obtain ⟨v, hv⟩ := iha
    obtain ⟨w, hw⟩ := ihb
    exact ⟨v ++ w, hv.trans hw⟩
  | left _ ih => exact ih
  | right _ ih => exact ih
  | starNil => exact ⟨[], .refl _⟩
  | starCons _ _ iha ihs =>
    obtain ⟨v, hv⟩ := iha
    obtain ⟨w, hw⟩ := ihs
    exact ⟨v ++ w, hv.trans hw⟩
  | node _ ih => exact ih

/-- The tokens that the production is made of. -/
def tokens : Production → List Token
  | never => []
  | empty => []
  | token t => [t]
  | seq a b => a.tokens ++ b.tokens
  | alt a b => a.tokens ++ b.tokens
  | star a => a.tokens
  | node _ a => a.tokens

/-- Only the places matter where a token of the production stands in the text. -/
theorem Derives.mono {spelling' : Token → List Char → List Char → Prop}
    (h : Derives spelling a c xs n) (hsub : ∀ t ∈ a.tokens, ∀ u w m, c.Over (u ++ w) m →
      spelling t w m.rest → spelling' t w m.rest) : Derives spelling' a c xs n := by
  induction h with
  | empty => exact .empty
  | token hw hover => exact .token (hsub _ (List.mem_singleton_self _) [] _ _ hover hw) hover
  | seq ha _ iha ihb =>
    obtain ⟨v, hv⟩ := ha.over
    refine .seq (iha fun t ht => hsub t (List.mem_append_left _ ht)) (ihb fun t ht u w m huw => ?_)
    refine hsub t (List.mem_append_right _ ht) (v ++ u) w m ?_
    rw [List.append_assoc]
    exact hv.trans huw
  | left _ ih => exact .left (ih fun t ht => hsub t (List.mem_append_left _ ht))
  | right _ ih => exact .right (ih fun t ht => hsub t (List.mem_append_right _ ht))
  | starNil => exact .starNil
  | starCons ha _ iha ihs =>
    obtain ⟨v, hv⟩ := ha.over
    refine .starCons (iha hsub) (ihs fun t ht u w m huw => ?_)
    refine hsub t ht (v ++ u) w m ?_
    rw [List.append_assoc]
    exact hv.trans huw
  | node _ ih => exact .node (ih hsub)

/-- What is derived as it is read is derived with the more liberal spelling. -/
theorem Derives.accepted (h : Derives Token.Read a c xs n) : Derives Token.Accepted a c xs n :=
  h.mono fun _ _ _ _ _ _ hw => hw.1

/-- Only `DROP` is not read wherever it is accepted. -/
theorem Derives.read_of_tokens (h : Derives Token.Accepted a c xs n)
    (ha : .keyword .drop ∉ a.tokens) : Derives Token.Read a c xs n :=
  h.mono fun _ ht _ _ _ _ hw => ⟨hw, fun hdrop => absurd (hdrop ▸ ht) ha⟩

end Production

end AlterTable.Grammar
