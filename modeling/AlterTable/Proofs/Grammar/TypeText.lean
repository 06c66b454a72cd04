import AlterTable.Proofs.Grammar.Exactness
import AlterTable.Proofs.Grammar.Parts
import AlterTable.Proofs.Text

/-!
# The texts of data types

What a production derives is made up of the texts of its tokens, so no other characters stand in it
(`Derives.exists_madeOf`). For the text of a data type that means that it has no colon, unless one
stands in a quoted name. Commas it may have, between the numbers in its parentheses.
-/

namespace AlterTable.Grammar

open AlterTable.Parse

/-- The text of a data type with an unquoted name, in some statement. -/
def IsTypeText (s : String) : Prop :=
  Text.backQuote ∉ s.toList ∧ ∃ (text : String) (tree u : Node), Node.ofText? text = .ok tree ∧
    u.Within tree ∧ u.rule = .dataType ∧ u.text = s

/-! ## Characters of tokens -/

section

variable {spelling : Token → List Char → List Char → Prop} {ts us : List Token}
variable {v w : List Char}

/-- Each character of the text stands in that of a token which is part of it. -/
def MadeOf (spelling : Token → List Char → List Char → Prop) (ts : List Token) (w : List Char) :
    Prop :=
  ∀ d ∈ w, ∃ t ∈ ts, ∃ v r, spelling t v r ∧ d ∈ v ∧ v ⊆ w

private theorem madeOf_nil : MadeOf spelling ts [] :=
  fun _ hd => absurd hd List.not_mem_nil

private theorem MadeOf.mono (h : MadeOf spelling ts w) (hsub : ts ⊆ us) : MadeOf spelling us w := by
  intro d hd
  obtain ⟨t, ht, hrest⟩ := h d hd
  exact ⟨t, hsub ht, hrest⟩

/-- Texts made of certain tokens make one text of these tokens. -/
theorem MadeOf.append (hv : MadeOf spelling ts v) (hw : MadeOf spelling ts w) :
    MadeOf spelling ts (v ++ w) := by
  intro d hd
  rcases List.mem_append.mp hd with hd | hd
  · obtain ⟨t, ht, u, r, hu, hmem, hsub⟩ := hv d hd
    exact ⟨t, ht, u, r, hu, hmem, List.subset_append_of_subset_left _ hsub⟩
  · obtain ⟨t, ht, u, r, hu, hmem, hsub⟩ := hw d hd
    exact ⟨t, ht, u, r, hu, hmem, List.subset_append_of_subset_right _ hsub⟩

/-- What a production derives is made up of its tokens. -/
theorem Production.Derives.exists_madeOf {a : Production} {c n : Cursor} {xs : List Node}
    (h : a.Derives spelling c xs n) : ∃ w, c.Over w n ∧ MadeOf spelling a.tokens w := by
  induction h with
  | empty => exact ⟨[], .refl _, madeOf_nil⟩
  | @token t w c n hw hover =>
    exact ⟨w, hover, fun d hd => ⟨t, List.mem_singleton_self t, w, _, hw, hd, fun _ => id⟩⟩
  | seq _ _ iha ihb =>
    obtain ⟨v, hv, hleft⟩ := iha
    obtain ⟨w, hw, hright⟩ := ihb
    exact ⟨v ++ w, hv.trans hw, (hleft.mono (List.subset_append_left _ _)).append
      (hright.mono (List.subset_append_right _ _))⟩
  | left _ ih =>
    obtain ⟨w, hw, hall⟩ := ih
    exact ⟨w, hw, hall.mono (List.subset_append_left _ _)⟩
  | right _ ih =>
    obtain ⟨w, hw, hall⟩ := ih
    exact ⟨w, hw, hall.mono (List.subset_append_right _ _)⟩
  | starNil => exact ⟨[], .refl _, madeOf_nil⟩
  | starCons _ _ iha ihs =>
    obtain ⟨v, hv, hleft⟩ := iha
    obtain ⟨w, hw, hright⟩ := ihs
    exact ⟨v ++ w, hv.trans hw, hleft.append hright⟩
  | node _ ih => exact ih

end

/-! ## Tokens of a type -/

namespace Production

/-- What a data type is derived from. -/
def typeParts : Production :=
  seqs [.token .identifier, option numbers, option (keyword .unsigned)]

private theorem eq_typeParts :
    ∀ p ∈ statement.parts, p.1 = .dataType → p.2 = .seq typeParts .empty := by
  decide +kernel

/-- The tokens of a data type are identifiers, marks, digits and the word `UNSIGNED`. -/
theorem mem_tokens_typeParts {t : Token} (ht : t ∈ typeParts.tokens) :
    t = .identifier ∨ (∃ m, t = .mark m) ∨ t = .digits ∨ t = .keyword .unsigned := by
  have htokens : typeParts.tokens = [.identifier, .mark .openParen, .digits, .mark .comma, .digits,
      .mark .closeParen, .keyword .unsigned] := rfl
  rw [htokens] at ht
  simp only [List.mem_cons, List.not_mem_nil, or_false] at ht
  rcases ht with rfl | rfl | rfl | rfl | rfl | rfl | rfl <;> simp

end Production

/-- A token of a data type that has a colon in it is a quoted name. -/
theorem backQuote_mem_of_colon {t : Token} {v r : List Char} (ht : t ∈ Production.typeParts.tokens)
    (h : t.Read v r) (hcolon : ':' ∈ v) : Text.backQuote ∈ v := by
  have hgap : ∀ {g : List Char}, Gap g → ':' ∉ g := fun hg => hg.notMem rfl
  rcases Production.mem_tokens_typeParts ht with rfl | ⟨m, rfl⟩ | rfl | rfl
  · cases h.spelled nofun with
    | quotedName hg hw =>
      obtain ⟨q, -, -, rfl⟩ := hw
      exact List.mem_append_right _ List.mem_cons_self
    | bareName hg hw => exact absurd hcolon (List.not_mem_append (hgap hg) (hw.notMem rfl))
  · cases h.spelled nofun with
    | mark hg =>
      have hmark : ':' ∉ [m.char] := by cases m <;> decide
      exact absurd hcolon (List.not_mem_append (hgap hg) hmark)
  · cases h.spelled nofun with
    | digits hg hw =>
      have hdigits : ':' ∉ _ := fun hmem => absurd (hw.2 _ hmem) (by decide)
      exact absurd hcolon (List.not_mem_append (hgap hg) hdigits)
  · cases h.spelled nofun with
    | keyword hg hw =>
      exact absurd hcolon
        (List.not_mem_append (hgap hg) ((Keyword.isWord_of_lower hw).notMem rfl))

/-! ## Texts of types -/

variable {s : String}

/-- The text of a data type is trimmed, and without a quoted name it has no colon. -/
theorem IsTypeText.isTrimmed_and (h : IsTypeText s) : Text.IsTrimmed s.toList ∧ ':' ∉ s.toList := by
  obtain ⟨hquote, text, tree, u, htree, hu, hrule, rfl⟩ := h
  obtain ⟨n, hd⟩ := ofText?_eq_ok_iff_derives.mp htree
  obtain ⟨⟨r, a⟩, hp, c, m, xs, -, -, rfl, hpart, -⟩ :=
    hd.exists_part (List.mem_singleton_self _) hu
  obtain rfl : a = .seq Production.typeParts .empty := Production.eq_typeParts _ hp hrule
  obtain ⟨ys, _, zs, rfl, htype, hend⟩ := Production.derives_seq.mp hpart
  obtain ⟨rfl, rfl⟩ := Production.derives_empty.mp hend
  obtain ⟨w, hover, hchars⟩ := htype.exists_madeOf
  have htext : (span r c m (ys ++ [])).text.toList = Text.trim w := by
    show (String.ofList (Text.trim (c.upTo m))).toList = _
    rw [hover.upTo_eq, String.toList_ofList]
  rw [htext] at hquote ⊢
  refine ⟨Text.isTrimmed_trim w, fun hcolon => hquote ?_⟩
  obtain ⟨t, ht, v, r', hv, hmem, hsub⟩ := hchars _ ((Text.trim_sublist w).subset hcolon)
  exact Text.mem_trim_of_mem (hsub (backQuote_mem_of_colon ht hv hmem)) (by decide)

end AlterTable.Grammar
