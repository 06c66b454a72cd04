import AlterTable.Proofs.Grammar.Lookahead

/-!
# How derivations end

A Kelvin sign can stand for the keyword `KEY` only at the end of the text, so it is the last token
there. `Production.closings` lists the tokens that may stand right before a last `KEY`: a derivation
is one of the grammar as it is written, or the text ends with one of these and a Kelvin sign. They
are `PRIMARY` and `UNIQUE`, so what is read differs from the grammar in two ways, and no text is
concerned by both: such a sign is no name there, and behind `DROP` it is one but is not read.
-/

namespace AlterTable.Grammar

open AlterTable.Parse

/-! ## What stands before the sign -/

/-- The last letter in front of a Kelvin sign at the end is that of the keyword. -/
theorem KelvinAfter.lastLetter {k : Keyword} {s : List Char} (h : KelvinAfter k s) :
    (s.dropLast.reverse.dropWhile isGap).head?.map Char.toLower = k.letters.getLast? := by
  obtain ⟨u, w, g, rfl, hw, hg, -⟩ := h
  have hword := Keyword.isWord_of_lower hw
  obtain ⟨v, d, rfl⟩ := (List.eq_nil_or_concat w).resolve_left hword.1
  have hd : isGap d = false := not_isGap_of_isIdentifierChar (hword.2 d (by simp))
  have hsplit : (u ++ (v.concat d ++ (g ++ [kelvinSign]))).dropLast.reverse =
      g.reverse ++ d :: (v.reverse ++ u.reverse) := by
    rw [← List.append_assoc, ← List.append_assoc, List.dropLast_concat]
    simp
  have hgap : ∀ c ∈ g.reverse, isGap c = true := fun c hc => hg c (List.mem_reverse.mp hc)
  rw [hsplit, List.dropWhile_append_of_pos hgap, ← hw]
  simp [hd, Text.lower]

/-- A text that ends with `DROP` and a Kelvin sign does not end with `PRIMARY` or `UNIQUE` and
one. -/
theorem KelvinAfter.not_drop {k : Keyword} {s : List Char} (h : KelvinAfter k s)
    (hk : k ∈ [Keyword.primary, .unique]) : ¬ KelvinAfter .drop s := by
  intro hdrop
  have hsame := h.lastLetter.symm.trans hdrop.lastLetter
  have hall : ∀ k ∈ [Keyword.primary, .unique],
      k.letters.getLast? ≠ Keyword.drop.letters.getLast? := by
    decide
  exact hall k hk hsame

/-- A token is read where it is accepted, if the text does not end with `DROP` and a Kelvin sign. -/
theorem Token.Accepted.read {t : Token} {c m : Cursor} {u w : List Char}
    (h : t.Accepted w m.rest) (hover : c.Over (u ++ w) m) (hc : ¬ KelvinAfter .drop c.rest) :
    t.Read w m.rest := by
  refine ⟨h, ?_⟩
  rintro rfl hsign
  refine hc ?_
  rw [hover.rest, List.append_assoc]
  exact (h.spelled nofun).kelvinAfter hsign u

namespace Production

/-! ## Last tokens -/

/-- The production derives the keyword `KEY` alone. -/
def mayBeKey : Production → Bool
  | never => false
  | empty => false
  | token t => t == .keyword .key
  | seq a b => (a.mayBeKey && b.nullable) || (a.nullable && b.mayBeKey)
  | alt a b => a.mayBeKey || b.mayBeKey
  | star a => a.mayBeKey
  | node _ a => a.mayBeKey

/-- The tokens that may come last in what is derived. -/
def lasts : Production → List Token
  | never => []
  | empty => []
  | token t => [t]
  | seq a b => b.lasts ++ if b.nullable then a.lasts else []
  | alt a b => a.lasts ++ b.lasts
  | star a => a.lasts
  | node _ a => a.lasts

/-- The tokens that may stand before a `KEY` that comes last in what is derived. -/
def closings : Production → List Token
  | never => []
  | empty => []
  | token _ => []
  | seq a b => b.closings ++ ((if b.mayBeKey then a.lasts else []) ++
      if b.nullable then a.closings else [])
  | alt a b => a.closings ++ b.closings
  | star a => a.closings ++ if a.mayBeKey then a.lasts else []
  | node _ a => a.closings

variable {spelling : Token → List Char → List Char → Prop}
variable {a b : Production} {c m n : Cursor} {xs : List Node} {t : Token}

/-- A derivation ends with one of its last tokens, if it has any token. -/
theorem Derives.last (h : Derives spelling a c xs n) : (a.nullable = true ∧ n = c) ∨
    ∃ t ∈ a.lasts, ∃ m v w, c.Over v m ∧ m.Over w n ∧ spelling t w n.rest := by
  induction h with
  | empty => exact .inl ⟨rfl, rfl⟩
  | token hw hover =>
    exact .inr ⟨_, List.mem_singleton_self _, _, [], _, .refl _, hover, hw⟩
  | seq ha _ iha ihb =>
    rcases ihb with ⟨hnull, rfl⟩ | ⟨t, ht, m, v, w, hv, hw, hspelled⟩
    · rcases iha with ⟨hnull', rfl⟩ | ⟨t, ht, hends⟩
      · exact .inl ⟨by rw [nullable, hnull, hnull']; rfl, rfl⟩
      · refine .inr ⟨t, List.mem_append_right _ ?_, hends⟩
        rwa [if_pos hnull]
    · obtain ⟨u, hu⟩ := ha.over
      exact .inr ⟨t, List.mem_append_left _ ht, m, _, w, hu.trans hv, hw, hspelled⟩
  | left _ ih =>
    rcases ih with ⟨hnull, rfl⟩ | ⟨t, ht, hends⟩
    · exact .inl ⟨by rw [nullable, hnull]; rfl, rfl⟩
    · exact .inr ⟨t, List.mem_append_left _ ht, hends⟩
  | right _ ih =>
    rcases ih with ⟨hnull, rfl⟩ | ⟨t, ht, hends⟩
    · exact .inl ⟨by rw [nullable, hnull, Bool.or_true], rfl⟩
    · exact .inr ⟨t, List.mem_append_right _ ht, hends⟩
  | starNil => exact .inl ⟨rfl, rfl⟩
  | starCons ha _ iha ihs =>
    rcases ihs with ⟨-, rfl⟩ | ⟨t, ht, m, v, w, hv, hw, hspelled⟩
    · rcases iha with ⟨-, rfl⟩ | ⟨t, ht, hends⟩
      · exact .inl ⟨rfl, rfl⟩
      · exact .inr ⟨t, ht, hends⟩
    · obtain ⟨u, hu⟩ := ha.over
      exact .inr ⟨t, ht, m, _, w, hu.trans hv, hw, hspelled⟩
  | node _ ih => exact ih

/-! ## Kelvin signs at the end -/

/-- The text ends with one of the tokens, white space and a Kelvin sign. -/
def SignAfter (ts : List Token) (c : Cursor) : Prop :=
  ∃ t ∈ ts, ∃ u w m, c.Over (u ++ w) m ∧ t.Accepted w m.rest ∧ IsLoneSign m.rest

private theorem SignAfter.mono {ts ts' : List Token} (h : SignAfter ts c) (hsub : ts ⊆ ts') :
    SignAfter ts' c := by
  obtain ⟨t, ht, hsign⟩ := h
  exact ⟨t, hsub ht, hsign⟩

private theorem SignAfter.over {ts : List Token} {v : List Char} (h : SignAfter ts m)
    (hover : c.Over v m) : SignAfter ts c := by
  obtain ⟨t, ht, u, w, m', huw, hw, hsign⟩ := h
  refine ⟨t, ht, v ++ u, w, m', ?_, hw, hsign⟩
  rw [List.append_assoc]
  exact hover.trans huw

/-- A sign that is left behind a derivation comes after a last token, or first. -/
theorem Derives.signAfter (h : Derives Token.Accepted a c xs m) (hsign : IsLoneSign m.rest) :
    (a.nullable = true ∧ IsLoneSign c.rest) ∨ SignAfter a.lasts c := by
  rcases h.last with ⟨hnull, rfl⟩ | ⟨t, ht, m', v, w, hv, hw, hspelled⟩
  · exact .inl ⟨hnull, hsign⟩
  · exact .inr ⟨t, ht, v, w, m, hv.trans hw, hspelled, hsign⟩

/-- From an empty text only what is nullable is derived. -/
theorem Derives.of_nil (h : Derives Token.Accepted a c xs n) (hc : c.rest = []) :
    a.nullable = true ∧ n.rest = [] := by
  constructor
  · cases ha : a.nullable with
    | true => rfl
    | false =>
      have hlt := h.length_lt ha
      rw [hc] at hlt
      cases hlt
  · have hle := h.length_le
    rw [hc] at hle
    exact List.eq_nil_of_length_eq_zero (Nat.le_zero.mp hle)

/-- The derivation ends with a Kelvin sign that was taken for `KEY`: the sign is all that is
derived, or it stands behind one of the tokens that may come before it. -/
def EndsWithSign (a : Production) (c n : Cursor) : Prop :=
  n.rest = [] ∧ ((a.mayBeKey = true ∧ IsLoneSign c.rest) ∨ SignAfter a.closings c)

/-- A sequence ends with the sign if its second part does. -/
theorem EndsWithSign.behind (ha : Derives Token.Accepted a c xs m) (hb : b.EndsWithSign m n) :
    (seq a b).EndsWithSign c n := by
  obtain ⟨hn, ⟨hkey, hm⟩ | hafter⟩ := hb
  · refine ⟨hn, ?_⟩
    rcases ha.signAfter hm with ⟨hnull, hc⟩ | hafter
    · exact .inl ⟨by rw [mayBeKey, hnull, hkey, Bool.and_self, Bool.or_true], hc⟩
    · refine .inr (hafter.mono fun t ht => ?_)
      refine List.mem_append_right _ (List.mem_append_left _ ?_)
      rwa [if_pos hkey]
  · obtain ⟨v, hv⟩ := ha.over
    exact ⟨hn, .inr ((hafter.over hv).mono (List.subset_append_left _ _))⟩

/-- Behind the sign nothing is left, so a sequence whose first part ends with it ends there. -/
theorem EndsWithSign.before (ha : a.EndsWithSign c m) (hb : Derives Token.Accepted b m xs n) :
    (seq a b).EndsWithSign c n := by
  obtain ⟨hm, hsign⟩ := ha
  obtain ⟨hnull, hn⟩ := hb.of_nil hm
  refine ⟨hn, ?_⟩
  rcases hsign with ⟨hkey, hc⟩ | hafter
  · exact .inl ⟨by rw [mayBeKey, hkey, hnull]; rfl, hc⟩
  · refine .inr (hafter.mono fun t ht => ?_)
    refine List.mem_append_right _ (List.mem_append_right _ ?_)
    rwa [if_pos hnull]

/-- A repetition ends with the sign if what follows its first element does. -/
theorem EndsWithSign.star_behind (ha : Derives Token.Accepted a c xs m)
    (hs : (star a).EndsWithSign m n) : (star a).EndsWithSign c n := by
  obtain ⟨hn, ⟨hkey, hm⟩ | hafter⟩ := hs
  · refine ⟨hn, ?_⟩
    rcases ha.signAfter hm with ⟨-, hc⟩ | hafter
    · exact .inl ⟨hkey, hc⟩
    · refine .inr (hafter.mono fun t ht => List.mem_append_right _ ?_)
      have hkey' : a.mayBeKey = true := hkey
      rwa [if_pos hkey']
  · obtain ⟨v, hv⟩ := ha.over
    exact ⟨hn, .inr (hafter.over hv)⟩

/-- A repetition whose first element ends with the sign ends there. -/
theorem EndsWithSign.star_before (ha : a.EndsWithSign c m)
    (hs : Derives Token.Accepted (star a) m xs n) : (star a).EndsWithSign c n := by
  obtain ⟨hm, hsign⟩ := ha
  obtain ⟨-, hn⟩ := hs.of_nil hm
  refine ⟨hn, ?_⟩
  rcases hsign with hkey | hafter
  · exact .inl hkey
  · exact .inr (hafter.mono (List.subset_append_left _ _))

/-- An alternative ends with the sign if its left side does. -/
theorem EndsWithSign.left (ha : a.EndsWithSign c n) : (alt a b).EndsWithSign c n := by
  obtain ⟨hn, ⟨hkey, hc⟩ | hafter⟩ := ha
  · exact ⟨hn, .inl ⟨by rw [mayBeKey, hkey]; rfl, hc⟩⟩
  · exact ⟨hn, .inr (hafter.mono (List.subset_append_left _ _))⟩

/-- An alternative ends with the sign if its right side does. -/
theorem EndsWithSign.right (hb : b.EndsWithSign c n) : (alt a b).EndsWithSign c n := by
  obtain ⟨hn, ⟨hkey, hc⟩ | hafter⟩ := hb
  · exact ⟨hn, .inl ⟨by rw [mayBeKey, hkey, Bool.or_true], hc⟩⟩
  · exact ⟨hn, .inr (hafter.mono (List.subset_append_right _ _))⟩

/-- A derivation spells its tokens as the grammar has them, or ends with a Kelvin sign for `KEY`. -/
theorem Derives.spelled_or_sign (hsub : ∀ {t w r}, spelling t w r → t.Accepted w r)
    (h : Derives spelling a c xs n) :
    Derives (fun t w r => t.Spelled w r ∧ spelling t w r) a c xs n ∨ a.EndsWithSign c n := by
  have haccepted : ∀ {a c xs n}, Derives spelling a c xs n → Derives Token.Accepted a c xs n :=
    fun hd => hd.mono fun _ _ _ _ _ _ hw => hsub hw
  induction h with
  | empty => exact .inl .empty
  | token hw hover =>
    rcases hsub hw with hspelled | ⟨rfl, hr, hsign⟩
    · exact .inl (.token ⟨hspelled, hw⟩ hover)
    · refine .inr ⟨hr, .inl ⟨rfl, ?_⟩⟩
      rwa [hover.rest, hr, List.append_nil]
  | seq ha hb iha ihb =>
    rcases iha with hda | hsign
    · rcases ihb with hdb | hsign
      · exact .inl (.seq hda hdb)
      · exact .inr (.behind (haccepted ha) hsign)
    · exact .inr (hsign.before (haccepted hb))
  | left _ ih => exact ih.imp .left .left
  | right _ ih => exact ih.imp .right .right
  | starNil => exact .inl .starNil
  | starCons ha hs iha ihs =>
    rcases iha with hda | hsign
    · rcases ihs with hds | hsign
      · exact .inl (.starCons hda hds)
      · exact .inr (.star_behind (haccepted ha) hsign)
    · exact .inr (hsign.star_before (haccepted hs))
  | node _ ih => exact ih.imp .node id

/-- A keyword before a Kelvin sign is the end of the text but for that. -/
theorem SignAfter.kelvinAfter {ks : List Keyword} (hks : .key ∉ ks)
    (h : SignAfter (ks.map .keyword) c) : ∃ k ∈ ks, KelvinAfter k c.rest := by
  obtain ⟨t, ht, u, w, m, hover, hw, hm⟩ := h
  obtain ⟨k, hk, rfl⟩ := List.mem_map.mp ht
  have hspelled := hw.spelled fun heq => hks (Token.keyword.inj heq ▸ hk)
  refine ⟨k, hk, ?_⟩
  rw [hover.rest, List.append_assoc]
  exact hspelled.kelvinAfter hm u

/-! ## Statements -/

/-- Only `PRIMARY` and `UNIQUE` may stand before a `KEY` that ends a statement. -/
theorem closings_statement :
    statement.closings ⊆ [Keyword.primary, .unique].map .keyword := by
  decide

/-- A statement spells its tokens as the grammar has them, unless a Kelvin sign stands behind
`PRIMARY` or `UNIQUE` at the end of the text. -/
theorem Derives.spelled_statement (hsub : ∀ {t w r}, spelling t w r → t.Accepted w r)
    (h : Derives spelling statement c xs n)
    (hno : ∀ k ∈ [Keyword.primary, .unique], ¬ KelvinAfter k c.rest) :
    Derives (fun t w r => t.Spelled w r ∧ spelling t w r) statement c xs n := by
  have hkey : statement.mayBeKey = false := by decide
  rcases h.spelled_or_sign hsub with hd | ⟨-, ⟨hkey', -⟩ | hafter⟩
  · exact hd
  · rw [hkey] at hkey'
    cases hkey'
  · obtain ⟨k, hk, hkelvin⟩ := (hafter.mono closings_statement).kelvinAfter (by decide)
    exact absurd hkelvin (hno k hk)

variable {s : List Char}

/-- What is derivable stays so if tokens have more spellings. -/
theorem Derivable.mono {spelling' : Token → List Char → List Char → Prop}
    (h : Derivable spelling s) (hsub : ∀ {t w r}, spelling t w r → spelling' t w r) :
    Derivable spelling' s := by
  obtain ⟨xs, n, hd⟩ := h
  exact ⟨xs, n, hd.mono fun _ _ _ _ _ _ hw => hsub hw⟩

/-- What is a statement in the liberal spelling is one as it is read or as the grammar has it. -/
theorem Derivable.read_or_spelled (h : Derivable Token.Accepted s) :
    Derivable Token.Read s ∨ Derivable Token.Spelled s := by
  obtain ⟨xs, n, hd⟩ := h
  by_cases hdrop : KelvinAfter .drop s
  · right
    have hspelled := hd.spelled_statement id fun k hk hkelvin => hkelvin.not_drop hk hdrop
    exact ⟨xs, n, hspelled.mono fun _ _ _ _ _ _ hw => hw.1⟩
  · left
    exact ⟨xs, n, hd.mono fun _ _ _ _ _ hover hw => hw.read hover hdrop⟩

/-- What is a statement as it is read and as the grammar has it is one in the plain spelling. -/
theorem Derivable.plain (hread : Derivable Token.Read s) (hspelled : Derivable Token.Spelled s) :
    Derivable Token.Plain s := by
  by_cases hdrop : KelvinAfter .drop s
  · obtain ⟨xs, n, hd⟩ := hread
    exact ⟨xs, n, hd.spelled_statement (·.1) fun k hk hkelvin => hkelvin.not_drop hk hdrop⟩
  · obtain ⟨xs, n, hd⟩ := hspelled
    exact ⟨xs, n, hd.mono fun _ _ _ _ _ hover hw => ⟨hw, hw.accepted.read hover hdrop⟩⟩

/-- A misleading text ends with a Kelvin sign behind one of three keywords. -/
theorem Misleading.exists_kelvinAfter (h : Misleading s) :
    ∃ k ∈ [Keyword.drop, .primary, .unique], KelvinAfter k s := by
  obtain ⟨⟨xs, n, hd⟩, hplain⟩ := h
  refine Classical.byContradiction fun hno => hplain ?_
  have hnone : ∀ k ∈ [Keyword.drop, .primary, .unique], ¬ KelvinAfter k s :=
    fun k hk hkelvin => hno ⟨k, hk, hkelvin⟩
  have hspelled := hd.spelled_statement id fun k hk => hnone k (List.mem_cons_of_mem _ hk)
  exact ⟨xs, n, hspelled.mono fun _ _ _ _ _ hover hw =>
    ⟨hw.1, hw.2.read hover (hnone .drop List.mem_cons_self)⟩⟩

end Production

end AlterTable.Grammar
