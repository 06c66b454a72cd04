import AlterTable.Proofs.Grammar.Word

/-!
# Keywords are recognised exactly

A keyword is read where it stands, with white space before it, in any letter case, and with no
identifier character behind it; what follows it is left as it is. There is one exception
(`keyword_exact_iff`): where nothing but white space and a Kelvin sign is left of the text, the sign
is taken for `KEY`, although it is a name.
-/

namespace AlterTable.Grammar

open AlterTable.Parse

variable {c n : Cursor} {k : Keyword} {g w r : List Char}

/-- From the one place to the other stand white space and the keyword in any letter case, and no
identifier character comes next. -/
def Keyword.Between (k : Keyword) (c n : Cursor) : Prop :=
  ∃ g w, c.Over (g ++ w) n ∧ Gap g ∧ Text.lower w = k.letters ∧ Ends n.rest

private theorem Keyword.between_iff :
    k.Between c n ↔ ∃ w, Token.Spelled (.keyword k) w n.rest ∧ c.Over w n := by
  constructor
  · rintro ⟨g, w, hover, hg, hlower, hends⟩
    exact ⟨g ++ w, .keyword hg hlower hends, hover⟩
  · rintro ⟨w, hw, hover⟩
    cases hw with
    | keyword hg hlower hends => exact ⟨_, _, hover, hg, hlower, hends⟩

/-- What begins with a keyword has it for its lead. -/
theorem Keyword.Between.lead_eq (h : k.Between c n) : lead c.rest = .keyword k := by
  obtain ⟨w, hw, hover⟩ := between_iff.mp h
  rw [hover.rest]
  exact hw.lead_keyword

/-- A keyword is read where it stands and, at the very end, where a Kelvin sign is taken for it. -/
theorem keyword_eq_done_iff : keyword k c = .done () n ↔
    k.Between c n ∨ (k = .key ∧ IsLoneSign c.rest ∧ c.Over c.rest n) := by
  constructor
  · intro h
    have hreads : Reads (keyword k) [] (Production.keyword k) [] := reads_keyword k
    obtain ⟨ys, -, hd⟩ := hreads.derives h
    obtain ⟨-, w, hw | ⟨hkey, hend, hsign⟩, hover⟩ := Production.derives_token.mp hd
    · exact .inl (Keyword.between_iff.mpr ⟨w, hw, hover⟩)
    · have hrest : c.rest = w := by rw [hover.rest, hend, List.append_nil]
      rw [← hrest] at hsign hover
      exact .inr ⟨Token.keyword.inj hkey, hsign, hover⟩
  · rintro (hbetween | ⟨rfl, hsign, hover⟩)
    · obtain ⟨w, hw, hover⟩ := Keyword.between_iff.mp hbetween
      exact keyword_done hw.accepted hover
    · have hend : n.rest = [] := List.append_right_eq_self.mp hover.rest.symm
      exact keyword_done (.inr ⟨rfl, hend, hsign⟩) hover

/-- The place behind the rest of the text. -/
theorem exists_over_rest (c : Cursor) : ∃ n, c.Over c.rest n := by
  have h := c.over_advance c.rest.length
  rw [List.take_length] at h
  exact ⟨_, h⟩

/-- A keyword is refused just where it is not read. -/
theorem exists_refused_keyword_iff :
    (∃ t, keyword k c = .refused t) ↔ ∀ n, keyword k c ≠ .done () n := by
  constructor
  · rintro ⟨t, ht⟩ n hn
    rw [ht] at hn
    cases hn
  · exact fun h => exists_refused (fun _ n => h n) keyword_ne_fatal

/-! ## Words -/

private theorem wordLead_ne_kelvin (w : List Char) : wordLead w ≠ .kelvin := by
  unfold wordLead
  split
  · exact nofun
  · split <;> exact nofun

/-- What a word behind white space is taken for: only a Kelvin sign that ends the text is no word.
-/
theorem lead_behind_gap (hg : Gap g) (hw : IsWord w) (hr : Ends r) :
    lead (g ++ (w ++ r)) = if w = [kelvinSign] ∧ r = [] then .kelvin else wordLead w := by
  rw [lead_gap_append hg]
  split
  next hsign =>
    obtain ⟨rfl, rfl⟩ := hsign
    rfl
  next hsign => exact lead_word hw hr hsign

/-! ## Exactness -/

/-- A keyword is read exactly where it stands, unless it is `KEY` and nothing but a Kelvin sign is
left of the text, of which the sign is taken for it. So no other word is ever taken for a keyword.
-/
theorem keyword_exact_iff (k : Keyword) (c : Cursor) :
    ((∀ n, keyword k c = .done () n ↔ k.Between c n) ↔ ¬ (k = .key ∧ IsLoneSign c.rest)) ∧
      (∀ n, keyword k c = .done () n ↔
        k.Between c n ∨ (k = .key ∧ IsLoneSign c.rest ∧ c.Over c.rest n)) ∧
      ∀ g w r, c.rest = g ++ (w ++ r) → Gap g → IsWord w → Ends r → Text.lower w ≠ k.letters →
        ((∃ t, keyword k c = .refused t) ↔ ¬ (k = .key ∧ w = [kelvinSign] ∧ r = [])) := by
  refine ⟨?_, fun n => keyword_eq_done_iff, fun g w r hsplit hg hw hr hother => ?_⟩
  · constructor
    · rintro hexact ⟨rfl, hsign⟩
      obtain ⟨n, hover⟩ := exists_over_rest c
      have hbetween := (hexact n).mp (keyword_eq_done_iff.mpr (.inr ⟨rfl, hsign, hover⟩))
      have hlead := hbetween.lead_eq
      rw [lead_eq_kelvin_iff.mpr hsign] at hlead
      cases hlead
    · intro hno n
      rw [keyword_eq_done_iff, or_iff_left]
      exact fun ⟨hkey, hsign, _⟩ => hno ⟨hkey, hsign⟩
  · have hlead := lead_behind_gap hg hw hr
    rw [← hsplit] at hlead
    rw [exists_refused_keyword_iff]
    constructor
    · rintro hrefused ⟨rfl, hsign⟩
      rw [if_pos hsign] at hlead
      obtain ⟨n, hover⟩ := exists_over_rest c
      exact hrefused n
        (keyword_eq_done_iff.mpr (.inr ⟨rfl, lead_eq_kelvin_iff.mp hlead, hover⟩))
    · intro hno n hn
      rcases keyword_eq_done_iff.mp hn with hbetween | ⟨rfl, hsign, -⟩
      · rw [hbetween.lead_eq] at hlead
        split at hlead
        · cases hlead
        · exact hother (wordLead_eq_keyword_iff.mp hlead.symm)
      · rw [lead_eq_kelvin_iff.mpr hsign, if_neg fun h => hno ⟨rfl, h⟩] at hlead
        exact wordLead_ne_kelvin w hlead.symm

/-- A letter that is not an ASCII one goes on with the word. -/
theorem keyword_exact_iff_accented : Text.lower "FIRST\u00e9".toList ≠ Keyword.first.letters ∧
    ∃ t, keyword .first (.ofText " FIRST\u00e9 INT".toList) = .refused t :=
  ⟨by decide, ((keyword_exact_iff .first _).2.2 " ".toList "FIRST\u00e9".toList " INT".toList rfl
    gap_blank (by decide) rfl (by decide)).mpr nofun⟩

/-- A Kelvin sign at the end of the text is taken for `KEY` where none stands. -/
theorem key_kelvinSign : ∃ n, keyword .key (.ofText " \u212a".toList) = .done () n ∧
    ¬ Keyword.key.Between (.ofText " \u212a".toList) n := by
  refine ⟨⟨4, []⟩, rfl, ?_⟩
  intro h
  have hlead := h.lead_eq
  revert hlead
  decide

end AlterTable.Grammar
