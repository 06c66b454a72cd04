import AlterTable.Proofs.Grammar.Relocation

/-!
# Clauses exclude each other

A specification tries its clauses in a fixed order, and some of them commit to what they have begun
to read. Neither matters where the text has no Kelvin sign in it (`specification_eq_done_iff`): what
one clause reads no other does, the clauses tried before it are refused and not fatal, and so a
specification reads it as that clause.

What tells clauses apart are their first words and the lead behind these. A clause that is read is
derived, so it has such a beginning, and the clauses tried before it yield to any beginning that is
not their own (`Opens.precludes`).
-/

namespace AlterTable.Grammar

open AlterTable.Parse
open AlterTable.Parse.Parser

variable {α : Type} {c n : Cursor} {p q : Parser Node} {a b : Production} {o o' : Opening}

/-- The parser reads something from the place on. -/
def Succeeds (p : Parser α) (c : Cursor) : Prop :=
  ∃ a n, p c = .done a n

/-- The parser refuses the place wherever the other one reads something. -/
def YieldsTo (c : Cursor) (p q : Parser α) : Prop :=
  Succeeds q c → ∃ t, p c = .refused t

/-- Of two parsers that yield one to the other at most one reads. -/
theorem YieldsTo.not_both {p q : Parser α} (h : YieldsTo c p q) :
    ¬ (Succeeds p c ∧ Succeeds q c) := by
  rintro ⟨⟨a, n, hp⟩, hq⟩
  obtain ⟨t, ht⟩ := h hq
  rw [ht] at hp
  cases hp

/-! ## Choices -/

/-- Alternatives that yield to the later ones are as good as each other, whichever is tried first.
-/
theorem choice_eq_done_iff {ps : List (Parser α)} {v : α} (h : ps.Pairwise (YieldsTo c)) :
    choice ps c = .done v n ↔ ∃ p ∈ ps, p c = .done v n := by
  refine ⟨exists_of_choiceAfter, ?_⟩
  have hafter : ∀ last, (∃ p ∈ ps, p c = .done v n) → choiceAfter last ps c = .done v n := by
    induction ps with
    | nil => exact fun _ ⟨p, hp, _⟩ => absurd hp List.not_mem_nil
    | cons q qs ih =>
      obtain ⟨hyields, hqs⟩ := List.pairwise_cons.mp h
      rintro last ⟨p, hp, hdone⟩
      rcases List.mem_cons.mp hp with rfl | hp
      · exact choiceAfter_of_done hdone last
      · obtain ⟨t, ht⟩ := hyields p hp ⟨v, n, hdone⟩
        rw [choiceAfter_of_refused ht]
        exact ih hqs t ⟨p, hp, hdone⟩
  exact hafter []

/-! ## Clauses -/

/-- The clauses, in the order in which a specification tries them. -/
def alternatives : List (Parser Node) :=
  [addIndex, addConstraint, addColumn, dropPrimaryKey, dropIndex, dropColumn, renameIndex,
    changeColumn, modifyColumn]

private theorem map_clauses : clauses.map (·.1.1) = alternatives := rfl

private theorem specification_eq :
    specification = named "alter specification" (choice alternatives) := rfl

/-- Giving a part its name for the sake of traces does not change what is read. -/
theorem named_eq_done_iff {s : String} {p : Parser α} {v : α} :
    named s p c = .done v n ↔ p c = .done v n := by
  unfold named
  cases p c with
  | done w m => rfl
  | refused t => exact ⟨nofun, nofun⟩
  | fatal t => exact ⟨nofun, nofun⟩

/-- Without a Kelvin sign none is dropped. -/
theorem noSignDropped_of_notMem (h : kelvinSign ∉ c.rest) : NoSignDropped c := by
  intro w m hover _
  refine not_isLoneSign fun hm => h ?_
  rw [hover.rest]
  exact List.mem_append_right w hm

/-- What a clause reads begins as the clause does, and so a clause with another beginning that is
tried first is refused. -/
theorem Opens.yieldsTo (hp : Opens p a o) (hq : Opens q b o') (h : o.Before o')
    (hc : NoSignDropped c) : YieldsTo c p q := by
  rintro ⟨t, n, hdone⟩
  obtain ⟨ys, -, hd⟩ := hq.reads.derives hdone
  exact hp.precludes hq h (hq.read hc hd)

/-- Of two clause parsers the earlier one yields to the later one. -/
theorem pairwise_yieldsTo_alternatives (hc : NoSignDropped c) :
    alternatives.Pairwise (YieldsTo c) := by
  rw [← map_clauses]
  refine List.pairwise_map.mpr (pairwise_before_clauses.imp_of_mem fun hx hy hxy => ?_)
  exact (opens_of_mem_clauses hx).yieldsTo (opens_of_mem_clauses hy) hxy hc

/-- At most one clause reads anything in a text without a Kelvin sign, the clauses tried before it
are refused, and what it reads is what a specification reads. -/
theorem specification_eq_done_iff (hc : kelvinSign ∉ c.rest) :
    (alternatives.Pairwise fun p q => ¬ (Succeeds p c ∧ Succeeds q c)) ∧
      (alternatives.Pairwise fun p q => Succeeds q c → ∃ t, p c = .refused t) ∧
      ∀ t n, specification c = .done t n ↔ ∃ p ∈ alternatives, p c = .done t n := by
  have hyields := pairwise_yieldsTo_alternatives (noSignDropped_of_notMem hc)
  refine ⟨hyields.imp YieldsTo.not_both, hyields, fun t n => ?_⟩
  rw [specification_eq, named_eq_done_iff, choice_eq_done_iff hyields]

/-- An index whose name begins like a keyword, and another clause behind it. -/
def keyDropped : Cursor :=
  .ofText "DROP KEY column_a, DROP b".toList

/-- In front of a dropped index the parser of clauses takes the clause that drops an index. -/
theorem specification_eq_done_iff_keyDropped : kelvinSign ∉ keyDropped.rest ∧
    ∃ t n, dropIndex keyDropped = .done t n ∧ specification keyDropped = .done t n := by
  have hplain : kelvinSign ∉ keyDropped.rest := by decide
  obtain ⟨t, n, hread⟩ : ∃ t n, dropIndex keyDropped = .done t n := ⟨_, _, rfl⟩
  exact ⟨hplain, t, n, hread, ((specification_eq_done_iff hplain).2.2 t n).mpr
    ⟨dropIndex, by simp [alternatives], hread⟩⟩

end AlterTable.Grammar
