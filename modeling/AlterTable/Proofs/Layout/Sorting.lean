import AlterTable.Layout
import Mathlib.Data.List.Nodup

/-!
# The order of moves

Moves are given in some order and made in the order in which they are written.
-/

namespace AlterTable.Move

/-!
## Moves in written order

The moves in written order are the moves given, sorted by their offsets and stably: moves of one
offset stand in the order in which they were given. No other list is that. Where offsets are
distinct, the written order does not depend on the order given.
-/

variable {moves sorted sorted' : List Move} {m : Move} {offset : Nat}

/-- The moves of one offset. -/
def atOffset (moves : List Move) (offset : Nat) : List Move :=
  moves.filter fun m => m.offset = offset

/-- The list holds the moves in the order of their offsets, and those of one offset as given. -/
structure StablySorted (moves sorted : List Move) : Prop where
  perm : sorted.Perm moves
  ordered : sorted.Pairwise fun a b => a.offset ≤ b.offset
  stable : ∀ offset, atOffset sorted offset = atOffset moves offset

/-! ### Sorting -/

private theorem offset_trans (a b c : Move) (hab : decide (a.offset ≤ b.offset) = true)
    (hbc : decide (b.offset ≤ c.offset) = true) : decide (a.offset ≤ c.offset) = true := by
  simp only [decide_eq_true_eq] at hab hbc ⊢
  omega

private theorem offset_total (a b : Move) :
    (decide (a.offset ≤ b.offset) || decide (b.offset ≤ a.offset)) = true := by
  simp only [Bool.or_eq_true, decide_eq_true_eq]
  omega

/-- Moves in order have their offsets in order. -/
theorem inOrder_pairwise (moves : List Move) :
    (inOrder moves).Pairwise fun a b => a.offset ≤ b.offset :=
  (List.pairwise_mergeSort offset_trans offset_total moves).imp fun hab => by simpa using hab

/-- Sorting leaves the moves of one offset in the order given. -/
theorem atOffset_inOrder (moves : List Move) (offset : Nat) :
    atOffset (inOrder moves) offset = atOffset moves offset := by
  have hsame : (atOffset moves offset).Pairwise fun a b => decide (a.offset ≤ b.offset) = true := by
    refine List.pairwise_of_forall_mem_list fun a ha b hb => ?_
    have ha' := (List.mem_filter.mp ha).2
    have hb' := (List.mem_filter.mp hb).2
    simp only [decide_eq_true_eq] at ha' hb' ⊢
    omega
  have hkept : (atOffset moves offset).Sublist (inOrder moves) :=
    List.sublist_mergeSort offset_trans offset_total hsame List.filter_sublist
  have hboth : (atOffset moves offset).Sublist (atOffset (inOrder moves) offset) := by
    have h := hkept.filter fun m => decide (m.offset = offset)
    simpa only [atOffset, List.filter_filter, Bool.and_self] using h
  have hlength : (atOffset (inOrder moves) offset).length = (atOffset moves offset).length :=
    ((inOrder_perm moves).filter _).length_eq
  exact (hboth.eq_of_length hlength.symm).symm

/-- Moves in order are stably sorted. -/
theorem stablySorted_inOrder (moves : List Move) : StablySorted moves (inOrder moves) where
  perm := inOrder_perm moves
  ordered := inOrder_pairwise moves
  stable := atOffset_inOrder moves

/-! ### One order only -/

private theorem atOffset_cons_self (m : Move) (moves : List Move) :
    atOffset (m :: moves) m.offset = m :: atOffset moves m.offset :=
  List.filter_cons_of_pos (by simp)

/-- The first of sorted moves has the least of the offsets that there are. -/
theorem offset_le_of_atOffset (hordered : (m :: moves).Pairwise fun a b => a.offset ≤ b.offset)
    (hsome : atOffset (m :: moves) offset ≠ []) : m.offset ≤ offset := by
  obtain ⟨x, hx⟩ := List.exists_mem_of_ne_nil _ hsome
  obtain ⟨hmem, hoffset⟩ := List.mem_filter.mp hx
  simp only [decide_eq_true_eq] at hoffset
  rcases List.mem_cons.mp hmem with rfl | hmem
  · omega
  · have := (List.pairwise_cons.mp hordered).1 x hmem
    omega

/-- Sorted moves are told by the moves that they have at each offset. -/
theorem eq_of_atOffset (h : sorted.Pairwise fun a b => a.offset ≤ b.offset)
    (h' : sorted'.Pairwise fun a b => a.offset ≤ b.offset)
    (hsame : ∀ offset, atOffset sorted offset = atOffset sorted' offset) : sorted = sorted' := by
  induction sorted generalizing sorted' with
  | nil =>
    cases sorted' with
    | nil => rfl
    | cons m' rest' =>
      have hm' := hsame m'.offset
      rw [atOffset_cons_self] at hm'
      cases hm'
  | cons m rest ih =>
    cases sorted' with
    | nil =>
      have hm := hsame m.offset
      rw [atOffset_cons_self] at hm
      cases hm
    | cons m' rest' =>
      have hsome : atOffset (m :: rest) m'.offset ≠ [] := by
        rw [hsame, atOffset_cons_self]
        exact List.cons_ne_nil _ _
      have hsome' : atOffset (m' :: rest') m.offset ≠ [] := by
        rw [← hsame, atOffset_cons_self]
        exact List.cons_ne_nil _ _
      have hle := offset_le_of_atOffset h hsome
      have hge := offset_le_of_atOffset h' hsome'
      have hoffset : m.offset = m'.offset := by omega
      have hfirst := hsame m.offset
      rw [atOffset_cons_self, hoffset, atOffset_cons_self] at hfirst
      obtain ⟨rfl, -⟩ := List.cons.inj hfirst
      refine congrArg (m :: ·) (ih (List.pairwise_cons.mp h).2 (List.pairwise_cons.mp h').2 ?_)
      intro offset
      have hrest := hsame offset
      by_cases hm : m.offset = offset
      · subst hm
        rw [atOffset_cons_self, atOffset_cons_self] at hrest
        exact (List.cons.inj hrest).2
      · simpa only [atOffset, List.filter_cons, hm, decide_false, Bool.false_eq_true, if_false]
          using hrest

/-- Being stably sorted is being in written order. -/
theorem stablySorted_iff : StablySorted moves sorted ↔ inOrder moves = sorted := by
  constructor
  · intro h
    refine eq_of_atOffset (inOrder_pairwise moves) h.ordered fun offset => ?_
    rw [atOffset_inOrder, h.stable]
  · rintro rfl
    exact stablySorted_inOrder moves

/-- Moves of which one is written before the next one are in written order, however they are
found. -/
theorem inOrder_eq_of_perm {moves ordered : List Move} (hperm : moves.Perm ordered)
    (hordered : ordered.Pairwise (·.offset < ·.offset)) : inOrder moves = ordered := by
  -- Sorting is stable, but that is not needed: an offset stands for one move only.
  have hdistinct : ∀ a ∈ ordered, ∀ b ∈ ordered, a.offset = b.offset → a = b :=
    List.Pairwise.forall_of_forall_of_flip (fun _ _ _ => rfl)
      (hordered.imp fun h hab => absurd hab (Nat.ne_of_lt h))
      (hordered.imp fun h hba => absurd hba (Nat.ne_of_gt h))
  have hsame : (inOrder moves).Perm ordered := (inOrder_perm moves).trans hperm
  refine hsame.eq_of_pairwise (fun a b ha hb hab hba => ?_) (inOrder_pairwise moves)
    (hordered.imp fun h => Nat.le_of_lt h)
  exact hdistinct a (hsame.mem_iff.mp ha) b hb (Nat.le_antisymm hab hba)

end AlterTable.Move

/-!
## The order in which moves are given

Moves do not commute, so a layout depends on the order in which they are made. It does not depend on
the order in which they are given (`Layout.reorder_eq_of_perm`): where no two moves have one offset,
all ways to give them come to one written order, and the layout is made from that. It does not
matter what the columns are called, nor whether names repeat.

Two lists of moves come to one written order just if they have the same moves at each offset
(`Move.inOrder_eq_iff`). Where offsets repeat, the order given at one offset is kept, and it shows.
-/

namespace AlterTable

namespace Move

variable {p q : List Move}

/-- Two lists of moves come to one written order just if each offset has the same moves in both, in
the same order. -/
theorem inOrder_eq_iff :
    inOrder p = inOrder q ↔ ∀ offset, atOffset p offset = atOffset q offset := by
  constructor
  · intro h offset
    rw [← atOffset_inOrder p, h, atOffset_inOrder]
  · intro h
    apply eq_of_atOffset (inOrder_pairwise p) (inOrder_pairwise q)
    intro offset
    rw [atOffset_inOrder, atOffset_inOrder, h]

/-- Where offsets are distinct, an offset has no moves that could be given in another order. -/
theorem atOffset_eq_of_perm (hperm : p.Perm q) (hdistinct : (p.map offset).Nodup) (o : Nat) :
    atOffset p o = atOffset q o := by
  have hsame : (atOffset p o).Perm (atOffset q o) := hperm.filter _
  have hsole : ∀ a b, a ∈ atOffset p o → b ∈ atOffset q o → True → True → a = b := by
    intro a b ha hb _ _
    obtain ⟨hap, hao⟩ := List.mem_filter.mp ha
    obtain ⟨hbp, hbo⟩ := List.mem_filter.mp (hsame.mem_iff.mpr hb)
    simp only [decide_eq_true_eq] at hao hbo
    exact List.inj_on_of_nodup_map hdistinct hap hbp (hao.trans hbo.symm)
  exact hsame.eq_of_pairwise hsole (List.pairwise_of_forall fun _ _ => trivial)
    (List.pairwise_of_forall fun _ _ => trivial)

/-- Moves with distinct offsets are written one before the next. -/
theorem pairwise_lt_inOrder (hdistinct : (p.map offset).Nodup) :
    (inOrder p).Pairwise (·.offset < ·.offset) := by
  have hnodup : ((inOrder p).map offset).Nodup :=
    ((inOrder_perm p).map offset).nodup_iff.mpr hdistinct
  have hne : (inOrder p).Pairwise (·.offset ≠ ·.offset) := List.pairwise_map.mp hnodup
  apply (inOrder_pairwise p).imp₂ (S := (·.offset ≠ ·.offset)) _ hne
  intro a b hle hne
  omega

end Move

namespace Layout

/-- In whatever order moves with distinct offsets are given, they are made in the one order in which
each is written before the next, and the layout after them is the same. -/
theorem reorder_eq_of_perm (l : Layout) (p q : List Move) (hperm : p.Perm q)
    (hdistinct : (p.map Move.offset).Nodup) :
    l.reorder p = l.reorder q ∧ Move.inOrder p = Move.inOrder q ∧
      (Move.inOrder p).Perm p ∧ (Move.inOrder p).Pairwise (·.offset < ·.offset) := by
  have hsame : Move.inOrder p = Move.inOrder q :=
    Move.inOrder_eq_iff.mpr (Move.atOffset_eq_of_perm hperm hdistinct)
  refine ⟨?_, hsame, Move.inOrder_perm p, Move.pairwise_lt_inOrder hdistinct⟩
  rw [reorder, reorder, hsame]

/-- Columns of which two have one name. -/
def namesakes : Layout :=
  [{ name := "a", dataType := "INT" }, { name := "b", dataType := "INT" },
   { name := "a", dataType := "TEXT" }]

/-- Moves in written order. -/
def asWritten : List Move :=
  [⟨10, "b", .first⟩, ⟨20, "a", .first⟩, ⟨30, "b", .after "a"⟩]

/-- Made in the order in which they are given, the reversed moves would lead to another layout. -/
theorem reorder_eq_of_perm_reversed : asWritten.reverse.Perm asWritten ∧
    (asWritten.reverse.map Move.offset).Nodup ∧
    asWritten.reverse.foldl move namesakes ≠ asWritten.foldl move namesakes ∧
    namesakes.reorder asWritten.reverse = namesakes.reorder asWritten := by
  have hperm : asWritten.reverse.Perm asWritten := List.reverse_perm asWritten
  have hdistinct : (asWritten.reverse.map Move.offset).Nodup := by decide
  exact ⟨hperm, hdistinct, by decide, (reorder_eq_of_perm _ _ _ hperm hdistinct).1⟩

end Layout

end AlterTable
