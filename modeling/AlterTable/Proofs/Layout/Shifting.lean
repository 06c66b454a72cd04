import AlterTable.Proofs.Layout.Stepwise

/-!
# What taking out shifts

An element that is moved is taken out of the list and put back at another index, and in between
every element behind the gap stands one place further to the front. `newIndex` says where each
element ends up, and `MovedBehind` what that amounts to: nothing is lost, the moved element stands
directly behind its anchor, and all others keep their order. So `insertionIndex` is right on either
side of the anchor, at both ends of the list and next to it; where the moved element stands behind
its anchor already, the list is left as it was, and to stop there is no different from moving on
(`relocate_shifts`).

Elements are told by the index at which they stood and not by what they are, as a list may have
equal ones.
-/

namespace AlterTable.Layout

variable {α : Type} {l : List α} {a : α} {moved anchor target k k' : Nat}

/-- The index of an element once the one at `moved` is taken out. -/
def indexWithout (moved k : Nat) : Nat :=
  if k < moved then k else k - 1

/-- The index of an element once another one is put in at `target`. -/
def indexBeside (target k : Nat) : Nat :=
  if k < target then k else k + 1

/-- Where the element at index `k` ends up when the one at `moved` is put behind the anchor. -/
def newIndex (moved anchor k : Nat) : Nat :=
  if k = moved then insertionIndex moved anchor
  else indexBeside (insertionIndex moved anchor) (indexWithout moved k)

/-- The list `r` has the elements of `l` at other indices: the moved one directly behind its anchor,
and the others in the order in which they were. -/
structure MovedBehind (l r : List α) (moved anchor : Nat) (index : Nat → Nat) : Prop where
  length_eq : r.length = l.length
  injective : Function.Injective index
  getElem?_index : ∀ k < l.length, r[index k]? = l[k]?
  directly : index moved = index anchor + 1
  ordered : ∀ k k', k ≠ moved → k' ≠ moved → k < k' → index k < index k'

/-! ## Taking out and putting in -/

private theorem indexWithout_lt (hk : k ≠ moved) (hk' : k' ≠ moved) (h : k < k') :
    indexWithout moved k < indexWithout moved k' := by
  unfold indexWithout
  split <;> split <;> omega

private theorem indexBeside_lt (h : k < k') : indexBeside target k < indexBeside target k' := by
  unfold indexBeside
  split <;> split <;> omega

private theorem indexBeside_ne : indexBeside target k ≠ target := by
  unfold indexBeside
  split <;> omega

/-- After one is taken out, the others are found at their new indices. -/
theorem getElem?_indexWithout (hk : k ≠ moved) :
    (l.eraseIdx moved)[indexWithout moved k]? = l[k]? := by
  rw [List.getElem?_eraseIdx, indexWithout]
  by_cases h : k < moved
  · rw [if_pos h, if_pos h]
  · rw [if_neg h, if_neg (by omega), Nat.sub_add_cancel (by omega)]

/-- After one is put in, the others are found at their new indices. -/
theorem getElem?_indexBeside : (l.insertIdx target a)[indexBeside target k]? = l[k]? := by
  rw [indexBeside]
  by_cases h : k < target
  · rw [if_pos h, List.getElem?_insertIdx_of_lt h]
  · rw [if_neg h, List.getElem?_insertIdx_of_gt (by omega), Nat.add_sub_cancel]

/-! ## New indices -/

private theorem newIndex_moved : newIndex moved anchor moved = insertionIndex moved anchor :=
  if_pos rfl

private theorem newIndex_of_ne (h : k ≠ moved) :
    newIndex moved anchor k = indexBeside (insertionIndex moved anchor) (indexWithout moved k) :=
  if_neg h

/-- Columns that are not moved keep their order. -/
theorem newIndex_lt (hk : k ≠ moved) (hk' : k' ≠ moved) (h : k < k') :
    newIndex moved anchor k < newIndex moved anchor k' := by
  rw [newIndex_of_ne hk, newIndex_of_ne hk']
  exact indexBeside_lt (indexWithout_lt hk hk' h)

private theorem newIndex_ne_moved (h : k ≠ moved) :
    newIndex moved anchor k ≠ newIndex moved anchor moved := by
  rw [newIndex_of_ne h, newIndex_moved]
  exact indexBeside_ne

/-- No two columns get the same index. -/
theorem newIndex_injective : Function.Injective (newIndex moved anchor) := by
  intro k k' h
  by_cases hk : k = moved
  · subst hk
    by_contra hne
    exact newIndex_ne_moved (Ne.symm hne) h.symm
  · have hk' : k' ≠ moved := fun hk' => newIndex_ne_moved hk (hk' ▸ h)
    rcases Nat.lt_trichotomy k k' with hlt | heq | hlt
    · exact absurd h (Nat.ne_of_lt (newIndex_lt hk hk' hlt))
    · exact heq
    · exact absurd h.symm (Nat.ne_of_lt (newIndex_lt hk' hk hlt))

/-- Whichever of the two stands further to the front, the moved element ends up right behind its
anchor: the anchor keeps its index in the one case and gives up the one it had in the other. -/
theorem newIndex_moved_eq (h : moved ≠ anchor) :
    newIndex moved anchor moved = newIndex moved anchor anchor + 1 := by
  rw [newIndex_moved, newIndex_of_ne (Ne.symm h), insertionIndex, indexWithout, indexBeside]
  by_cases hbefore : anchor < moved
  · simp only [if_pos hbefore, if_pos (Nat.lt_succ_self anchor)]
  · have hbehind : anchor - 1 < anchor := by omega
    simp only [if_neg hbefore, if_pos hbehind]
    omega

/-! ## Lists -/

/-- Taken out, an element can be put back at its index. -/
theorem insertionIndex_le_length (hm : moved < l.length) (ha : anchor < l.length) :
    insertionIndex moved anchor ≤ (l.eraseIdx moved).length := by
  have hlt := insertionIndex_lt hm ha
  rw [List.length_eraseIdx_of_lt hm]
  omega

private theorem relocate_eq_insertIdx (hm : moved < l.length) : relocate l moved anchor =
    (l.eraseIdx moved).insertIdx (insertionIndex moved anchor) l[moved] := by
  rw [relocate, List.getElem?_eq_getElem hm]

/-- Every column is found at its new index. -/
theorem getElem?_relocate (hm : moved < l.length) (ha : anchor < l.length) (k : Nat) :
    (relocate l moved anchor)[newIndex moved anchor k]? = l[k]? := by
  rw [relocate_eq_insertIdx hm]
  by_cases hk : k = moved
  · subst hk
    rw [newIndex_moved, List.getElem?_insertIdx_self, if_pos (insertionIndex_le_length hm ha),
      List.getElem?_eq_getElem hm]
  · rw [newIndex_of_ne hk, getElem?_indexBeside, getElem?_indexWithout hk]

/-- A column that is taken out and put in again stands right behind its anchor. -/
theorem relocate_movedBehind (hm : moved < l.length) (ha : anchor < l.length)
    (hne : moved ≠ anchor) :
    MovedBehind l (relocate l moved anchor) moved anchor (newIndex moved anchor) where
  length_eq := (relocate_perm hm ha).length_eq
  injective := newIndex_injective
  getElem?_index k _ := getElem?_relocate hm ha k
  directly := newIndex_moved_eq hne
  ordered _ _ := newIndex_lt

/-- Behind the anchor already, the moved element is put back where it was. -/
theorem relocate_succ (l : List α) (anchor : Nat) : relocate l (anchor + 1) anchor = l :=
  relocate_eq_self (insertionIndex_succ anchor)

/-- Not to move a column that is in place already is no different from moving it. -/
theorem moveAfter_eq_relocate {l : Layout} {column name : String} {i j : Nat}
    (h : l.locate? column name = some (i, j)) : l.moveAfter column name = relocate l i j := by
  rw [moveAfter, h]
  simp only
  split
  next hplace => rw [hplace, relocate_succ]
  next => rfl

/-! ## The shift -/

/-- What is taken out is put back within bounds. Behind itself or behind the element that it stands
behind already, it is put back where it was, and behind any other it stands directly behind that one
with all others in their order. So it makes no difference that a column in place already is not
moved. -/
theorem relocate_shifts (l : List α) (hm : moved < l.length) (ha : anchor < l.length) :
    (insertionIndex moved anchor ≤ (l.eraseIdx moved).length ∧ relocate l moved anchor =
        (l.eraseIdx moved).insertIdx (insertionIndex moved anchor) l[moved]) ∧
      (moved ≠ anchor →
        MovedBehind l (relocate l moved anchor) moved anchor (newIndex moved anchor)) ∧
      (moved = anchor ∨ moved = anchor + 1 → relocate l moved anchor = l) ∧
      ∀ (table : Layout) (column name : String) (i j : Nat),
        table.locate? column name = some (i, j) →
          table.moveAfter column name = relocate table i j := by
  refine ⟨⟨insertionIndex_le_length hm ha, relocate_eq_insertIdx hm⟩,
    relocate_movedBehind hm ha, ?_, fun table column name i j => moveAfter_eq_relocate⟩
  rintro (rfl | rfl)
  · exact relocate_self l moved
  · exact relocate_succ l anchor

/-- The first of two equal elements is put behind the second one. -/
theorem relocate_shifts_equal :
    (0 < ['a', 'b', 'a', 'c'].length ∧ 2 < ['a', 'b', 'a', 'c'].length) ∧
      MovedBehind ['a', 'b', 'a', 'c'] ['b', 'a', 'a', 'c'] 0 2 (newIndex 0 2) := by
  have hm : 0 < ['a', 'b', 'a', 'c'].length := by decide
  have ha : 2 < ['a', 'b', 'a', 'c'].length := by decide
  exact ⟨⟨hm, ha⟩, (relocate_shifts _ hm ha).2.1 (by decide)⟩

end AlterTable.Layout
