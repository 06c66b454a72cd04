import AlterTable.Layout
import Mathlib.Data.List.Nodup
import Mathlib.Data.List.Perm.Basic

/-!
# Columns by name, and moves of them

A layout splits at the first column of a name, and a move takes a column elsewhere without losing
any.
-/

namespace AlterTable.Layout

/-!
## Columns by name

A layout splits at the first column of a name. Where the names are distinct that column is the only
one of its name, so it is the one that the layout holds at the index of the name.
-/

section

variable {l front back : Layout} {c : Column} {name : String} {i : Nat}

/-- A column in front puts its name in front. -/
@[simp] theorem names_cons (c : Column) (l : Layout) : names (c :: l) = c.name :: l.names := rfl

/-- The names of two layouts are those of the first and then those of the second. -/
@[simp] theorem names_append (front back : Layout) :
    names (front ++ back) = front.names ++ back.names :=
  List.map_append

/-- A layout with a column of the name splits at the first one. -/
theorem exists_split (h : name ∈ l.names) :
    ∃ (front : Layout) (c : Column) (back : Layout),
      l = front ++ c :: back ∧ c.name = name ∧ name ∉ front.names := by
  induction l with
  | nil => cases h
  | cons x l ih =>
    by_cases hx : x.name = name
    · exact ⟨[], x, l, rfl, hx, List.not_mem_nil⟩
    · have hl : name ∈ names l := by
        rcases List.mem_cons.mp h with h | h
        · exact absurd h.symm hx
        · exact h
      obtain ⟨front, c, back, rfl, hc, hfront⟩ := ih hl
      refine ⟨x :: front, c, back, rfl, hc, fun hmem => ?_⟩
      rcases List.mem_cons.mp hmem with h | h
      · exact hx h.symm
      · exact hfront h

/-- With distinct names, no other column has the name of the one at the split. -/
theorem notMem_of_nodup_split (h : names (front ++ c :: back) |>.Nodup) :
    c.name ∉ front.names ∧ c.name ∉ back.names := by
  rw [names_append, List.nodup_append] at h
  obtain ⟨-, hback, hdisjoint⟩ := h
  constructor
  · exact fun hmem => hdisjoint _ hmem _ List.mem_cons_self rfl
  · exact (List.nodup_cons.mp hback).1

/-- Without columns of a name, no index is that of the name. -/
theorem findIdx?_eq_none_of_notMem (h : name ∉ l.names) : l.findIdx? (·.name == name) = none := by
  simp only [List.findIdx?_eq_none_iff, beq_eq_false_iff_ne]
  exact fun x hx heq => h (List.mem_map.mpr ⟨x, hx, heq⟩)

/-- The index of a name is the length of what stands in front of its first column. -/
theorem findIdx?_split (hc : c.name = name) (h : name ∉ front.names) :
    (front ++ c :: back).findIdx? (·.name == name) = some front.length := by
  rw [List.findIdx?_append, findIdx?_eq_none_of_notMem h, List.findIdx?_cons]
  simp [hc]

end

/-!
## Moves rearrange

A move neither loses nor makes a column, whatever names it has and however often they occur: the
layout after any moves is a permutation of the layout before them.
-/

section

variable {l : Layout} {i j : Nat} {name column anchor : String}

/-! ### Indices -/

/-- The index of the last column of a name is one of the layout. -/
theorem lastIndex?_lt (h : lastIndex? name l = some i) : i < l.length := by
  induction l generalizing i with
  | nil => cases h
  | cons c l ih =>
    rw [lastIndex?] at h
    split at h
    next k hk =>
      cases h
      exact Nat.succ_lt_succ (ih hk)
    next =>
      split at h
      · cases h
        exact Nat.zero_lt_succ _
      · cases h

/-- Both indices that are found are indices of the layout. -/
theorem locate?_lt (h : l.locate? column anchor = some (i, j)) :
    i < l.length ∧ j < l.length := by
  unfold locate? at h
  obtain ⟨_, -, h⟩ := Option.bind_eq_some_iff.mp h
  obtain ⟨_, -, h⟩ := Option.bind_eq_some_iff.mp h
  obtain ⟨i', hi, h⟩ := Option.bind_eq_some_iff.mp h
  obtain ⟨j', hj, h⟩ := Option.bind_eq_some_iff.mp h
  cases h
  have hi' := lastIndex?_lt hi
  have hj' := lastIndex?_lt hj
  rw [List.length_take] at hi' hj'
  omega

/-! ### Permutations -/

/-- What is taken out can be put back anywhere. -/
theorem perm_cons_eraseIdx {α : Type} {l : List α} {a : α} (h : l[i]? = some a) :
    (a :: l.eraseIdx i).Perm l := by
  obtain ⟨hi, rfl⟩ := List.getElem?_eq_some_iff.mp h
  exact List.getElem_cons_eraseIdx_perm hi

/-- To take an element out and put it in elsewhere is a permutation. -/
theorem relocate_perm {α : Type} {l : List α} (hi : i < l.length) (hj : j < l.length) :
    (relocate l i j).Perm l := by
  have hlt := insertionIndex_lt hi hj
  have hlength := List.length_eraseIdx_of_lt hi
  have hget := List.getElem?_eq_getElem hi
  unfold relocate
  rw [hget]
  exact (List.perm_insertIdx _ _ (by omega)).trans (perm_cons_eraseIdx hget)

private theorem moveFirst_perm (l : Layout) (column : String) : (l.moveFirst column).Perm l := by
  unfold moveFirst
  split
  next i hi =>
    obtain ⟨hlt, -⟩ := List.findIdx?_eq_some_iff_getElem.mp hi
    have hget := List.getElem?_eq_getElem hlt
    rw [hget]
    exact perm_cons_eraseIdx hget
  next => exact .refl _

private theorem moveAfter_perm (l : Layout) (column anchor : String) :
    (l.moveAfter column anchor).Perm l := by
  unfold moveAfter
  split
  next i j h =>
    obtain ⟨hi, hj⟩ := locate?_lt h
    split
    · exact .refl _
    · exact relocate_perm hi hj
  next => exact .refl _

/-- A move permutes the columns. -/
theorem move_perm (l : Layout) (m : Move) : (l.move m).Perm l := by
  unfold move
  split
  · exact moveFirst_perm ..
  · exact moveAfter_perm ..

/-- Any number of moves permutes the columns. -/
theorem foldl_move_perm (l : Layout) (moves : List Move) : (moves.foldl move l).Perm l := by
  induction moves generalizing l with
  | nil => exact .refl _
  | cons m moves ih => exact (ih (l.move m)).trans (move_perm l m)

/-- Moves lose no column and make none. -/
theorem reorder_perm (l : Layout) (moves : List Move) : (l.reorder moves).Perm l :=
  foldl_move_perm l _

end

end AlterTable.Layout
