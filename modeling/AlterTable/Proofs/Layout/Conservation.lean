import AlterTable.Proofs.Layout.Reordering
import AlterTable.Proofs.Layout.Stepwise

/-!
# What moves leave alone

Moving a column takes it out at one index and puts it back at another. `reorder?` makes the same
moves with both steps refused at an index out of range, and it is never refused: the indices of
every move lie within the layout that it is made on, however often a name occurs there.

The columns that no move names keep their order among each other, and no column is lost, made or
changed.
-/

namespace AlterTable.Layout

variable {α : Type} {l : Layout} {i j : Nat} {name column anchor : String} {p : Column → Bool}

/-! ## Moves that may be refused -/

/-- The element at the index, and the list without it. -/
def takeOut? (l : List α) (i : Nat) : Option (α × List α) :=
  l[i]?.map fun a => (a, l.eraseIdx i)

/-- The list with one more element at the index, which may be the one behind the last. -/
def putIn? (l : List α) (i : Nat) (a : α) : Option (List α) :=
  if i ≤ l.length then some (l.insertIdx i a) else none

/-- A column moved to the front, by indices that have to be in range. -/
def moveFirst? (l : Layout) (column : String) : Option Layout :=
  match l.findIdx? (·.name == column) with
  | some i => do
    let (c, rest) ← takeOut? l i
    putIn? rest 0 c
  | none => some l

/-- A column moved behind another one, by indices that have to be in range. -/
def moveAfter? (l : Layout) (column anchor : String) : Option Layout :=
  match l.locate? column anchor with
  | some (i, j) =>
    if i = j + 1 then
      some l
    else do
      let (c, rest) ← takeOut? l i
      putIn? rest (insertionIndex i j) c
  | none => some l

/-- The layout after one move, if its indices are in range. -/
def move? (l : Layout) (m : Move) : Option Layout :=
  match m.place with
  | .first => l.moveFirst? m.column
  | .after anchor => l.moveAfter? m.column anchor

/-- The layout after the moves in written order, if the indices of each are in range. -/
def reorder? (l : Layout) (moves : List Move) : Option Layout :=
  (Move.inOrder moves).foldlM move? l

/-- The columns that none of the moves names as the one to be moved. -/
def untouched (l : Layout) (moves : List Move) : Layout :=
  l.filter fun c => c.name ∉ moves.map Move.column

/-! ## Indices in range -/

private theorem takeOut?_of_lt {l : List α} (h : i < l.length) :
    takeOut? l i = some (l[i], l.eraseIdx i) := by
  rw [takeOut?, List.getElem?_eq_getElem h, Option.map_some]

private theorem putIn?_of_le {l : List α} {a : α} (h : i ≤ l.length) :
    putIn? l i a = some (l.insertIdx i a) :=
  if_pos h

/-- A move to the front never meets an index out of range. -/
theorem moveFirst?_eq_some (l : Layout) (column : String) :
    l.moveFirst? column = some (l.moveFirst column) := by
  rw [moveFirst?, moveFirst]
  cases hi : l.findIdx? (·.name == column) with
  | none => rfl
  | some i =>
    obtain ⟨hlt, -⟩ := List.findIdx?_eq_some_iff_getElem.mp hi
    simp only [takeOut?_of_lt hlt, List.getElem?_eq_getElem hlt]
    exact putIn?_of_le (Nat.zero_le _)

/-- A move behind a column never meets an index out of range. -/
theorem moveAfter?_eq_some (l : Layout) (column anchor : String) :
    l.moveAfter? column anchor = some (l.moveAfter column anchor) := by
  rw [moveAfter?, moveAfter]
  cases hlocate : l.locate? column anchor with
  | none => rfl
  | some indices =>
    obtain ⟨i, j⟩ := indices
    obtain ⟨hi, hj⟩ := locate?_lt hlocate
    have hindex : insertionIndex i j ≤ (l.eraseIdx i).length := by
      have hlt := insertionIndex_lt hi hj
      rw [List.length_eraseIdx_of_lt hi]
      omega
    by_cases hplace : i = j + 1
    · simp only [if_pos hplace]
    · simp only [if_neg hplace, takeOut?_of_lt hi, relocate, List.getElem?_eq_getElem hi]
      exact putIn?_of_le hindex

/-- No move is refused. -/
theorem move?_eq_some (l : Layout) (m : Move) : l.move? m = some (l.move m) := by
  rw [move?, move]
  cases m.place with
  | first => exact moveFirst?_eq_some ..
  | after anchor => exact moveAfter?_eq_some ..

/-- No list of moves ever meets an index out of range. -/
theorem foldlM_move?_eq_some (l : Layout) (moves : List Move) :
    moves.foldlM move? l = some (moves.foldl move l) := by
  induction moves generalizing l with
  | nil => rfl
  | cons m moves ih =>
    rw [List.foldlM_cons, move?_eq_some, List.foldl_cons]
    exact ih (l.move m)

/-! ## Columns that keep their order -/

/-- An element that is not looked at makes no difference where it is put. -/
theorem filter_insertIdx {p : α → Bool} {a : α} (ha : p a = false) (l : List α) (i : Nat) :
    (l.insertIdx i a).filter p = l.filter p := by
  induction l generalizing i with
  | nil => cases i <;> simp [ha]
  | cons b l ih =>
    cases i with
    | zero => simp [ha]
    | succ i => rw [List.insertIdx_succ_cons, List.filter_cons, List.filter_cons, ih]

/-- Nor does it where it is taken out. -/
theorem filter_eraseIdx {p : α → Bool} {l : List α} (h : i < l.length) (ha : p l[i] = false) :
    (l.eraseIdx i).filter p = l.filter p := by
  have hback := filter_insertIdx ha (l.eraseIdx i) i
  rw [List.insertIdx_eraseIdx_getElem h] at hback
  exact hback.symm

/-- Where the last column of a name is, there is a column of that name. -/
theorem name_of_lastIndex? (h : lastIndex? name l = some i) :
    ∃ c, l[i]? = some c ∧ c.name = name := by
  induction l generalizing i with
  | nil => cases h
  | cons c l ih =>
    rw [lastIndex?] at h
    split at h
    next k hk =>
      cases h
      exact ih hk
    next =>
      split at h
      next hc =>
        cases h
        exact ⟨c, rfl, hc⟩
      next => cases h

/-- The column that the search finds for the first of the two names has that name. -/
theorem name_of_locate? (h : l.locate? column anchor = some (i, j)) :
    ∃ c, l[i]? = some c ∧ c.name = column := by
  unfold locate? at h
  obtain ⟨_, -, h⟩ := Option.bind_eq_some_iff.mp h
  obtain ⟨_, -, h⟩ := Option.bind_eq_some_iff.mp h
  obtain ⟨i', hi, h⟩ := Option.bind_eq_some_iff.mp h
  obtain ⟨j', -, h⟩ := Option.bind_eq_some_iff.mp h
  cases h
  obtain ⟨c, hc, hname⟩ := name_of_lastIndex? hi
  rw [List.getElem?_take] at hc
  split at hc
  · exact ⟨c, hc, hname⟩
  · cases hc

private theorem filter_moveFirst (hp : ∀ c : Column, c.name = column → p c = false) :
    (l.moveFirst column).filter p = l.filter p := by
  unfold moveFirst
  split
  next i hi =>
    obtain ⟨hlt, hname, -⟩ := List.findIdx?_eq_some_iff_getElem.mp hi
    have hc : p l[i] = false := hp _ (beq_iff_eq.mp hname)
    rw [List.getElem?_eq_getElem hlt, Option.toList_some, List.singleton_append,
      List.filter_cons_of_neg (by simp [hc]), filter_eraseIdx hlt hc]
  next => rfl

private theorem filter_moveAfter (hp : ∀ c : Column, c.name = column → p c = false) :
    (l.moveAfter column anchor).filter p = l.filter p := by
  unfold moveAfter
  split
  next i j hlocate =>
    obtain ⟨c, hget, hname⟩ := name_of_locate? hlocate
    obtain ⟨hlt, rfl⟩ := List.getElem?_eq_some_iff.mp hget
    have hc : p l[i] = false := hp _ hname
    split
    · rfl
    · rw [relocate, hget]
      exact (filter_insertIdx hc _ _).trans (filter_eraseIdx hlt hc)
  next => rfl

/-- A move keeps the columns of other names in their order. -/
theorem filter_move {m : Move} (hp : ∀ c : Column, c.name = m.column → p c = false) :
    (l.move m).filter p = l.filter p := by
  unfold move
  split
  · exact filter_moveFirst hp
  · exact filter_moveAfter hp

/-- Columns that no move names stay in their order. -/
theorem filter_foldl_move {moves : List Move}
    (hp : ∀ m ∈ moves, ∀ c : Column, c.name = m.column → p c = false) :
    (moves.foldl move l).filter p = l.filter p := by
  induction moves generalizing l with
  | nil => rfl
  | cons m moves ih =>
    rw [List.foldl_cons, ih fun m' hm' => hp m' (List.mem_cons_of_mem _ hm'),
      filter_move (hp m List.mem_cons_self)]

private theorem untouched_reorder (l : Layout) (moves : List Move) :
    (l.reorder moves).untouched moves = l.untouched moves := by
  refine filter_foldl_move fun m hm c hc => ?_
  have hmoved : m ∈ moves := (Move.inOrder_perm moves).mem_iff.mp hm
  rw [decide_eq_false_iff_not, not_not, hc]
  exact List.mem_map_of_mem hmoved

/-- Reordering stays within the layout at every index, it gives a permutation of the columns, and
those that no move names stand in the order in which they stood. -/
theorem reorder_conserves (l : Layout) (moves : List Move) :
    l.reorder? moves = some (l.reorder moves) ∧ (l.reorder moves).Perm l ∧
      (l.reorder moves).untouched moves = l.untouched moves :=
  ⟨foldlM_move?_eq_some l _, reorder_perm l moves, untouched_reorder l moves⟩

/-- Of a name that occurs twice a move takes the last column up to where the search stops, and the
columns of other names stay in order all the same. -/
example :
    [Move.mk 0 "a" (.after "c"), ⟨1, "a", .after "b"⟩].foldlM move?
      [{ name := "a", dataType := "INT" }, { name := "b", dataType := "INT" },
       { name := "a", dataType := "TEXT" }, { name := "c", dataType := "INT" }] =
    some [{ name := "b", dataType := "INT" }, { name := "a", dataType := "INT" },
      { name := "c", dataType := "INT" }, { name := "a", dataType := "TEXT" }] := by
  decide

end AlterTable.Layout
