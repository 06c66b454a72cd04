import AlterTable.Proofs.Layout.Reordering
import AlterTable.Proofs.Layout.Sorting

/-!
# Moves by name

What a move does to a layout, said by the names of columns alone: `step` takes the columns of a
name out, and puts them in front of all others or directly behind another column. Moves are made
with indices instead, those of both columns from one search, a column that is in place already left
alone, and an index that is put right by one where taking out shifted it. With distinct names the
two agree, move by move and so over any list of moves.
-/

namespace AlterTable.Layout

variable {l front mid back : Layout} {c a : Column} {name column anchor : String} {i j : Nat}

/-! ## Steps -/

/-- The columns of this name. -/
def named (l : Layout) (name : String) : Layout :=
  l.filter fun c => c.name = name

/-- The columns of other names. -/
def others (l : Layout) (name : String) : Layout :=
  l.filter fun c => c.name ≠ name

/-- The layout with more columns directly behind the column of this name. -/
def insertBehind (l : Layout) (anchor : String) (more : Layout) : Layout :=
  l.flatMap fun c => if c.name = anchor then c :: more else [c]

/-- The layout with the column of this name at its head, if there is one. -/
def stepFirst (l : Layout) (column : String) : Layout :=
  if column ∈ l.names then l.named column ++ l.others column else l

/-- The layout with a column taken out and put directly behind another one, if they are different
and both there. -/
def stepAfter (l : Layout) (column anchor : String) : Layout :=
  if column ≠ anchor ∧ column ∈ l.names ∧ anchor ∈ l.names then
    (l.others column).insertBehind anchor (l.named column)
  else l

/-- The layout after one move. -/
def step (l : Layout) (m : Move) : Layout :=
  match m.place with
  | .first => l.stepFirst m.column
  | .after anchor => l.stepAfter m.column anchor

/-! ## Parts of a layout -/

/-- There is no column of a name that the layout does not have. -/
theorem named_of_notMem (h : name ∉ l.names) : l.named name = [] := by
  refine List.filter_eq_nil_iff.mpr fun c hc hname => h ?_
  exact List.mem_map.mpr ⟨c, hc, by simpa using hname⟩

/-- All columns are of other names than one that the layout does not have. -/
theorem others_of_notMem (h : name ∉ l.names) : l.others name = l := by
  refine List.filter_eq_self.mpr fun c hc => ?_
  simp only [decide_eq_true_eq]
  exact fun hname => h (List.mem_map.mpr ⟨c, hc, hname⟩)

/-- Behind a column that is not there nothing is put in. -/
theorem insertBehind_of_notMem (h : anchor ∉ l.names) (more : Layout) :
    l.insertBehind anchor more = l := by
  induction l with
  | nil => rfl
  | cons c l ih =>
    obtain ⟨hc, hl⟩ := not_or.mp (mt List.mem_cons.mpr h)
    have hrest := ih hl
    rw [insertBehind] at hrest ⊢
    rw [List.flatMap_cons, if_neg (Ne.symm hc), hrest, List.singleton_append]

/-- In a layout split at the only column of a name, this is the column of the name. -/
theorem named_split (hc : c.name = name) (hfront : name ∉ front.names) (hback : name ∉ back.names) :
    named (front ++ c :: back) name = [c] := by
  have hf := named_of_notMem hfront
  have hb := named_of_notMem hback
  rw [named] at hf hb ⊢
  rw [List.filter_append, hf, List.filter_cons_of_pos (by simpa using hc), hb, List.nil_append]

/-- In a layout split at the only column of a name, the others stand on both sides of it. -/
theorem others_split (hc : c.name = name) (hfront : name ∉ front.names)
    (hback : name ∉ back.names) : others (front ++ c :: back) name = front ++ back := by
  have hf := others_of_notMem hfront
  have hb := others_of_notMem hback
  rw [others] at hf hb ⊢
  rw [List.filter_append, hf, List.filter_cons_of_neg (by simpa using hc), hb]

/-- Behind the only column of a name things are put in between it and the columns that follow. -/
theorem insertBehind_split (ha : a.name = anchor) (hfront : anchor ∉ front.names)
    (hback : anchor ∉ back.names) (more : Layout) :
    insertBehind (front ++ a :: back) anchor more = front ++ a :: (more ++ back) := by
  have hf := insertBehind_of_notMem hfront more
  have hb := insertBehind_of_notMem hback more
  rw [insertBehind] at hf hb ⊢
  rw [List.flatMap_append, hf, List.flatMap_cons, if_pos ha, hb, List.cons_append]

/-! ## Moves by index -/

/-- What is put back where something was taken out stands between what was around it. -/
theorem insertIdx_append_length {α : Type} (front back : List α) (x : α) :
    (front ++ back).insertIdx front.length x = front ++ x :: back := by
  induction front with
  | nil => rfl
  | cons y front ih =>
    rw [List.cons_append, List.length_cons, List.insertIdx_succ_cons, ih, List.cons_append]

private theorem eraseIdx_append_length {α : Type} (front back : List α) (x : α) :
    (front ++ x :: back).eraseIdx front.length = front ++ back := by
  rw [List.eraseIdx_append_of_length_le (Nat.le_refl _), Nat.sub_self, List.eraseIdx_cons_zero]

/-- Moving an element behind one further back. -/
theorem relocate_forward {α : Type} (front mid back : List α) (x y : α) :
    relocate (front ++ x :: (mid ++ y :: back)) front.length (front.length + 1 + mid.length) =
      front ++ mid ++ y :: x :: back := by
  have hindex : insertionIndex front.length (front.length + 1 + mid.length) =
      (front ++ mid ++ [y]).length := by
    rw [insertionIndex, if_neg (by omega)]
    simp only [List.length_append, List.length_cons, List.length_nil]
    omega
  have hrest : front ++ (mid ++ y :: back) = front ++ mid ++ [y] ++ back := by
    simp only [List.append_assoc, List.singleton_append]
  rw [relocate, List.getElem?_append_right (Nat.le_refl _), Nat.sub_self, List.getElem?_cons_zero]
  simp only
  rw [eraseIdx_append_length, hindex, hrest, insertIdx_append_length]
  simp only [List.append_assoc, List.singleton_append]

/-- Moving an element behind one further to the front. -/
theorem relocate_backward {α : Type} (front mid back : List α) (x y : α) :
    relocate (front ++ y :: (mid ++ x :: back)) (front.length + 1 + mid.length) front.length =
      front ++ y :: x :: (mid ++ back) := by
  have hmoved : front ++ y :: (mid ++ x :: back) = (front ++ y :: mid) ++ x :: back := by
    simp only [List.append_assoc, List.cons_append]
  have hlength : front.length + 1 + mid.length = (front ++ y :: mid).length := by
    simp only [List.length_append, List.length_cons]
    omega
  have hindex : insertionIndex (front ++ y :: mid).length front.length =
      (front ++ [y]).length := by
    rw [insertionIndex, if_pos (by rw [← hlength]; omega)]
    simp only [List.length_append, List.length_cons, List.length_nil]
  have hrest : front ++ y :: mid ++ back = front ++ [y] ++ (mid ++ back) := by
    simp only [List.append_assoc, List.cons_append, List.nil_append]
  rw [hmoved, hlength, relocate, List.getElem?_append_right (Nat.le_refl _), Nat.sub_self,
    List.getElem?_cons_zero]
  simp only
  rw [eraseIdx_append_length, hindex, hrest, insertIdx_append_length]
  simp only [List.append_assoc, List.singleton_append]

/-- What is put back at the index from which it was taken out stays. -/
theorem relocate_eq_self {α : Type} {l : List α} (h : insertionIndex i j = i) :
    relocate l i j = l := by
  unfold relocate
  split
  next x hx =>
    obtain ⟨hi, rfl⟩ := List.getElem?_eq_some_iff.mp hx
    rw [h, List.insertIdx_eraseIdx_getElem hi]
  next => rfl

/-- An element that is moved behind itself stays. -/
theorem relocate_self {α : Type} (l : List α) (i : Nat) : relocate l i i = l :=
  relocate_eq_self (insertionIndex_self i)

/-! ## Looking for columns -/

/-- With distinct names, the last column of a name is the first one. -/
theorem lastIndex?_eq_findIdx? (h : l.names.Nodup) :
    lastIndex? name l = l.findIdx? (·.name == name) := by
  induction l with
  | nil => rfl
  | cons c l ih =>
    obtain ⟨hc, hl⟩ := List.nodup_cons.mp h
    rw [lastIndex?, ih hl, List.findIdx?_cons]
    by_cases hname : c.name = name
    · rw [findIdx?_eq_none_of_notMem (hname ▸ hc), if_pos hname, if_pos (by simpa using hname)]
    · have hbeq : ¬ (c.name == name) = true := by simpa using hname
      rw [if_neg hbeq]
      cases l.findIdx? (·.name == name) with
      | none => exact if_neg hname
      | some i => rfl

/-- With distinct names, the search for two columns finds the index of each. -/
theorem locate?_eq_some_iff (h : l.names.Nodup) : l.locate? column anchor = some (i, j) ↔
    l.findIdx? (·.name == column) = some i ∧ l.findIdx? (·.name == anchor) = some j := by
  unfold locate?
  cases hi : l.findIdx? (·.name == column) with
  | none => simp
  | some i' =>
    cases hj : l.findIdx? (·.name == anchor) with
    | none => simp
    | some j' =>
      have hseen : (names (l.take (max i' j' + 1))).Nodup :=
        h.sublist ((List.take_sublist _ _).map _)
      have hi' : lastIndex? column (l.take (max i' j' + 1)) = some i' := by
        rw [lastIndex?_eq_findIdx? hseen, List.findIdx?_take, hi, Option.bind_some, Option.guard,
          if_pos (by simp only [decide_eq_true_eq]; omega)]
      have hj' : lastIndex? anchor (l.take (max i' j' + 1)) = some j' := by
        rw [lastIndex?_eq_findIdx? hseen, List.findIdx?_take, hj, Option.bind_some, Option.guard,
          if_pos (by simp only [decide_eq_true_eq]; omega)]
      simp [hi', hj']

/-! ## Agreement -/

/-- Moving a column to the front by its index is the step by its name. -/
theorem moveFirst_eq_step (h : l.names.Nodup) : l.moveFirst column = l.stepFirst column := by
  unfold moveFirst stepFirst
  by_cases hmem : column ∈ l.names
  · obtain ⟨front, c, back, rfl, hc, hfront⟩ := exists_split hmem
    obtain ⟨-, hback⟩ := notMem_of_nodup_split h
    rw [hc] at hback
    rw [if_pos hmem, findIdx?_split hc hfront, named_split hc hfront hback,
      others_split hc hfront hback]
    simp only [eraseIdx_append_length, List.getElem?_append_right (Nat.le_refl _), Nat.sub_self,
      List.getElem?_cons_zero, Option.toList_some]
  · rw [if_neg hmem, findIdx?_eq_none_of_notMem hmem]

/-- Two different columns of a layout stand one behind the other. -/
theorem exists_split_pair (hc : column ∈ l.names) (ha : anchor ∈ l.names) (hne : column ≠ anchor) :
    ∃ front mid back : Layout, ∃ c a : Column, c.name = column ∧ a.name = anchor ∧
      (l = front ++ c :: (mid ++ a :: back) ∨ l = front ++ a :: (mid ++ c :: back)) := by
  obtain ⟨front, c, back, rfl, rfl, hfront⟩ := exists_split hc
  rw [names_append, List.mem_append] at ha
  rcases ha with ha | ha
  · obtain ⟨front, a, mid, rfl, rfl, -⟩ := exists_split ha
    exact ⟨front, mid, back, c, a, rfl, rfl, .inr (by simp only [List.append_assoc,
      List.cons_append])⟩
  · rcases List.mem_cons.mp ha with rfl | ha
    · exact absurd rfl hne
    · obtain ⟨mid, a, back, rfl, rfl, -⟩ := exists_split ha
      exact ⟨front, mid, back, c, a, rfl, rfl, .inl rfl⟩

/-- With distinct names, neither of two columns has its name elsewhere. -/
theorem notMem_of_nodup_pair (h : (names (front ++ c :: (mid ++ a :: back))).Nodup) :
    (c.name ∉ front.names ∧ c.name ∉ mid.names ∧ c.name ∉ back.names) ∧
      a.name ∉ front.names ∧ a.name ∉ mid.names ∧ a.name ∉ back.names ∧ c.name ≠ a.name := by
  obtain ⟨hcf, hc⟩ := notMem_of_nodup_split h
  have hsplit : front ++ c :: (mid ++ a :: back) = (front ++ c :: mid) ++ a :: back := by
    simp only [List.append_assoc, List.cons_append]
  obtain ⟨ha, hab⟩ := notMem_of_nodup_split (hsplit ▸ h)
  simp only [names_append, names_cons, List.mem_append, List.mem_cons, not_or] at hc ha
  exact ⟨⟨hcf, hc.1, hc.2.2⟩, ha.1, ha.2.2, hab, hc.2.1⟩

/-- A column is moved behind one further back. -/
theorem moveAfter_forward (h : (names (front ++ c :: (mid ++ a :: back))).Nodup) :
    moveAfter (front ++ c :: (mid ++ a :: back)) c.name a.name =
      front ++ mid ++ a :: c :: back := by
  obtain ⟨⟨hcf, -, -⟩, haf, ham, -, hne⟩ := notMem_of_nodup_pair h
  have hsplit : front ++ c :: (mid ++ a :: back) = (front ++ c :: mid) ++ a :: back := by
    simp only [List.append_assoc, List.cons_append]
  have hlength : (front ++ c :: mid).length = front.length + 1 + mid.length := by
    simp only [List.length_append, List.length_cons]
    omega
  have hlocate : locate? (front ++ c :: (mid ++ a :: back)) c.name a.name =
      some (front.length, front.length + 1 + mid.length) := by
    refine (locate?_eq_some_iff h).mpr ⟨findIdx?_split rfl hcf, ?_⟩
    rw [hsplit, findIdx?_split rfl, hlength]
    simp only [names_append, names_cons, List.mem_append, List.mem_cons, not_or]
    exact ⟨haf, Ne.symm hne, ham⟩
  rw [moveAfter, hlocate]
  simp only
  rw [if_neg (by omega), relocate_forward]

/-- A column is moved behind one further to the front, also where it stands there already. -/
theorem moveAfter_backward (h : (names (front ++ a :: (mid ++ c :: back))).Nodup) :
    moveAfter (front ++ a :: (mid ++ c :: back)) c.name a.name =
      front ++ a :: c :: (mid ++ back) := by
  obtain ⟨⟨haf, -, -⟩, hcf, hcm, -, hne⟩ := notMem_of_nodup_pair h
  have hsplit : front ++ a :: (mid ++ c :: back) = (front ++ a :: mid) ++ c :: back := by
    simp only [List.append_assoc, List.cons_append]
  have hlength : (front ++ a :: mid).length = front.length + 1 + mid.length := by
    simp only [List.length_append, List.length_cons]
    omega
  have hlocate : locate? (front ++ a :: (mid ++ c :: back)) c.name a.name =
      some (front.length + 1 + mid.length, front.length) := by
    refine (locate?_eq_some_iff h).mpr ⟨?_, findIdx?_split rfl haf⟩
    rw [hsplit, findIdx?_split rfl, hlength]
    simp only [names_append, names_cons, List.mem_append, List.mem_cons, not_or]
    exact ⟨hcf, Ne.symm hne, hcm⟩
  rw [moveAfter, hlocate]
  simp only
  split
  next hplace =>
    have hmid : mid = [] := List.eq_nil_of_length_eq_zero (by omega)
    rw [hmid]
    rfl
  next => exact relocate_backward ..

private theorem stepAfter_forward (h : (names (front ++ c :: (mid ++ a :: back))).Nodup) :
    stepAfter (front ++ c :: (mid ++ a :: back)) c.name a.name =
      front ++ mid ++ a :: c :: back := by
  obtain ⟨⟨hcf, hcm, hcb⟩, haf, ham, hab, hne⟩ := notMem_of_nodup_pair h
  have hback : c.name ∉ names (mid ++ a :: back) := by
    simp only [names_append, names_cons, List.mem_append, List.mem_cons, not_or]
    exact ⟨hcm, hne, hcb⟩
  have hfront : a.name ∉ names (front ++ mid) := by
    simp only [names_append, List.mem_append, not_or]
    exact ⟨haf, ham⟩
  rw [stepAfter, if_pos (by simp [hne]), named_split rfl hcf hback, others_split rfl hcf hback,
    ← List.append_assoc, insertBehind_split rfl hfront hab, List.singleton_append]

private theorem stepAfter_backward (h : (names (front ++ a :: (mid ++ c :: back))).Nodup) :
    stepAfter (front ++ a :: (mid ++ c :: back)) c.name a.name =
      front ++ a :: c :: (mid ++ back) := by
  obtain ⟨⟨haf, ham, hab⟩, hcf, hcm, hcb, hne⟩ := notMem_of_nodup_pair h
  have hsplit : front ++ a :: (mid ++ c :: back) = (front ++ a :: mid) ++ c :: back := by
    simp only [List.append_assoc, List.cons_append]
  have hfront : c.name ∉ names (front ++ a :: mid) := by
    simp only [names_append, names_cons, List.mem_append, List.mem_cons, not_or]
    exact ⟨hcf, Ne.symm hne, hcm⟩
  have hback : a.name ∉ names (mid ++ back) := by
    simp only [names_append, List.mem_append, not_or]
    exact ⟨ham, hab⟩
  rw [stepAfter, if_pos (by simp [Ne.symm hne]), hsplit, named_split rfl hfront hcb,
    others_split rfl hfront hcb, List.append_assoc, List.cons_append,
    insertBehind_split rfl haf hback, List.singleton_append]

/-- A column that is not there, or that is to stand behind itself or a missing one, stays. -/
theorem moveAfter_of_not (h : l.names.Nodup)
    (hstay : ¬ (column ≠ anchor ∧ column ∈ l.names ∧ anchor ∈ l.names)) :
    l.moveAfter column anchor = l := by
  unfold moveAfter
  split
  next i j hlocate =>
    obtain ⟨hi, hj⟩ := (locate?_eq_some_iff h).mp hlocate
    have hsame : column = anchor := by
      by_contra hne
      refine hstay ⟨hne, ?_, ?_⟩
      · by_contra hmem
        rw [findIdx?_eq_none_of_notMem hmem] at hi
        cases hi
      · by_contra hmem
        rw [findIdx?_eq_none_of_notMem hmem] at hj
        cases hj
    obtain rfl : i = j := Option.some.inj (hi.symm.trans (hsame ▸ hj))
    rw [if_neg (by omega), relocate_self]
  next => rfl

/-- Moving a column behind another one by their indices is the step by their names. -/
theorem moveAfter_eq_step (h : l.names.Nodup) :
    l.moveAfter column anchor = l.stepAfter column anchor := by
  by_cases hsteps : column ≠ anchor ∧ column ∈ l.names ∧ anchor ∈ l.names
  · obtain ⟨hne, hc, ha⟩ := hsteps
    obtain ⟨front, mid, back, c, a, rfl, rfl, rfl | rfl⟩ := exists_split_pair hc ha hne
    · rw [moveAfter_forward h, stepAfter_forward h]
    · rw [moveAfter_backward h, stepAfter_backward h]
  · rw [moveAfter_of_not h hsteps, stepAfter, if_neg hsteps]

/-- A single move does what its step says. -/
theorem move_eq_step (h : l.names.Nodup) (m : Move) : l.move m = l.step m := by
  obtain ⟨offset, column, place⟩ := m
  cases place with
  | first => exact moveFirst_eq_step h
  | after anchor => exact moveAfter_eq_step h

/-- Moves keep names distinct. -/
theorem names_move_nodup (h : l.names.Nodup) (m : Move) : (l.move m).names.Nodup :=
  ((move_perm l m).map Column.name).nodup_iff.mpr h

/-- Moves made one after the other do what their steps say. -/
theorem foldl_move_eq_foldl_step (h : l.names.Nodup) (moves : List Move) :
    moves.foldl move l = moves.foldl step l := by
  induction moves generalizing l with
  | nil => rfl
  | cons m moves ih =>
    rw [List.foldl_cons, List.foldl_cons, ih (names_move_nodup h m), move_eq_step h]

/-- Reordering makes the steps of the moves, sorted stably by their offsets, one after the other;
and the moves in written order are the one list that is so sorted. -/
theorem reorder_eq_foldl_step (l : Layout) (moves : List Move) (h : l.names.Nodup) :
    l.reorder moves = (Move.inOrder moves).foldl step l ∧
      ∀ sorted, Move.StablySorted moves sorted ↔ Move.inOrder moves = sorted :=
  ⟨foldl_move_eq_foldl_step h _, fun _ => Move.stablySorted_iff⟩

/-- Four columns. -/
def quartet : Layout :=
  [{ name := "a", dataType := "INT" }, { name := "b", dataType := "INT" },
   { name := "c", dataType := "INT" }, { name := "d", dataType := "INT" }]

/-- Moves that are not given in written order, with one of an unknown column and one of a column
behind itself. -/
def scattered : List Move :=
  [⟨50, "c", .first⟩, ⟨10, "a", .after "c"⟩, ⟨50, "x", .after "a"⟩, ⟨30, "b", .after "b"⟩]

/-- The same moves in written order. -/
def gathered : List Move :=
  [⟨10, "a", .after "c"⟩, ⟨30, "b", .after "b"⟩, ⟨50, "c", .first⟩, ⟨50, "x", .after "a"⟩]

/-- Two moves that were recorded in the wrong order, carried out by their offsets. -/
theorem reorder_eq_foldl_step_scattered :
    quartet.names.Nodup ∧ Move.StablySorted scattered gathered ∧
      (quartet.reorder scattered).names = ["c", "b", "a", "d"] := by
  have hnames : quartet.names.Nodup := by decide
  have hgathered : Move.StablySorted scattered gathered := by
    refine ⟨by decide, by decide, fun offset => ?_⟩
    by_cases h : 50 = offset
    · subst h
      decide
    · simp [scattered, gathered, Move.atOffset, List.filter_cons, h]
  obtain ⟨hlayout, hsorted⟩ := reorder_eq_foldl_step quartet scattered hnames
  rw [hlayout, (hsorted gathered).mp hgathered]
  exact ⟨hnames, hgathered, by decide⟩

end AlterTable.Layout
