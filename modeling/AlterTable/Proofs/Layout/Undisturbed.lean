import AlterTable.Proofs.Layout.Stepwise
import Mathlib.Data.List.Infix

/-!
# Moves that later moves leave alone

A move puts its column at the head of the layout or directly behind another column, and there the
column stays unless a later move disturbs it: by moving one of the columns concerned, or by putting
another column in the very place. Whatever else later moves take out and put in, also right in front
of the pair or right behind it, does not come between.

This is a matter of names alone. Taking a column of another name out and putting it back elsewhere
turns the list of names into another one that still has the pair of names side by side
(`Next.stepAfter`), or the same name at its head (`Leads.stepAfter`).
-/

namespace AlterTable

namespace Layout

variable {l : Layout} {name column anchor column' anchor' : String} {more : Layout}

/-- The layout begins with a column of this name. -/
def Leads (l : Layout) (column : String) : Prop :=
  l.names.head? = some column

/-- A column of the one name stands directly behind a column of the other. -/
def Next (l : Layout) (column anchor : String) : Prop :=
  [anchor, column] <:+: l.names

/-! ## Names -/

private theorem names_others (l : Layout) (name : String) :
    (l.others name).names = l.names.filter (· ≠ name) := by
  rw [others, names, names, List.filter_map]
  rfl

private theorem names_insertBehind (l : Layout) (anchor : String) (more : Layout) :
    (l.insertBehind anchor more).names =
      l.names.flatMap fun name => if name = anchor then name :: more.names else [name] := by
  rw [insertBehind, names, List.map_flatMap, names, names, List.flatMap_map]
  refine List.flatMap_congr fun c _ => ?_
  split <;> rfl

/-- Columns of a name begin with one if there is one. -/
theorem names_named_eq_cons (h : name ∈ l.names) :
    ∃ rest, (l.named name).names = name :: rest := by
  obtain ⟨front, c, back, rfl, rfl, hfront⟩ := exists_split h
  refine ⟨(named back c.name).names, ?_⟩
  have hnone := named_of_notMem hfront
  rw [named] at hnone ⊢
  rw [List.filter_append, hnone, List.filter_cons_of_pos (by simp)]
  rfl

/-! ## The head -/

private theorem Leads.others (h : l.Leads column) (hne : name ≠ column) :
    (l.others name).Leads column := by
  obtain ⟨rest, hnames⟩ := List.head?_eq_some_iff.mp h
  rw [Leads, names_others, hnames, List.filter_cons_of_pos (by simpa using hne.symm)]
  rfl

private theorem Leads.insertBehind (h : l.Leads column) (anchor : String) (more : Layout) :
    (l.insertBehind anchor more).Leads column := by
  obtain ⟨rest, hnames⟩ := List.head?_eq_some_iff.mp h
  rw [Leads, names_insertBehind, hnames, List.flatMap_cons]
  split <;> rfl

/-- A leading column leads after another one is put behind some column. -/
theorem Leads.stepAfter (h : l.Leads column) (hne : column' ≠ column) :
    (l.stepAfter column' anchor').Leads column := by
  rw [Layout.stepAfter]
  split
  · exact (h.others hne).insertBehind _ _
  · exact h

/-- A column that is taken to the front leads. -/
theorem leads_stepFirst (h : column ∈ l.names) : (l.stepFirst column).Leads column := by
  obtain ⟨rest, hnamed⟩ := names_named_eq_cons h
  rw [Leads, stepFirst, if_pos h, names_append, hnamed]
  rfl

/-! ## The pair -/

private theorem Next.others (h : l.Next column anchor) (hcolumn : name ≠ column)
    (hanchor : name ≠ anchor) : (l.others name).Next column anchor := by
  have hpair : [anchor, column].filter (· ≠ name) = [anchor, column] :=
    List.filter_eq_self.mpr (by simp [hcolumn.symm, hanchor.symm])
  rw [Next, names_others, ← hpair]
  exact h.filter _

/-- What is put behind another column than the anchor does not come between. -/
theorem Next.insertBehind (h : l.Next column anchor) (hanchor : anchor' ≠ anchor) (more : Layout) :
    (l.insertBehind anchor' more).Next column anchor := by
  rw [Next, names_insertBehind]
  refine .trans ?_ (h.flatMap _)
  rw [List.flatMap_cons, if_neg hanchor.symm, List.flatMap_singleton]
  split
  · exact (List.prefix_append [anchor, column] more.names).isInfix
  · exact List.infix_rfl

/-- Two neighbours stay neighbours after another column is put in front. -/
theorem Next.stepFirst (h : l.Next column anchor) (hcolumn : column' ≠ column)
    (hanchor : column' ≠ anchor) : (l.stepFirst column').Next column anchor := by
  rw [Layout.stepFirst]
  split
  · rw [Next, names_append]
    exact (h.others hcolumn hanchor).trans (List.suffix_append _ _).isInfix
  · exact h

/-- Two neighbours stay neighbours after a column is put behind another one than the first of them.
-/
theorem Next.stepAfter (h : l.Next column anchor) (hcolumn : column' ≠ column)
    (hanchor : column' ≠ anchor) (hplace : anchor' ≠ anchor) :
    (l.stepAfter column' anchor').Next column anchor := by
  rw [Layout.stepAfter]
  split
  · exact (h.others hcolumn hanchor).insertBehind hplace _
  · exact h

/-- A column that is moved behind another one stands directly behind it. -/
theorem next_stepAfter (hne : column ≠ anchor) (hc : column ∈ l.names) (ha : anchor ∈ l.names) :
    (l.stepAfter column anchor).Next column anchor := by
  obtain ⟨rest, hnamed⟩ := names_named_eq_cons hc
  have hanchor : anchor ∈ l.names.filter (· ≠ column) :=
    List.mem_filter.mpr ⟨ha, by simpa using hne.symm⟩
  rw [Layout.stepAfter, if_pos ⟨hne, hc, ha⟩, Next, names_insertBehind, names_others, hnamed]
  refine .trans ?_ (List.infix_flatMap_of_mem hanchor _)
  rw [if_pos rfl]
  exact (List.prefix_append [anchor, column] rest).isInfix

end Layout

/-! ## Moves -/

namespace Move

variable {l : Layout} {m later : Move}

/-- The move can be made: it names columns of the layout, and two different ones if it names two. -/
def Possible (m : Move) (l : Layout) : Prop :=
  match m.place with
  | .first => m.column ∈ l.names
  | .after anchor => m.column ≠ anchor ∧ m.column ∈ l.names ∧ anchor ∈ l.names

/-- The column stands where the move puts it. -/
def HoldsIn (m : Move) (l : Layout) : Prop :=
  match m.place with
  | .first => l.Leads m.column
  | .after anchor => l.Next m.column anchor

/-- The later move moves a column that the move is about, or takes the place of the moved one. -/
def Disturbs (later m : Move) : Prop :=
  match m.place with
  | .first => later.column = m.column ∨ later.place = .first
  | .after anchor => later.column = m.column ∨ later.column = anchor ∨ later.place = .after anchor

/-- Right after a move, its column stands where it was put. -/
theorem Possible.holdsIn_step (h : m.Possible l) : m.HoldsIn (l.step m) := by
  obtain ⟨offset, column, place⟩ := m
  cases place with
  | first => exact Layout.leads_stepFirst h
  | after anchor => exact Layout.next_stepAfter h.1 h.2.1 h.2.2

/-- A move that does not disturb another one leaves its column where it stands. -/
theorem HoldsIn.step (h : m.HoldsIn l) (hspares : ¬ later.Disturbs m) :
    m.HoldsIn (l.step later) := by
  obtain ⟨offset, column, place⟩ := m
  obtain ⟨offset', column', place'⟩ := later
  cases place with
  | first =>
    obtain ⟨hcolumn, hplace⟩ := not_or.mp hspares
    cases place' with
    | first => exact absurd rfl hplace
    | after anchor' => exact Layout.Leads.stepAfter h hcolumn
  | after anchor =>
    obtain ⟨hcolumn, hrest⟩ := not_or.mp hspares
    obtain ⟨hanchor, hplace⟩ := not_or.mp hrest
    cases place' with
    | first => exact Layout.Next.stepFirst h hcolumn hanchor
    | after anchor' =>
      exact Layout.Next.stepAfter h hcolumn hanchor fun heq => hplace (congrArg Place.after heq)

/-- What a move asked for holds through later moves that do not disturb it. -/
theorem HoldsIn.foldl_step {moves : List Move} (h : m.HoldsIn l)
    (hspare : ∀ later ∈ moves, ¬ later.Disturbs m) : m.HoldsIn (moves.foldl Layout.step l) := by
  induction moves generalizing l with
  | nil => exact h
  | cons later moves ih =>
    obtain ⟨hlater, hmoves⟩ := List.forall_mem_cons.mp hspare
    exact ih (h.step hlater) hmoves

/-- Whether a move can be made does not depend on the order of the columns. -/
theorem Possible.of_perm {l' : Layout} (h : m.Possible l) (hperm : l'.Perm l) : m.Possible l' := by
  have hnames : ∀ name, name ∈ l'.names ↔ name ∈ l.names :=
    fun name => (hperm.map Column.name).mem_iff
  unfold Possible at h ⊢
  split at h
  · exact (hnames _).mpr h
  · exact ⟨h.1, (hnames _).mpr h.2.1, (hnames _).mpr h.2.2⟩

end Move

namespace Layout

variable {l : Layout} {moves front back : List Move} {m : Move}

/-- A move that can be made and that no move written later disturbs holds in the end. -/
theorem holdsIn_reorder (h : l.names.Nodup) (hsplit : Move.inOrder moves = front ++ m :: back)
    (hm : m.Possible l) (hback : ∀ later ∈ back, ¬ later.Disturbs m) :
    m.HoldsIn (l.reorder moves) := by
  have hpossible : m.Possible (front.foldl step l) := by
    rw [← foldl_move_eq_foldl_step h]
    exact hm.of_perm (foldl_move_perm l front)
  rw [reorder, foldl_move_eq_foldl_step h, hsplit, List.foldl_append, List.foldl_cons]
  exact hpossible.holdsIn_step.foldl_step hback

/-- Moves that put columns right in front of a pair and right behind it, and one that is skipped. -/
def around : List Move :=
  [⟨40, "x", .after "b"⟩, ⟨10, "c", .after "a"⟩, ⟨30, "b", .first⟩, ⟨20, "d", .after "c"⟩]

/-- Of two moves around the same column both hold in the end. -/
theorem holdsIn_reorder_around :
    (quartet.reorder around).names = ["b", "a", "c", "d"] ∧
      (Move.mk 10 "c" (.after "a")).HoldsIn (quartet.reorder around) ∧
      (Move.mk 30 "b" .first).HoldsIn (quartet.reorder around) := by
  have hnames : quartet.names.Nodup := by decide
  have hsorted : Move.inOrder around =
      [⟨10, "c", .after "a"⟩, ⟨20, "d", .after "c"⟩, ⟨30, "b", .first⟩, ⟨40, "x", .after "b"⟩] :=
    Move.inOrder_eq_of_perm (by decide) (by decide)
  have hpair : Move.inOrder around = [] ++ ⟨10, "c", .after "a"⟩ ::
      [⟨20, "d", .after "c"⟩, ⟨30, "b", .first⟩, ⟨40, "x", .after "b"⟩] := hsorted
  have hhead : Move.inOrder around =
      [⟨10, "c", .after "a"⟩, ⟨20, "d", .after "c"⟩] ++ ⟨30, "b", .first⟩ ::
        [⟨40, "x", .after "b"⟩] := hsorted
  refine ⟨?_, ?_, ?_⟩
  · rw [reorder, hsorted]
    decide
  · exact holdsIn_reorder hnames hpair (by simp [Move.Possible, quartet, names])
      (by simp [Move.Disturbs])
  · exact holdsIn_reorder hnames hhead (by simp [Move.Possible, quartet, names])
      (by simp [Move.Disturbs])

end Layout

end AlterTable
