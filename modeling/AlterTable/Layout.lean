import AlterTable.Column

/-!
# Layouts

The layout of a table is the list of its columns in order. Names need not be distinct: nothing
that reads a layout checks it.

A move takes a column to the front of the layout or directly behind another column. Moves are
made one at a time in the order in which they were written, each on the outcome of those before
it, and a move that names an unknown column leaves the layout as it is.

`reorder` sorts a list of moves by their offsets, moves of one offset keeping their order, and
makes them. `insertionIndex` is the index arithmetic behind a move: where to put back what was
taken out, so that it lands behind its anchor.
-/

namespace AlterTable

/-! ## Columns in order -/

/-- The columns of a table, in order. -/
abbrev Layout := List Column

namespace Layout

/-- The names of the columns, in order. -/
def names (l : Layout) : List String :=
  l.map Column.name

/-- The names of the columns of the primary key, in order. -/
def primaryKey (l : Layout) : List String :=
  names (l.filter Column.inPrimaryKey)

/-- The lines that show the columns, in order. -/
def render (l : Layout) : List String :=
  l.map Column.render

end Layout

/-! ## Moving columns -/

/-- Where a moved column goes. -/
inductive Place where
  | first
  | after (anchor : String)
deriving DecidableEq, Repr, Inhabited

/-- A column to be moved, where to, and the offset at which the statement says so. -/
structure Move where
  offset : Nat
  column : String
  place : Place
deriving DecidableEq, Repr, Inhabited

namespace Move

/-- The column that is moved to the front, if the move is of that kind. -/
def first? (m : Move) : Option String :=
  match m.place with
  | .first => some m.column
  | .after _ => none

/-- The column that the moved one is to stand behind, if the move names one. -/
def anchor? (m : Move) : Option String :=
  match m.place with
  | .first => none
  | .after anchor => some anchor

/-- The moves in the order in which they were written. -/
def inOrder (moves : List Move) : List Move :=
  moves.mergeSort fun a b => a.offset ≤ b.offset

/-- Putting moves in order only rearranges them. -/
theorem inOrder_perm (moves : List Move) : (inOrder moves).Perm moves :=
  List.mergeSort_perm _ _

end Move

namespace Layout

/-! ### Indices -/

/-- Where to put the element taken out at `moved`, so that it stands directly behind the one
that was at `anchor`: taking it out shifts an anchor behind it one place to the left. -/
def insertionIndex (moved anchor : Nat) : Nat :=
  if anchor < moved then anchor + 1 else anchor

/-- The index of the last column of this name. -/
def lastIndex? (name : String) : Layout → Option Nat
  | [] => none
  | c :: l => match lastIndex? name l with
    | some i => some (i + 1)
    | none => if c.name = name then some 0 else none

/-- The indices of two named columns. The layout is searched up to where both names have been
seen, and a name that occurs more than once in that part counts where it occurs last. -/
def locate? (l : Layout) (column anchor : String) : Option (Nat × Nat) := do
  let i ← l.findIdx? (·.name == column)
  let j ← l.findIdx? (·.name == anchor)
  let seen := l.take (max i j + 1)
  return (← lastIndex? column seen, ← lastIndex? anchor seen)

/-- The list with the element at index `moved` taken out and put behind the one at `anchor`. -/
def relocate {α : Type} (l : List α) (moved anchor : Nat) : List α :=
  match l[moved]? with
  | some a => (l.eraseIdx moved).insertIdx (insertionIndex moved anchor) a
  | none => l

/-! ### Moves -/

/-- The layout with the first column of this name at the front. -/
def moveFirst (l : Layout) (column : String) : Layout :=
  match l.findIdx? (·.name == column) with
  | some i => l[i]?.toList ++ l.eraseIdx i
  | none => l

/-- The layout with a column directly behind another; one that stands there already stays. -/
def moveAfter (l : Layout) (column anchor : String) : Layout :=
  match l.locate? column anchor with
  | some (i, j) => if i = j + 1 then l else relocate l i j
  | none => l

/-- The layout after one move. -/
def move (l : Layout) (m : Move) : Layout :=
  match m.place with
  | .first => l.moveFirst m.column
  | .after anchor => l.moveAfter m.column anchor

/-- The layout after the moves in written order. -/
def reorder (l : Layout) (moves : List Move) : Layout :=
  (Move.inOrder moves).foldl move l

/-! ### Laws -/

/-- Where the moved element stands right behind its anchor, it is put back where it was. -/
theorem insertionIndex_succ (anchor : Nat) : insertionIndex (anchor + 1) anchor = anchor + 1 := by
  simp [insertionIndex]

/-- Behind itself an element is put back where it was. -/
theorem insertionIndex_self (i : Nat) : insertionIndex i i = i := by
  simp [insertionIndex]

/-- The index to put the element back at lies within what is left of the list. -/
theorem insertionIndex_lt {moved anchor n : Nat} (hm : moved < n) (ha : anchor < n) :
    insertionIndex moved anchor < n := by
  unfold insertionIndex
  split <;> omega

end Layout

end AlterTable
