/-!
# Columns

A column of a table has a name, a data type as written, and flags. The same record serves as the
definition that a statement gives to a column it adds or changes.
-/

namespace AlterTable.Column

/-!
## Flags

What a column is marked with: membership in the primary key, a ban on null values, automatic
numbering. A set of flags is a record of three answers, and the set operations work on the
answers one by one (`has_combine`). Each set has a number, in which flag `f` counts `f.bit`.
-/

/-- A mark that a column can carry. -/
inductive Flag where
  | primaryKey
  | notNull
  | autoIncrement
deriving DecidableEq, Repr, Inhabited

namespace Flag

/-- Every flag, in the order in which sets of flags are listed. -/
def all : List Flag := [.primaryKey, .notNull, .autoIncrement]

/-- The name under which the flag is listed. -/
def name : Flag → String
  | primaryKey => "PRIMARY_KEY"
  | notNull => "NOT_NULL"
  | autoIncrement => "AUTO_INCREMENT"

/-- What the flag counts in the number of a set of flags. -/
def bit : Flag → Nat
  | primaryKey => 1
  | notNull => 2
  | autoIncrement => 4

/-- The flag with this name, if there is one. -/
def ofName? (s : String) : Option Flag :=
  all.find? fun f => f.name == s

/-- The list of flags leaves none out. -/
theorem mem_all (f : Flag) : f ∈ all := by
  cases f <;> decide

end Flag

/-- A set of flags. -/
structure Flags where
  primaryKey : Bool := false
  notNull : Bool := false
  autoIncrement : Bool := false
deriving DecidableEq, Repr, Inhabited

namespace Flags

/-- No flag at all. -/
def empty : Flags := {}

/-- The set contains the flag. -/
def has (fs : Flags) : Flag → Bool
  | .primaryKey => fs.primaryKey
  | .notNull => fs.notNull
  | .autoIncrement => fs.autoIncrement

/-- The set of the flags that the test accepts. -/
def ofTest (p : Flag → Bool) : Flags :=
  ⟨p .primaryKey, p .notNull, p .autoIncrement⟩

/-- The set of the flags in the list. -/
def ofList (l : List Flag) : Flags :=
  ofTest l.contains

/-- The flags of the set, in the order of `Flag.all`. -/
def toList (fs : Flags) : List Flag :=
  Flag.all.filter fs.has

/-! ### Operations -/

/-- The set that answers for each flag what `op` makes of the two sets' answers. -/
def combine (op : Bool → Bool → Bool) (a b : Flags) : Flags :=
  ofTest fun f => op (a.has f) (b.has f)

/-- The flags of either set. -/
def insert (a b : Flags) : Flags := combine (· || ·) a b

/-- The flags of `a` that are not in `b`. -/
def remove (a b : Flags) : Flags := combine (fun x y => x && !y) a b

/-- The flags of exactly one of the sets. -/
def toggle (a b : Flags) : Flags := combine (· != ·) a b

/-- The flags of both sets. -/
def inter (a b : Flags) : Flags := combine (· && ·) a b

/-- The flags that are not in the set. -/
def complement (a : Flags) : Flags := ofTest fun f => !a.has f

/-- The flags of `b` put into `a`, or taken out of it. -/
def set (a b : Flags) (value : Bool) : Flags :=
  if value then a.insert b else a.remove b

/-- Every flag of `b` is in `a`. -/
def contains (a b : Flags) : Bool :=
  Flag.all.all fun f => !b.has f || a.has f

/-- Some flag is in both sets. -/
def intersects (a b : Flags) : Bool :=
  Flag.all.any fun f => a.has f && b.has f

/-! ### Writing -/

/-- The number of the set: the sum of its flags' bits. -/
def bits (fs : Flags) : Nat :=
  fs.toList.foldr (fun f n => f.bit + n) 0

/-- The names of the set's flags, in order. -/
def names (fs : Flags) : List String :=
  fs.toList.map Flag.name

/-- The names of the set's flags on one line. -/
def describe (fs : Flags) : String :=
  if fs = empty then "(empty)" else " | ".intercalate fs.names

/-! ### Laws -/

/-- Flags made from a test have just those that pass it. -/
@[simp] theorem has_ofTest (p : Flag → Bool) (f : Flag) : (ofTest p).has f = p f := by
  cases f <;> rfl

/-- Two sets of flags are combined flag by flag. -/
@[simp] theorem has_combine (op : Bool → Bool → Bool) (a b : Flags) (f : Flag) :
    (combine op a b).has f = op (a.has f) (b.has f) := by
  simp [combine]

/-- Two sets with the same flags are the same set. -/
@[ext] theorem ext_has {a b : Flags} (h : ∀ f, a.has f = b.has f) : a = b := by
  cases a
  cases b
  simpa [has] using And.intro (h .primaryKey) ⟨h .notNull, h .autoIncrement⟩

/-- A flag is listed just if it is set. -/
@[simp] theorem mem_toList {fs : Flags} {f : Flag} : f ∈ fs.toList ↔ fs.has f = true := by
  simp [toList, Flag.mem_all]

/-- A set is what is read back from the list of its flags. -/
theorem ofList_toList (fs : Flags) : ofList fs.toList = fs := by
  ext f
  rw [ofList, has_ofTest, Bool.eq_iff_iff]
  simp

end Flags

end AlterTable.Column

/-! ## Columns -/

namespace AlterTable

/-- A column, or the definition of one. -/
structure Column where
  name : String
  dataType : String
  flags : Column.Flags := {}
deriving DecidableEq, Repr, Inhabited

namespace Column

/-- The column belongs to the primary key of its table. -/
def inPrimaryKey (c : Column) : Bool :=
  c.flags.primaryKey

/-- The column with its membership in the primary key settled as given. -/
def setPrimaryKey (c : Column) (value : Bool) : Column :=
  { c with flags := c.flags.set ⟨true, false, false⟩ value }

/-- The line that shows a column: name, type and membership in the primary key. -/
def render (c : Column) : String :=
  c.name ++ " " ++ c.dataType ++ (if c.inPrimaryKey then " PRIMARY KEY" else "")

/-- Whether a column is in the primary key is what was last said. -/
@[simp] theorem inPrimaryKey_setPrimaryKey (c : Column) (value : Bool) :
    (c.setPrimaryKey value).inPrimaryKey = value := by
  cases value <;> simp [inPrimaryKey, setPrimaryKey, Flags.set, Flags.insert, Flags.remove,
    Flags.combine, Flags.ofTest, Flags.has]

end Column

end AlterTable
