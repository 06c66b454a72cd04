import AlterTable.Proofs.Statement.Survival
import Mathlib.Data.List.Forall2

/-!
# The primary key after a statement

Five steps of a statement touch the primary key: it is taken off, columns stay in it by whatever
definition replaces them, definitions put columns into it themselves, columns leave and enter the
table, and at last it is put on by name. Where definitions go to the columns that they are meant
for, what comes of it can be said column by column, without the order of the steps: of a column that
was there before (`Descends`), and of a column that is added (`Enters`).
-/

namespace AlterTable

/-! ## Columns but for the primary key -/

namespace Column

variable {c d e : Column}

/-- The columns differ in their membership in the primary key, if at all. -/
structure SameButKey (c d : Column) : Prop where
  name : c.name = d.name
  dataType : c.dataType = d.dataType
  flags : ∀ f, f ≠ .primaryKey → c.flags.has f = d.flags.has f

/-- A column differs in nothing from itself. -/
theorem SameButKey.refl (c : Column) : c.SameButKey c :=
  ⟨rfl, rfl, fun _ _ => rfl⟩

private theorem SameButKey.trans (h : c.SameButKey d) (h' : d.SameButKey e) : c.SameButKey e :=
  ⟨h.name.trans h'.name, h.dataType.trans h'.dataType,
    fun f hf => (h.flags f hf).trans (h'.flags f hf)⟩

/-- Settling the membership in the primary key settles nothing else. -/
theorem sameButKey_setPrimaryKey (c : Column) (value : Bool) :
    (c.setPrimaryKey value).SameButKey c where
  name := rfl
  dataType := rfl
  flags f hf := by
    have hnot : (Flags.mk true false false).has f = false := by
      cases f with
      | primaryKey => exact absurd rfl hf
      | notNull => rfl
      | autoIncrement => rfl
    cases value <;> simp [setPrimaryKey, Flags.set, Flags.insert, Flags.remove, hnot]

end Column

namespace Statement

open Layout

variable {s : Statement} {l : Layout} {c p : Column} {e : Change}

/-! ## What the steps make of a column -/

/-- A column is still in the primary key if it was and the key is not dropped. -/
theorem inPrimaryKey_kept : (s.kept p).inPrimaryKey = true ↔
    p.inPrimaryKey = true ∧ s.dropsPrimaryKey = false := by
  unfold kept
  cases s.dropsPrimaryKey <;> simp

/-- A redefined column is in the primary key if it was or its definition says so. -/
theorem inPrimaryKey_redefine (old definition : Column) :
    (redefine old definition).inPrimaryKey = true ↔
      old.inPrimaryKey = true ∨ definition.inPrimaryKey = true := by
  unfold redefine
  split
  next hold => simp [hold]
  next hold => simp [hold]

/-- In the end a column is in the primary key if it was or the new key has its name. -/
theorem inPrimaryKey_marked : (s.marked c).inPrimaryKey = true ↔
    c.inPrimaryKey = true ∨ c.name ∈ s.addedPrimaryKey := by
  unfold marked
  by_cases hc : c.name ∈ s.addedPrimaryKey
  · simp [hc]
  · simp [hc]

private theorem sameButKey_kept (s : Statement) (p : Column) : (s.kept p).SameButKey p := by
  unfold kept
  split
  · exact Column.sameButKey_setPrimaryKey p false
  · exact .refl p

private theorem sameButKey_redefine (old definition : Column) :
    (redefine old definition).SameButKey definition := by
  unfold redefine
  split
  · exact Column.sameButKey_setPrimaryKey definition true
  · exact .refl definition

private theorem sameButKey_marked (s : Statement) (c : Column) : (s.marked c).SameButKey c := by
  unfold marked
  split
  · exact Column.sameButKey_setPrimaryKey c true
  · exact .refl c

/-! ## Columns before and after -/

/-- The name that the statement leaves to a column of the table. -/
def newName (s : Statement) (p : Column) : String :=
  match s.changedColumns.find? (·.oldName == p.name) with
  | some e => e.definition.name
  | none => p.name

/-- After the statement, `c` is what was `p` before: as the definition for `p` says if there is one,
and in the primary key if it was and is not taken off it, if that definition says so, or if it is
put into it by its new name. -/
structure Descends (s : Statement) (p c : Column) : Prop where
  inPrimaryKey : c.inPrimaryKey = true ↔
    (p.inPrimaryKey = true ∧ s.dropsPrimaryKey = false) ∨
      (∃ e ∈ s.changedColumns, e.oldName = p.name ∧ e.definition.inPrimaryKey = true) ∨
      c.name ∈ s.addedPrimaryKey
  replaced : ∀ e ∈ s.changedColumns, e.oldName = p.name → c.SameButKey e.definition
  kept : (∀ e ∈ s.changedColumns, e.oldName ≠ p.name) → c.SameButKey p

/-- After the statement, `c` is the column that the statement adds by the definition `d`. -/
structure Enters (s : Statement) (d c : Column) : Prop where
  inPrimaryKey : c.inPrimaryKey = true ↔ d.inPrimaryKey = true ∨ d.name ∈ s.addedPrimaryKey
  same : c.SameButKey d

/-- A column has in the end the name that the statement leaves to it. -/
theorem name_successor (s : Statement) (p : Column) : (s.successor p).name = s.newName p := by
  rw [successor, name_marked, replaced, name_kept, newName]
  cases s.changedColumns.find? (·.oldName == p.name) with
  | some e => exact name_redefine ..
  | none => exact name_kept s p

/-- A column that a change is meant for descends to what the change says. -/
theorem descends_of_mem (hold : (s.changedColumns.map Change.oldName).Nodup)
    (he : e ∈ s.changedColumns) (hp : e.oldName = p.name) : s.Descends p (s.successor p) := by
  have hsuccessor := successor_of_mem hold he hp
  have hsame : (s.successor p).SameButKey e.definition := by
    rw [hsuccessor]
    exact (sameButKey_marked s _).trans (sameButKey_redefine ..)
  -- No other definition is for the same column.
  have honly : ∀ d ∈ s.changedColumns, d.oldName = p.name → d = e := fun d hd hdp =>
    List.inj_on_of_nodup_map hold hd he (hdp.trans hp.symm)
  refine ⟨?_, fun d hd hdp => honly d hd hdp ▸ hsame, fun hnone => absurd hp (hnone e he)⟩
  rw [hsame.name, hsuccessor, inPrimaryKey_marked, inPrimaryKey_redefine, inPrimaryKey_kept,
    name_redefine, or_assoc]
  refine or_congr_right (or_congr_left ?_)
  constructor
  · intro hkey
    exact ⟨e, he, hp, hkey⟩
  · rintro ⟨d, hd, hdp, hkey⟩
    exact honly d hd hdp ▸ hkey

/-- A column that no change is meant for descends to itself. -/
theorem descends_of_notMem (hp : p.name ∉ s.changedColumns.map Change.oldName) :
    s.Descends p (s.successor p) := by
  have hnone : ∀ e ∈ s.changedColumns, e.oldName ≠ p.name :=
    fun e he heq => hp (heq ▸ List.mem_map_of_mem he)
  have hsuccessor := successor_of_notMem hp
  have hsame : (s.successor p).SameButKey p := by
    rw [hsuccessor]
    exact (sameButKey_marked s _).trans (sameButKey_kept s p)
  refine ⟨?_, fun e he heq => absurd heq (hnone e he), fun _ => hsame⟩
  rw [hsame.name, hsuccessor, inPrimaryKey_marked, inPrimaryKey_kept, name_kept]
  refine or_congr_right ?_
  constructor
  · exact .inr
  · rintro (⟨e, he, heq, -⟩ | hadded)
    · exact absurd heq (hnone e he)
    · exact hadded

/-- What the statement makes of a column descends from it. -/
theorem descends_successor (hold : (s.changedColumns.map Change.oldName).Nodup) (p : Column) :
    s.Descends p (s.successor p) := by
  by_cases hp : p.name ∈ s.changedColumns.map Change.oldName
  · obtain ⟨e, he, heq⟩ := List.mem_map.mp hp
    exact descends_of_mem hold he heq
  · exact descends_of_notMem hp

/-- An added column enters by its definition. -/
theorem enters_marked (s : Statement) (d : Column) : s.Enters d (s.marked d) :=
  ⟨inPrimaryKey_marked, sameButKey_marked s d⟩

/-! ## Layouts before and after -/

/-- Before any move, the columns that do not end up with a dropped name stand in front of the added
ones. -/
theorem redefined_eq_of_uncaptured (hnames : l.names.Nodup)
    (hold : (s.changedColumns.map Change.oldName).Nodup)
    (hfree : l.Uncaptured s.changedColumns) :
    s.redefined l = (l.filter fun p => s.newName p ∉ s.droppedColumns).map s.successor ++
      s.addedColumns.map s.marked := by
  have hleft : (l.filter fun p => !s.droppedColumns.contains
      (replaced s.changedColumns (s.kept p)).name) =
        l.filter fun p => s.newName p ∉ s.droppedColumns := by
    refine List.filter_congr fun p _ => ?_
    rw [← name_successor, successor, name_marked]
    simp
  rw [redefined_eq, foldl_change_map_kept hnames hold hfree, drop, List.filter_map,
    List.map_append, List.map_map]
  exact congrArg (fun olds => olds.map s.successor ++ _) hleft

/-- Where definitions are for different columns and none takes a name that another one is for, each
column after the statement descends from one of the columns that do not end up with a dropped name,
or is one of the added columns. -/
theorem settle_primaryKey (reader : Reader) (s : Statement) (l : Layout) (hnames : l.names.Nodup)
    (hold : (s.changedColumns.map Change.oldName).Nodup)
    (hfresh : ∀ e ∈ s.changedColumns, ∀ f ∈ s.changedColumns, e ≠ f →
      e.definition.name ≠ f.oldName) :
    ∃ olds news after, s.redefined l = olds ++ news ∧
      List.Forall₂ s.Descends (l.filter fun p => s.newName p ∉ s.droppedColumns) olds ∧
      List.Forall₂ s.Enters s.addedColumns news ∧
      (reader.settle s l).layout = some after ∧ after.Perm (olds ++ news) := by
  obtain ⟨after, hafter, hperm⟩ := settle_perm reader s l
  have hredefined := redefined_eq_of_uncaptured hnames hold (uncaptured_of_fresh hold hfresh)
  refine ⟨_, _, after, hredefined, ?_, ?_, hafter, hredefined ▸ hperm⟩
  · rw [List.forall₂_map_right_iff, List.forall₂_same]
    exact fun p _ => descends_successor hold p
  · rw [List.forall₂_map_right_iff, List.forall₂_same]
    exact fun d _ => enters_marked s d

/-- A table of two columns with one of them as its key. -/
def keyed : Layout :=
  [{ name := "id", dataType := "INT", flags := { primaryKey := true } },
   { name := "code", dataType := "TEXT" }]

/-- The key column gets a new name, another column is redefined under the name by which it is put
into the key, and a column is added. -/
def rekeying : Statement where
  changedColumns :=
    [⟨"id", { name := "number", dataType := "BIGINT", flags := { notNull := true } }⟩,
     ⟨"code", { name := "sign", dataType := "CHAR" }⟩]
  addedColumns := [{ name := "note", dataType := "TEXT" }]
  addedPrimaryKey := ["sign", "code"]

/-- The key column stays in the key under its new name, and the other one enters by its new name. -/
theorem settle_primaryKey_rekeying :
    (keyed.names.Nodup ∧ (rekeying.changedColumns.map Change.oldName).Nodup ∧
      ∀ e ∈ rekeying.changedColumns, ∀ f ∈ rekeying.changedColumns, e ≠ f →
        e.definition.name ≠ f.oldName) ∧
    ∃ olds news after, rekeying.redefined keyed = olds ++ news ∧
      List.Forall₂ rekeying.Descends keyed olds ∧
      List.Forall₂ rekeying.Enters rekeying.addedColumns news ∧
      (Reader.mysql.settle rekeying keyed).layout = some after ∧ after.Perm (olds ++ news) ∧
      (rekeying.redefined keyed).primaryKey = ["number", "sign"] := by
  have hnames : keyed.names.Nodup := by decide
  have hold : (rekeying.changedColumns.map Change.oldName).Nodup := by decide
  have hfresh : ∀ e ∈ rekeying.changedColumns, ∀ f ∈ rekeying.changedColumns, e ≠ f →
      e.definition.name ≠ f.oldName := by decide
  obtain ⟨olds, news, after, hredefined, holds, hnews, hafter, hperm⟩ :=
    settle_primaryKey .mysql rekeying keyed hnames hold hfresh
  exact ⟨⟨hnames, hold, hfresh⟩, olds, news, after, hredefined, holds, hnews, hafter, hperm,
    by decide⟩

end Statement

end AlterTable
