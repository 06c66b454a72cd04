import AlterTable.Migration
import AlterTable.Proofs.Statement.Survival

/-!
# Distinct names

Nothing checks that the names of a table's columns are distinct, and a statement can give a column
the name of another one. A statement that keeps names *apart* does not: it takes new names that are
fresh and used once, also where it renames the same column several times. The names are then
distinct after the statement if they were before, and so after every statement of a migration of
which each keeps apart the names that it finds.
-/

namespace AlterTable

/-! ## Names that changes give -/

namespace Layout

variable {l : Layout} {e : Change} {changes : List Change} {name : String}

/-- The names that changes give to columns of another name. -/
def takenNames (changes : List Change) : List String :=
  (changes.filter fun e => e.oldName ≠ e.definition.name).map fun e => e.definition.name

private theorem takenNames_cons_of_eq (h : e.oldName = e.definition.name) :
    takenNames (e :: changes) = takenNames changes := by
  rw [takenNames, List.filter_cons_of_neg (by simpa using h)]
  rfl

private theorem takenNames_cons_of_ne (h : e.oldName ≠ e.definition.name) :
    takenNames (e :: changes) = e.definition.name :: takenNames changes := by
  rw [takenNames, List.filter_cons_of_pos (by simpa using h)]
  rfl

/-- A change to a fresh name keeps names distinct. -/
theorem nodup_names_change (hnames : l.names.Nodup) (hfresh : e.definition.name ∉ l.names) :
    (l.change e).names.Nodup := by
  rcases names_change l e with hsame | ⟨front, back, hbefore, hafter⟩
  · rwa [hsame]
  · rw [hbefore, List.nodup_middle] at hnames
    rw [hafter, List.nodup_middle, List.nodup_cons]
    refine ⟨fun hmem => hfresh ?_, (List.nodup_cons.mp hnames).2⟩
    rw [hbefore]
    rcases List.mem_append.mp hmem with hmem | hmem
    · exact List.mem_append_left _ hmem
    · exact List.mem_append_right _ (List.mem_cons_of_mem _ hmem)

/-- Changes that take fresh names, each once, leave distinct names: those of before and the taken
ones at most. -/
theorem nodup_names_foldl_change (hnames : l.names.Nodup) (htaken : (takenNames changes).Nodup)
    (hfresh : ∀ name ∈ takenNames changes, name ∉ l.names) :
    (changes.foldl change l).names.Nodup ∧
      ∀ name ∈ (changes.foldl change l).names, name ∈ l.names ∨ name ∈ takenNames changes := by
  induction changes generalizing l with
  | nil => exact ⟨hnames, fun name hname => .inl hname⟩
  | cons e changes ih =>
    rw [List.foldl_cons]
    by_cases he : e.oldName = e.definition.name
    · have hsame := names_change_of_eq (l := l) he
      rw [takenNames_cons_of_eq he] at htaken hfresh ⊢
      rw [← hsame] at hnames hfresh ⊢
      exact ih hnames htaken hfresh
    · rw [takenNames_cons_of_ne he] at htaken hfresh ⊢
      obtain ⟨heOnce, hrestOnce⟩ := List.nodup_cons.mp htaken
      obtain ⟨heFresh, hrestFresh⟩ := List.forall_mem_cons.mp hfresh
      have hrest : ∀ name ∈ takenNames changes, name ∉ (l.change e).names := by
        intro name hname hmem
        rcases mem_names_change hmem with hmem | rfl
        · exact hrestFresh name hname hmem
        · exact heOnce hname
      obtain ⟨hnodup, horigin⟩ := ih (nodup_names_change hnames heFresh) hrestOnce hrest
      refine ⟨hnodup, fun name hname => ?_⟩
      rcases horigin name hname with hmem | hmem
      · rcases mem_names_change hmem with hmem | rfl
        · exact .inl hmem
        · exact .inr List.mem_cons_self
      · exact .inr (List.mem_cons_of_mem _ hmem)

end Layout

/-! ## Names after a statement -/

namespace Statement

open Layout

variable {s : Statement} {l : Layout}

/-- What the statement renames columns to is taken once and by no column of the table. What it adds
has different names, none of them one that a column is renamed to, and none of a column of the table
unless the statement drops that one. -/
structure KeepsApart (s : Statement) (l : Layout) : Prop where
  taken_nodup : (takenNames s.changedColumns).Nodup
  taken_fresh : ∀ name ∈ takenNames s.changedColumns, name ∉ l.names
  added_nodup : (names s.addedColumns).Nodup
  added_notTaken : ∀ name ∈ names s.addedColumns, name ∉ takenNames s.changedColumns
  added_fresh : ∀ name ∈ names s.addedColumns, name ∈ l.names → name ∈ s.droppedColumns

instance (s : Statement) (l : Layout) : Decidable (s.KeepsApart l) :=
  decidable_of_iff
    ((takenNames s.changedColumns).Nodup ∧ (∀ name ∈ takenNames s.changedColumns, name ∉ l.names) ∧
      (names s.addedColumns).Nodup ∧
      (∀ name ∈ names s.addedColumns, name ∉ takenNames s.changedColumns) ∧
      ∀ name ∈ names s.addedColumns, name ∈ l.names → name ∈ s.droppedColumns)
    ⟨fun ⟨h₁, h₂, h₃, h₄, h₅⟩ => ⟨h₁, h₂, h₃, h₄, h₅⟩,
      fun ⟨h₁, h₂, h₃, h₄, h₅⟩ => ⟨h₁, h₂, h₃, h₄, h₅⟩⟩

/-- A statement that keeps names apart leaves distinct names distinct. -/
theorem nodup_names_redefined (hnames : l.names.Nodup) (h : s.KeepsApart l) :
    (s.redefined l).names.Nodup := by
  have hkept := s.names_map_kept l
  obtain ⟨hchanged, horigin⟩ := nodup_names_foldl_change (l := l.map s.kept)
    (by rwa [hkept]) h.taken_nodup (by rw [hkept]; exact h.taken_fresh)
  rw [hkept] at horigin
  rw [redefined_eq, names_map_marked, names_append, List.nodup_append]
  refine ⟨hchanged.sublist (List.filter_sublist.map _), h.added_nodup, ?_⟩
  rintro name hleft _ hadded rfl
  obtain ⟨hmem, hkeep⟩ := mem_names_drop hleft
  rcases horigin name hmem with hold | htaken
  · exact hkeep (h.added_fresh name hadded hold)
  · exact h.added_notTaken name hadded htaken

end Statement

/-- With the layout of the table at hand, the layout after the statement holds what the statement
makes of it. -/
theorem Reader.exists_layout_of_read {reader : Reader} {root : Node} {l : Layout} {s : Statement}
    (h : reader.read root (some l) = .ok s) :
    ∃ after, s.layout = some after ∧ after.Perm (s.redefined l) := by
  rw [read] at h
  split at h
  next => cases h
  next =>
    cases hs : gather root reader.clauses {} with
    | error e =>
      rw [hs] at h
      cases h
    | ok s' =>
      rw [hs] at h
      cases h
      obtain ⟨after, hafter, hperm⟩ := s'.settle_perm reader l
      refine ⟨after, hafter, hperm.trans (.of_eq ?_)⟩
      -- Settling the layout changes nothing that the layout is worked out from.
      show s'.redefined l = (reader.settle s' l).redefined l
      unfold settle
      split <;> rfl

/-! ## Names after migrations -/

namespace Migration

variable {dialect : Dialect} {l : Layout} {text : String} {texts : List String}

/-- Each statement that can be read keeps apart the names in the layout that it finds. -/
def KeepsApart (dialect : Dialect) : Layout → List String → Prop
  | _, [] => True
  | l, text :: texts =>
    (∀ s, dialect.read text (some l) = .ok s → s.KeepsApart l) ∧
      KeepsApart dialect (step dialect l text).layout texts

/-- What is asked of a statement can be decided by reading it. -/
def decidableOfRead (read : Except Error Statement) (p : Statement → Prop) [DecidablePred p] :
    Decidable (∀ s, read = .ok s → p s) :=
  match read with
  | .error _ => isTrue fun _ h => nomatch h
  | .ok s => decidable_of_iff (p s) ⟨fun h _ hs => Except.ok.inj hs ▸ h, fun h => h s rfl⟩

instance decidableKeepsApart (dialect : Dialect) :
    ∀ l texts, Decidable (KeepsApart dialect l texts)
  | _, [] => isTrue trivial
  | l, text :: texts =>
    have := decidableOfRead (dialect.read text (some l)) (Statement.KeepsApart · l)
    have := decidableKeepsApart dialect (step dialect l text).layout texts
    inferInstanceAs (Decidable (_ ∧ _))

/-- One statement that keeps names apart leaves distinct names distinct, and so does one that cannot
be read. -/
theorem nodup_names_step (hnames : l.names.Nodup)
    (h : ∀ s, dialect.read text (some l) = .ok s → s.KeepsApart l) :
    (step dialect l text).layout.names.Nodup := by
  unfold step
  cases hread : dialect.read text (some l) with
  | error e => exact hnames
  | ok s =>
    have hreader : ∃ tree, dialect.reader.read tree (some l) = .ok s := by
      unfold Dialect.read at hread
      split at hread
      next => cases hread
      next tree _ =>
        split at hread
        next => cases hread
        next hs =>
          cases hread
          exact ⟨tree, hs⟩
    obtain ⟨tree, hs⟩ := hreader
    obtain ⟨after, hafter, hperm⟩ := Reader.exists_layout_of_read hs
    show (s.layout.getD l).names.Nodup
    rw [hafter]
    exact (hperm.map Column.name).nodup_iff.mpr (Statement.nodup_names_redefined hnames (h s hread))

/-- Distinct names of columns stay distinct throughout a migration of statements that keep them
apart. -/
theorem nodup_names_run (dialect : Dialect) (l : Layout) (texts : List String)
    (hnames : l.names.Nodup) (h : KeepsApart dialect l texts) :
    ∀ st ∈ run dialect l texts, st.layout.names.Nodup := by
  induction texts generalizing l with
  | nil => exact List.forall_mem_nil _
  | cons text texts ih =>
    obtain ⟨hfirst, hrest⟩ := h
    have hstep := nodup_names_step hnames hfirst
    exact List.forall_mem_cons.mpr ⟨hstep, ih _ hstep hrest⟩

/-- A migration that renames a column twice in one statement, goes on behind a statement that cannot
be read, and puts a new column in the place of a dropped one. -/
def replacing : List String :=
  ["alter table t change a c int, change c d int first", "alter table t add",
   "alter table t drop b, add b int first, change d a int"]

/-- Names are distinct after each of three statements, also after the one that cannot be read. -/
theorem nodup_names_run_replacing :
    Statement.pair.names.Nodup ∧ KeepsApart .mysql Statement.pair replacing ∧
      ∀ st ∈ run .mysql Statement.pair replacing, st.layout.names.Nodup := by
  have hnames : Statement.pair.names.Nodup := by decide
  have hapart : KeepsApart .mysql Statement.pair replacing := by decide +kernel
  exact ⟨hnames, hapart, nodup_names_run .mysql Statement.pair replacing hnames hapart⟩

/-- The names after each of its statements. -/
example : (run .mysql Statement.pair replacing).map (·.layout.names) =
    [["d", "b"], ["d", "b"], ["b", "a"]] := by
  decide +kernel

end Migration

end AlterTable
