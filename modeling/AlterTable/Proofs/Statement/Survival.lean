import AlterTable.Proofs.Layout.Reordering
import AlterTable.Proofs.Statement.Redefinition
import AlterTable.Reader

/-!
# Columns and names that survive

Which columns are left after a statement, and which names they have.
-/

namespace AlterTable.Statement

/-!
## Columns that survive

Columns are dropped after columns have been redefined, and by the names that they have then. So a
statement that gives a column the name of one that it drops loses both of them. Apart from such
*displaced* columns, exactly the columns that are named are dropped.
-/

open Layout

variable {s : Statement} {l : Layout} {c : Column}

/-! ### Displaced columns -/

/-- The column gets a name that the statement drops. -/
def Displaced (s : Statement) (c : Column) : Prop :=
  ∃ e ∈ s.changedColumns, e.oldName = c.name ∧ e.definition.name ∈ s.droppedColumns

instance : DecidablePred s.Displaced := fun _ =>
  inferInstanceAs (Decidable (∃ e ∈ s.changedColumns, _ ∧ _))

/-- To be put into the primary key changes no name. -/
@[simp] theorem name_marked (s : Statement) (c : Column) : (s.marked c).name = c.name := by
  unfold marked
  split <;> rfl

/-- Definitions whose new names are no old names of others do not capture each other. -/
theorem uncaptured_of_fresh (hold : (s.changedColumns.map Change.oldName).Nodup)
    (hfresh : ∀ e ∈ s.changedColumns, ∀ f ∈ s.changedColumns, e ≠ f →
      e.definition.name ≠ f.oldName) : l.Uncaptured s.changedColumns := by
  rw [List.Nodup, List.pairwise_map] at hold
  refine hold.imp_of_mem fun {e f} he hf hne hcap => ?_
  refine hfresh e he f hf ?_ hcap.1
  rintro rfl
  exact hne rfl

/-- A column ends up with a dropped name if it had one, or if it is displaced. -/
theorem name_successor_mem_iff (hold : (s.changedColumns.map Change.oldName).Nodup)
    (hkeep : ∀ e ∈ s.changedColumns, e.oldName ∉ s.droppedColumns) :
    (s.successor c).name ∈ s.droppedColumns ↔ c.name ∈ s.droppedColumns ∨ s.Displaced c := by
  by_cases hc : c.name ∈ s.changedColumns.map Change.oldName
  · obtain ⟨e, he, heq⟩ := List.mem_map.mp hc
    rw [successor_of_mem hold he heq, name_marked, name_redefine]
    constructor
    · exact fun hnew => .inr ⟨e, he, heq, hnew⟩
    · rintro (hdropped | ⟨f, hf, hfeq, hnew⟩)
      · exact absurd (heq ▸ hdropped) (hkeep e he)
      · have hnewName := congrArg Column.name
          ((successor_of_mem hold he heq).symm.trans (successor_of_mem hold hf hfeq))
        rw [name_marked, name_redefine, name_marked, name_redefine] at hnewName
        rwa [hnewName]
  · rw [successor_of_notMem hc, name_marked, name_kept]
    constructor
    · exact .inl
    · rintro (hdropped | ⟨f, hf, hfeq, -⟩)
      · exact hdropped
      · exact absurd (hfeq ▸ List.mem_map_of_mem hf) hc

private theorem Displaced.name_notMem (h : s.Displaced c)
    (hkeep : ∀ e ∈ s.changedColumns, e.oldName ∉ s.droppedColumns) : c.name ∉ s.droppedColumns := by
  obtain ⟨e, he, heq, -⟩ := h
  exact heq ▸ hkeep e he

/-! ### The layout after the statement -/

/-- Before any move, what is left are the columns that are neither dropped nor displaced. -/
theorem redefined_eq_of_fresh (hnames : l.names.Nodup)
    (hold : (s.changedColumns.map Change.oldName).Nodup)
    (hkeep : ∀ e ∈ s.changedColumns, e.oldName ∉ s.droppedColumns)
    (hfresh : ∀ e ∈ s.changedColumns, ∀ f ∈ s.changedColumns, e ≠ f →
      e.definition.name ≠ f.oldName) :
    s.redefined l = ((l.drop s.droppedColumns).filter fun c => ¬ s.Displaced c).map s.successor ++
      s.addedColumns.map s.marked := by
  have hleft : (l.filter fun c => !s.droppedColumns.contains
      (replaced s.changedColumns (s.kept c)).name) =
        (drop l s.droppedColumns).filter fun c => ¬ s.Displaced c := by
    rw [drop, List.filter_filter]
    refine List.filter_congr fun c _ => ?_
    have hname := name_successor_mem_iff (c := c) hold hkeep
    rw [successor, name_marked] at hname
    rw [Bool.eq_iff_iff]
    simp [hname, and_comm]
  rw [redefined_eq, foldl_change_map_kept hnames hold (uncaptured_of_fresh hold hfresh), drop,
    List.filter_map, List.map_append, List.map_map]
  exact congrArg (fun kept => kept.map s.successor ++ _) hleft

/-- Columns that are not displaced are kept, whatever is said of displaced ones. -/
theorem length_filter_displaced
    (hkeep : ∀ e ∈ s.changedColumns, e.oldName ∉ s.droppedColumns) :
    ((l.drop s.droppedColumns).filter fun c => ¬ s.Displaced c).length =
      (l.drop s.droppedColumns).length ↔ ∀ c ∈ l, ¬ s.Displaced c := by
  rw [List.length_filter_eq_length_iff]
  constructor
  · intro h c hc hdisplaced
    have hmem : c ∈ l.drop s.droppedColumns :=
      List.mem_filter.mpr ⟨hc, by simpa using hdisplaced.name_notMem hkeep⟩
    simpa [hdisplaced] using h c hmem
  · intro h c hc
    simpa using h c (List.mem_filter.mp hc).1

private theorem length_drop_eq (l : Layout) (names : List String) :
    (l.drop names).length = l.length - l.countP fun c => names.contains c.name := by
  have hsplit := List.length_eq_countP_add_countP (l := l) fun c => names.contains c.name
  have hdrop : (l.drop names).length = l.countP fun c => ¬ names.contains c.name := by
    rw [drop, List.countP_eq_length_filter]
    simp
  omega

/-- The layout after the statement holds what the statement makes of the columns. -/
theorem settle_perm (reader : Reader) (s : Statement) (l : Layout) :
    ∃ after, (reader.settle s l).layout = some after ∧ after.Perm (s.redefined l) := by
  unfold Reader.settle
  split
  · exact ⟨_, rfl, reorder_perm ..⟩
  · exact ⟨_, rfl, .refl _⟩

/-- Where no definition is for a dropped column, or for a column that another definition names,
the layout after the statement holds every column that is not dropped, redefined as the statement
says, and every added one just if no column is displaced, and only then it has as many columns as
that makes. -/
theorem settle_survivors (reader : Reader) (s : Statement) (l : Layout) (hnames : l.names.Nodup)
    (hold : (s.changedColumns.map Change.oldName).Nodup)
    (hkeep : ∀ e ∈ s.changedColumns, e.oldName ∉ s.droppedColumns)
    (hfresh : ∀ e ∈ s.changedColumns, ∀ f ∈ s.changedColumns, e ≠ f →
      e.definition.name ≠ f.oldName) :
    ∃ after, (reader.settle s l).layout = some after ∧
      ((∀ c ∈ l, ¬ s.Displaced c) ↔ after.Perm
        ((l.filter fun c => c.name ∉ s.droppedColumns).map s.successor ++
          s.addedColumns.map s.marked)) ∧
      ((∀ c ∈ l, ¬ s.Displaced c) ↔ after.length =
        l.length - (l.countP fun c => c.name ∈ s.droppedColumns) + s.addedColumns.length) := by
  obtain ⟨after, hafter, hperm⟩ := settle_perm reader s l
  rw [redefined_eq_of_fresh hnames hold hkeep hfresh] at hperm
  have hdrop : (l.filter fun c => c.name ∉ s.droppedColumns) = l.drop s.droppedColumns :=
    List.filter_congr fun c _ => by simp
  have hcount : (l.countP fun c => c.name ∈ s.droppedColumns) =
      l.countP fun c => s.droppedColumns.contains c.name :=
    List.countP_congr fun c _ => by simp
  have hlength := length_filter_displaced (l := l) hkeep
  have hafterLength := hperm.length_eq
  rw [List.length_append, List.length_map, List.length_map] at hafterLength
  rw [hdrop, hcount, ← length_drop_eq]
  refine ⟨after, hafter, ⟨fun h => ?_, fun h => ?_⟩, ⟨fun h => ?_, fun h => ?_⟩⟩
  · rwa [List.filter_eq_self.mpr fun c hc => by simpa using h c (List.mem_filter.mp hc).1] at hperm
  · have hboth := hafterLength.symm.trans h.length_eq
    rw [List.length_append, List.length_map, List.length_map] at hboth
    exact hlength.mp (by omega)
  · rw [hafterLength, hlength.mpr h]
  · exact hlength.mp (by omega)

/-- Of two columns the first one gets a new name, and the second one is dropped. -/
def renameAndDrop : Statement where
  changedColumns := [⟨"a", { name := "c", dataType := "INT" }⟩]
  droppedColumns := ["b"]

/-- A renaming and a drop that displaces no column. -/
theorem settle_survivors_renameAndDrop :
    (pair.names.Nodup ∧ (renameAndDrop.changedColumns.map Change.oldName).Nodup ∧
      (∀ e ∈ renameAndDrop.changedColumns, e.oldName ∉ renameAndDrop.droppedColumns) ∧
      ∀ e ∈ renameAndDrop.changedColumns, ∀ f ∈ renameAndDrop.changedColumns, e ≠ f →
        e.definition.name ≠ f.oldName) ∧
    (∀ c ∈ pair, ¬ renameAndDrop.Displaced c) ∧
    ∃ after, (Reader.mysql.settle renameAndDrop pair).layout = some after ∧ after.length = 1 := by
  have hnames : pair.names.Nodup := by decide
  have hold : (renameAndDrop.changedColumns.map Change.oldName).Nodup := by decide
  have hkeep : ∀ e ∈ renameAndDrop.changedColumns, e.oldName ∉ renameAndDrop.droppedColumns := by
    decide
  have hfresh : ∀ e ∈ renameAndDrop.changedColumns, ∀ f ∈ renameAndDrop.changedColumns, e ≠ f →
      e.definition.name ≠ f.oldName := by decide
  have hplain : ∀ c ∈ pair, ¬ renameAndDrop.Displaced c := by decide
  obtain ⟨after, hafter, -, hlength⟩ :=
    settle_survivors .mysql renameAndDrop pair hnames hold hkeep hfresh
  exact ⟨⟨hnames, hold, hkeep, hfresh⟩, hplain, after, hafter, hlength.mp hplain⟩

/-- A column that gets the name of a dropped one is lost together with it. -/
example :
    let displacing : Statement :=
      { changedColumns := [⟨"a", { name := "b", dataType := "INT" }⟩], droppedColumns := ["b"] }
    displacing.redefined pair = [] := by
  decide

end AlterTable.Statement

/-!
## Names after a statement

Which names the columns have once a statement has been applied: those that they had before and those
that the statement gives. So a name that no column had, and that the statement gives to no column of
another name, is the name of no column afterwards either, and a definition for a column of such a
name can be left out.
-/

namespace AlterTable

/-! ### Names after changes -/

namespace Layout

variable {l : Layout} {e : Change} {changes front back : List Change} {name : String}

/-- A change puts the new name where the old one was, if anywhere. -/
theorem names_change (l : Layout) (e : Change) : (l.change e).names = l.names ∨
    ∃ front back, l.names = front ++ e.oldName :: back ∧
      (l.change e).names = front ++ e.definition.name :: back := by
  by_cases hmem : e.oldName ∈ l.names
  · obtain ⟨front, c, back, rfl, hc, hfront⟩ := exists_split hmem
    refine .inr ⟨front.names, back.names, ?_, ?_⟩
    · rw [names_append, names_cons, hc]
    · rw [change_append_of_notMem hfront, change_cons hc, names_append, names_cons, name_redefine]
  · rw [change_of_not_mem hmem]
    exact .inl rfl

/-- A change that keeps the name changes no names. -/
theorem names_change_of_eq (h : e.oldName = e.definition.name) :
    (l.change e).names = l.names := by
  rcases names_change l e with hsame | ⟨front, back, hbefore, hafter⟩
  · exact hsame
  · rw [hafter, hbefore, h]

/-- After a change the only new name is that of its definition. -/
theorem mem_names_change (h : name ∈ (l.change e).names) :
    name ∈ l.names ∨ name = e.definition.name := by
  rcases names_change l e with hsame | ⟨front, back, hbefore, hafter⟩
  · rw [hsame] at h
    exact .inl h
  · rw [hafter, List.mem_append, List.mem_cons] at h
    rw [hbefore, List.mem_append, List.mem_cons]
    rcases h with h | h | h
    · exact .inl (.inl h)
    · exact .inr h
    · exact .inl (.inr (.inr h))

/-- A name does not come from nowhere: only a column that has it already can be given it. -/
theorem notMem_names_foldl_change (h : name ∉ l.names)
    (hgiven : ∀ e ∈ changes, e.definition.name = name → e.oldName = name) :
    name ∉ (changes.foldl change l).names := by
  induction changes generalizing l with
  | nil => exact h
  | cons e changes ih =>
    obtain ⟨he, hrest⟩ := List.forall_mem_cons.mp hgiven
    refine ih (fun hmem => ?_) hrest
    rcases mem_names_change hmem with hold | hnew
    · exact h hold
    · rw [change_of_not_mem (he hnew.symm ▸ h)] at hmem
      exact h hmem

/-- A change of a column that is not there when its turn comes can be left out. -/
theorem foldl_change_leaveOut (h : e.oldName ∉ l.names)
    (hgiven : ∀ d ∈ front, d.definition.name = e.oldName → d.oldName = e.oldName) :
    (front ++ e :: back).foldl change l = (front ++ back).foldl change l := by
  have habsent := notMem_names_foldl_change h hgiven
  rw [List.foldl_append, List.foldl_cons, change_of_not_mem habsent, List.foldl_append]

end Layout

/-! ### Names after all of it -/

namespace Statement

open Layout

variable {s : Statement} {l : Layout} {name : String}

/-- To be put into the primary key changes no names. -/
theorem names_map_marked (s : Statement) (l : Layout) : names (l.map s.marked) = l.names := by
  rw [names, List.map_map]
  exact List.map_congr_left fun c _ => s.name_marked c

/-- The names that are left after a drop are old ones that are not dropped. -/
theorem mem_names_drop {names' : List String} (h : name ∈ (l.drop names').names) :
    name ∈ l.names ∧ name ∉ names' := by
  obtain ⟨c, hc, rfl⟩ := List.mem_map.mp h
  obtain ⟨hmem, hkept⟩ := List.mem_filter.mp hc
  exact ⟨List.mem_map_of_mem hmem, by simpa using hkept⟩

/-- A name that the table does not have, and that the statement does not give, is not there
afterwards. -/
theorem notMem_names_redefined (h : name ∉ l.names)
    (hgiven : ∀ e ∈ s.changedColumns, e.definition.name = name → e.oldName = name)
    (hadded : name ∉ names s.addedColumns) : name ∉ (s.redefined l).names := by
  have hkept : name ∉ names (l.map s.kept) := by rwa [names_map_kept]
  rw [redefined_eq, names_map_marked, names_append, List.mem_append, not_or]
  exact ⟨fun hmem => notMem_names_foldl_change hkept hgiven (mem_names_drop hmem).1, hadded⟩

end Statement

end AlterTable
