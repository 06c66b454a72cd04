import AlterTable.Proofs.Layout.Reordering
import AlterTable.Statement

/-!
# Redefined columns

Columns are redefined one after the other, and each definition goes to the first column that has
the old name by then. That is the column meant, unless a definition made earlier has given the name
to a column that stands further to the front. Such a definition *captures* the later one, which is
then diverted: its own column is left as it was, and the other one is redefined once more
(`Layout.exists_diverted`). The statement does to each column what it says of it just if no
definition captures another.
-/

namespace AlterTable

namespace Layout

variable {l front back : Layout} {c x : Column} {d e : Change} {changes done : List Change}
variable {i : Nat} {name : String}

/-! ## Single changes -/

/-- A change whose old name is not in front goes to the columns behind. -/
theorem change_append_of_notMem (h : e.oldName ∉ front.names) :
    change (front ++ back) e = front ++ back.change e := by
  induction front with
  | nil => rfl
  | cons x front ih =>
    obtain ⟨hx, hfront⟩ := not_or.mp (mt List.mem_cons.mpr h)
    rw [List.cons_append, change, if_neg (Ne.symm hx), ih hfront, List.cons_append]

/-- A change goes to the first column that has its old name. -/
theorem change_cons (h : c.name = e.oldName) :
    change (c :: back) e = redefine c e.definition :: back :=
  if_pos h

/-- A column of another name is left where and as it is. -/
theorem getElem?_change_of_ne (h : l[i]? = some c) (hne : c.name ≠ e.oldName) :
    (l.change e)[i]? = some c := by
  induction l generalizing i with
  | nil => cases h
  | cons x l ih =>
    rw [change]
    cases i with
    | zero =>
      cases h
      rw [if_neg hne]
      rfl
    | succ i =>
      split
      · exact h
      · exact ih h

private theorem getElem?_foldl_change_of_ne (h : l[i]? = some c)
    (hne : ∀ e ∈ changes, c.name ≠ e.oldName) : (changes.foldl change l)[i]? = some c := by
  induction changes generalizing l with
  | nil => exact h
  | cons e changes ih =>
    obtain ⟨he, hchanges⟩ := List.forall_mem_cons.mp hne
    exact ih (getElem?_change_of_ne h he) hchanges

/-- A redefined column has the name of its definition. -/
@[simp] theorem name_redefine (old definition : Column) :
    (redefine old definition).name = definition.name := by
  unfold redefine
  split <;> rfl

/-! ## All changes at once -/

/-- What becomes of a column if each change goes to the column that it is meant for. -/
def replaced (changes : List Change) (c : Column) : Column :=
  match changes.find? (·.oldName == c.name) with
  | some e => redefine c e.definition
  | none => c

/-- A column that no change is meant for stays as it is. -/
theorem replaced_of_notMem (h : c.name ∉ changes.map Change.oldName) :
    replaced changes c = c := by
  have hnone : changes.find? (·.oldName == c.name) = none := by
    refine List.find?_eq_none.mpr fun e he heq => h ?_
    exact List.mem_map.mpr ⟨e, he, by simpa using heq⟩
  rw [replaced, hnone]

/-- With distinct old names, a change is the one that its column meets. -/
theorem replaced_of_mem (hold : (changes.map Change.oldName).Nodup) (he : e ∈ changes)
    (hc : e.oldName = c.name) : replaced changes c = redefine c e.definition := by
  induction changes with
  | nil => cases he
  | cons d changes ih =>
    obtain ⟨hd, hchanges⟩ := List.nodup_cons.mp hold
    rcases List.mem_cons.mp he with rfl | he
    · rw [replaced, List.find?_cons_of_pos (by simpa using hc)]
    · have hne : d.oldName ≠ c.name := fun h => hd (h.trans hc.symm ▸ List.mem_map_of_mem he)
      rw [replaced, List.find?_cons_of_neg (by simpa using hne)]
      exact ih hchanges he

private theorem replaced_append_of_ne (h : c.name ≠ e.oldName) :
    replaced (changes ++ [e]) c = replaced changes c := by
  have hnone : [e].find? (·.oldName == c.name) = none :=
    List.find?_cons_of_neg (by simpa using h.symm)
  rw [replaced, List.find?_append, hnone, Option.or_none]
  rfl

private theorem replaced_append_self (hc : c.name = e.oldName)
    (hfresh : e.oldName ∉ changes.map Change.oldName) :
    replaced (changes ++ [e]) c = redefine c e.definition := by
  have hnone : changes.find? (·.oldName == c.name) = none := by
    refine List.find?_eq_none.mpr fun d hd heq => hfresh ?_
    exact List.mem_map.mpr ⟨d, hd, (by simpa using heq : d.oldName = c.name).trans hc⟩
  rw [replaced, List.find?_append, hnone, Option.none_or,
    List.find?_cons_of_pos (by simpa using hc.symm)]

/-! ## Captures -/

/-- Made first, the change `d` gives the name of the column that `e` is about to a column that
stands before it. -/
def Captures (l : Layout) (d e : Change) : Prop :=
  d.definition.name = e.oldName ∧ l.names.idxOf d.oldName < l.names.idxOf e.oldName

/-- No change captures a later one. -/
def Uncaptured (l : Layout) (changes : List Change) : Prop :=
  changes.Pairwise fun d e => ¬ l.Captures d e

instance (d e : Change) : Decidable (l.Captures d e) :=
  inferInstanceAs (Decidable (_ ∧ _))

instance : Decidable (l.Uncaptured changes) :=
  inferInstanceAs (Decidable (List.Pairwise _ _))

/-- Where no change made so far captures the next one, no column before its own has its name. -/
theorem name_replaced_ne (h : ∀ d ∈ done, ¬ l.Captures d e) (hx : x.name ≠ e.oldName)
    (hlt : l.names.idxOf x.name < l.names.idxOf e.oldName) :
    (replaced done x).name ≠ e.oldName := by
  unfold replaced
  split
  next d hd =>
    have hold : d.oldName = x.name := by simpa using List.find?_some hd
    intro hname
    rw [name_redefine] at hname
    refine h d (List.mem_of_find?_eq_some hd) ⟨hname, ?_⟩
    rwa [hold]
  next => exact hx

private theorem idxOf_append_cons (hfront : name ∉ front.names) (hc : c.name = name) :
    (names (front ++ c :: back)).idxOf name = front.length := by
  rw [names_append, List.idxOf_append_of_notMem hfront, names, names, List.map_cons, hc,
    List.idxOf_cons_self, Nat.add_zero, List.length_map]

private theorem idxOf_append_lt (h : name ∈ front.names) :
    (names (front ++ back)).idxOf name < front.length := by
  rw [names_append, List.idxOf_append_of_mem h]
  exact Nat.lt_of_lt_of_eq (List.idxOf_lt_length_of_mem h) (List.length_map _)

/-- A further change that is not captured goes to the column that it is meant for. -/
theorem change_map_replaced (hnames : l.names.Nodup)
    (hfresh : e.oldName ∉ done.map Change.oldName) (h : ∀ d ∈ done, ¬ l.Captures d e) :
    change (l.map (replaced done)) e = l.map (replaced (done ++ [e])) := by
  by_cases hmem : e.oldName ∈ l.names
  · obtain ⟨front, c, back, rfl, hc, hfront⟩ := exists_split hmem
    have hne : ∀ x ∈ front ++ back, x.name ≠ e.oldName := by
      rw [names, List.map_append, List.map_cons, hc] at hnames
      have hdistinct := (List.nodup_middle.mp hnames)
      intro x hx heq
      refine (List.nodup_cons.mp hdistinct).1 ?_
      rw [← heq, ← List.map_append]
      exact List.mem_map_of_mem hx
    have hbefore : e.oldName ∉ names (front.map (replaced done)) := by
      intro hname
      obtain ⟨y, hy, hname⟩ := List.mem_map.mp hname
      obtain ⟨x, hx, rfl⟩ := List.mem_map.mp hy
      refine name_replaced_ne h (hne x (List.mem_append_left _ hx)) ?_ hname
      rw [idxOf_append_cons hfront hc]
      exact idxOf_append_lt (List.mem_map_of_mem hx)
    have hself : replaced done c = c := replaced_of_notMem (hc ▸ hfresh)
    have hnew : replaced (done ++ [e]) c = redefine c e.definition :=
      replaced_append_self hc hfresh
    have hothers : ∀ xs : Layout, (∀ x ∈ xs, x ∈ front ++ back) →
        xs.map (replaced (done ++ [e])) = xs.map (replaced done) := by
      intro xs hxs
      exact List.map_congr_left fun x hx => replaced_append_of_ne (hne x (hxs x hx))
    rw [List.map_append, List.map_cons, hself, change_append_of_notMem hbefore, change_cons hc,
      List.map_append, List.map_cons, hnew, hothers front fun x hx => List.mem_append_left _ hx,
      hothers back fun x hx => List.mem_append_right _ hx]
  · have hne : ∀ x ∈ l, x.name ≠ e.oldName :=
      fun x hx heq => hmem (heq ▸ List.mem_map_of_mem hx)
    have hsame : l.map (replaced (done ++ [e])) = l.map (replaced done) :=
      List.map_congr_left fun x hx => replaced_append_of_ne (hne x hx)
    rw [hsame]
    refine change_of_not_mem fun hname => ?_
    obtain ⟨y, hy, hname⟩ := List.mem_map.mp hname
    obtain ⟨x, hx, rfl⟩ := List.mem_map.mp hy
    refine name_replaced_ne h (hne x hx) ?_ hname
    rw [List.idxOf_eq_length hmem]
    exact List.idxOf_lt_length_of_mem (List.mem_map_of_mem hx)

/-- Changes that capture none of each other go to the columns that they are meant for. -/
theorem foldl_change_eq_map (hnames : l.names.Nodup)
    (hold : (changes.map Change.oldName).Nodup) (h : l.Uncaptured changes) :
    changes.foldl change l = l.map (replaced changes) := by
  have hrest : ∀ rest done : List Change, ((done ++ rest).map Change.oldName).Nodup →
      l.Uncaptured (done ++ rest) →
      rest.foldl change (l.map (replaced done)) = l.map (replaced (done ++ rest)) := by
    intro rest
    induction rest with
    | nil => simp
    | cons e rest ih =>
      intro done hold h
      have hmiddle : done ++ e :: rest = done ++ [e] ++ rest := by simp
      have hfresh : e.oldName ∉ done.map Change.oldName := by
        rw [List.map_append, List.map_cons, List.nodup_middle] at hold
        exact fun hmem => (List.nodup_cons.mp hold).1 (List.mem_append_left _ hmem)
      have hfree : ∀ d ∈ done, ¬ l.Captures d e := fun d hd =>
        (List.pairwise_append.mp h).2.2 d hd e List.mem_cons_self
      rw [hmiddle] at hold h ⊢
      rw [List.foldl_cons, change_map_replaced hnames hfresh hfree, ih _ hold h]
  have hnone : l.map (replaced []) = l := List.map_id l
  have hall := hrest changes [] hold h
  rwa [hnone] at hall

/-- Where changes capture each other, there is a first one that is captured. -/
theorem exists_first_captured (h : ¬ l.Uncaptured changes) : ∃ done e rest,
    changes = done ++ e :: rest ∧ l.Uncaptured done ∧ ∃ d ∈ done, l.Captures d e := by
  have hrest : ∀ rest done : List Change, l.Uncaptured done → ¬ l.Uncaptured (done ++ rest) →
      ∃ done' e rest', done ++ rest = done' ++ e :: rest' ∧ l.Uncaptured done' ∧
        ∃ d ∈ done', l.Captures d e := by
    intro rest
    induction rest with
    | nil =>
      intro done hdone hcaptured
      rw [List.append_nil] at hcaptured
      exact absurd hdone hcaptured
    | cons e rest ih =>
      intro done hdone hcaptured
      by_cases hd : ∃ d ∈ done, l.Captures d e
      · exact ⟨done, e, rest, rfl, hdone, hd⟩
      · have hmiddle : done ++ e :: rest = done ++ [e] ++ rest := by simp
        have hdone' : l.Uncaptured (done ++ [e]) := by
          refine List.pairwise_append.mpr ⟨hdone, List.pairwise_singleton .., ?_⟩
          intro d hmem e' he'
          obtain rfl := List.mem_singleton.mp he'
          exact fun hcap => hd ⟨d, hmem, hcap⟩
        rw [hmiddle] at hcaptured ⊢
        exact ih _ hdone' hcaptured
  exact hrest changes [] .nil h

/-! ## Changes that go astray -/

/-- When its turn comes behind the others, the change finds its old name further to the front than
the layout had it. -/
def Astray (l : Layout) (done : List Change) (e : Change) : Prop :=
  (done.foldl change l).names.idxOf e.oldName < l.names.idxOf e.oldName

/-- None of the changes goes astray when its turn comes. -/
def Straight (l : Layout) (done : List Change) : List Change → Prop
  | [] => True
  | e :: rest => ¬ l.Astray done e ∧ Straight l (done ++ [e]) rest

private theorem Straight.not_astray {rest : List Change}
    (h : l.Straight done (changes ++ e :: rest)) : ¬ l.Astray (done ++ changes) e := by
  induction changes generalizing done with
  | nil => rw [List.append_nil]; exact h.1
  | cons d changes ih =>
    rw [List.append_cons]
    exact ih h.2

/-- Where changes go astray, there is a last one that does. -/
theorem exists_last_astray (h : ¬ l.Straight done changes) : ∃ before e rest,
    changes = before ++ e :: rest ∧ l.Astray (done ++ before) e ∧
      l.Straight (done ++ before ++ [e]) rest := by
  induction changes generalizing done with
  | nil => exact absurd trivial h
  | cons e changes ih =>
    by_cases hrest : l.Straight (done ++ [e]) changes
    · have he : l.Astray done e := Classical.byContradiction fun hno => h ⟨hno, hrest⟩
      exact ⟨[], e, changes, rfl, by rwa [List.append_nil], by rwa [List.append_nil]⟩
    · obtain ⟨before, f, rest, rfl, hf, hstraight⟩ := ih hrest
      refine ⟨e :: before, f, rest, rfl, ?_, ?_⟩
      · rwa [List.append_cons done e before]
      · rwa [List.append_cons done e before]

/-- Where changes of the layout's columns capture each other, one of them goes astray. -/
theorem not_straight_of_captured (hnames : l.names.Nodup)
    (hold : (changes.map Change.oldName).Nodup) (hmem : ∀ e ∈ changes, e.oldName ∈ l.names)
    (h : ¬ l.Uncaptured changes) : ¬ l.Straight [] changes := by
  obtain ⟨done, e, rest, rfl, hdone, d, hd, hname, hlt⟩ := exists_first_captured h
  have he : e.oldName ∈ l.names := hmem e (List.mem_append_right _ List.mem_cons_self)
  obtain ⟨front, c, back, rfl, hc, hfront⟩ := exists_split he
  rw [List.map_append] at hold
  have hdoneNames := (List.nodup_append.mp hold).1
  -- The first one that is captured finds its name at the column of a change that captures it.
  have hcaught : e.oldName ∈ names (front.map (replaced done)) := by
    rw [idxOf_append_cons hfront hc] at hlt
    have hmemD := hmem d (List.mem_append_left _ hd)
    have hfrontD : d.oldName ∈ front.names := by
      by_contra hnot
      rw [names_append, List.idxOf_append_of_notMem hnot, names, List.length_map] at hlt
      omega
    obtain ⟨x, hx, hxd⟩ := List.mem_map.mp hfrontD
    refine List.mem_map.mpr ⟨_, List.mem_map_of_mem hx, ?_⟩
    rw [replaced_of_mem hdoneNames hd hxd.symm, name_redefine, hname]
  have hlength : front.length = (front.map (replaced done)).length := (List.length_map _).symm
  have hastray : Astray (front ++ c :: back) done e := by
    rw [Astray, idxOf_append_cons hfront hc, foldl_change_eq_map hnames hdoneNames hdone,
      List.map_append, hlength]
    exact idxOf_append_lt hcaught
  exact fun hstraight => hstraight.not_astray (by rwa [List.nil_append])

/-- Changes keep the number of columns. -/
theorem length_foldl_change (changes : List Change) (l : Layout) :
    (changes.foldl change l).length = l.length := by
  induction changes generalizing l with
  | nil => rfl
  | cons e changes ih => rw [List.foldl_cons, ih, length_change]

/-- The first column of the old name is redefined. -/
theorem getElem?_change_self (h : l[i]? = some c) (hi : l.names.idxOf e.oldName = i) :
    (l.change e)[i]? = some (redefine c e.definition) := by
  have hlt : i < l.names.length := by
    rw [names, List.length_map]
    exact (List.getElem?_eq_some_iff.mp h).1
  obtain ⟨front, x, back, rfl, hx, hfront⟩ :=
    exists_split (List.idxOf_lt_length_iff.mp (hi.symm ▸ hlt))
  rw [idxOf_append_cons hfront hx] at hi
  subst hi
  rw [List.getElem?_append_right (Nat.le_refl _), Nat.sub_self] at h
  obtain rfl : x = c := Option.some.inj h
  rw [change_append_of_notMem hfront, change_cons hx, List.getElem?_append_right (Nat.le_refl _),
    Nat.sub_self]
  rfl

/-- Every other column is left as it is. -/
theorem getElem?_change_of_idxOf_ne (hi : l.names.idxOf e.oldName ≠ i) :
    (l.change e)[i]? = l[i]? := by
  by_cases hmem : e.oldName ∈ l.names
  · obtain ⟨front, x, back, rfl, hx, hfront⟩ := exists_split hmem
    rw [idxOf_append_cons hfront hx] at hi
    rw [change_append_of_notMem hfront, change_cons hx]
    rcases Nat.lt_or_gt_of_ne hi with hlt | hlt
    · rw [List.getElem?_append_right (by omega), List.getElem?_append_right (by omega)]
      obtain ⟨k, hk⟩ := Nat.exists_eq_succ_of_ne_zero (Nat.sub_ne_zero_of_lt hlt)
      rw [hk]
      rfl
    · rw [List.getElem?_append_left hlt, List.getElem?_append_left hlt]
  · rw [change_of_not_mem hmem]

/-- The first column of a name stands no further back than any other one. -/
theorem idxOf_name_le (h : l[i]? = some c) : l.names.idxOf c.name ≤ i := by
  obtain ⟨front, x, back, rfl, hx, hfront⟩ :=
    exists_split (List.mem_map_of_mem (f := Column.name) (List.mem_of_getElem? h))
  rw [idxOf_append_cons hfront hx]
  by_contra hlt
  rw [List.getElem?_append_left (by omega)] at h
  exact hfront (List.mem_map_of_mem (List.mem_of_getElem? h))

/-- Where there is a column of a name, the layout has it at the index of the name. -/
theorem exists_getElem?_idxOf (h : name ∈ l.names) :
    ∃ c, l[l.names.idxOf name]? = some c ∧ c.name = name := by
  obtain ⟨front, c, back, rfl, hc, hfront⟩ := exists_split h
  refine ⟨c, ?_, hc⟩
  rw [idxOf_append_cons hfront hc, List.getElem?_append_right (Nat.le_refl _), Nat.sub_self]
  rfl

/-- A change that does not go astray goes to its own column. -/
theorem idxOf_of_not_astray (hmem : e.oldName ∈ l.names)
    (hfresh : e.oldName ∉ done.map Change.oldName) (h : ¬ l.Astray done e) :
    (done.foldl change l).names.idxOf e.oldName = l.names.idxOf e.oldName := by
  obtain ⟨front, c, back, rfl, hc, hfront⟩ := exists_split hmem
  have hown : (front ++ c :: back)[front.length]? = some c := by
    rw [List.getElem?_append_right (Nat.le_refl _), Nat.sub_self]
    rfl
  have hleft := idxOf_name_le (getElem?_foldl_change_of_ne hown fun d hd heq =>
    hfresh (List.mem_map.mpr ⟨d, hd, heq.symm.trans hc⟩))
  rw [Astray, idxOf_append_cons hfront hc] at h
  rw [idxOf_append_cons hfront hc]
  rw [hc] at hleft
  omega

/-- Changes that do not go astray leave the columns of others as they are. -/
theorem getElem?_foldl_of_straight {rest : List Change}
    (hold : ((done ++ rest).map Change.oldName).Nodup) (hmem : ∀ f ∈ rest, f.oldName ∈ l.names)
    (hstraight : l.Straight done rest) (hi : ∀ f ∈ rest, l.names.idxOf f.oldName ≠ i) :
    (rest.foldl change (done.foldl change l))[i]? = (done.foldl change l)[i]? := by
  induction rest generalizing done with
  | nil => rfl
  | cons f rest ih =>
    obtain ⟨hf, hrest⟩ := hstraight
    obtain ⟨hmemF, hmemRest⟩ := List.forall_mem_cons.mp hmem
    obtain ⟨hiF, hiRest⟩ := List.forall_mem_cons.mp hi
    have hfresh : f.oldName ∉ done.map Change.oldName := by
      rw [List.map_append, List.map_cons, List.nodup_middle] at hold
      exact fun hmem => (List.nodup_cons.mp hold).1 (List.mem_append_left _ hmem)
    have hlater : (done ++ [f]).foldl change l = change (done.foldl change l) f :=
      List.foldl_concat ..
    have hkeep := ih (by rwa [List.append_assoc]) hmemRest hrest hiRest
    rw [hlater] at hkeep
    rw [List.foldl_cons, hkeep]
    exact getElem?_change_of_idxOf_ne (idxOf_of_not_astray hmemF hfresh hf ▸ hiF)

/-- The change `e` is diverted from its own column `c`, which is the one at `i`, to the column at
`j` further to the front. Changes made by then have redefined that one to `y` and so given it the
name. -/
structure Diverted (l : Layout) (changes : List Change) (e : Change) (i : Nat) (c : Column)
    (j : Nat) (y : Column) : Prop where
  own : l[i]? = some c
  name_own : c.name = e.oldName
  lt : j < i
  name_other : y.name = e.oldName
  other : ∃ done rest x, changes = done ++ e :: rest ∧ l[j]? = some x ∧
    x.name ∈ done.map Change.oldName ∧ (done.foldl change l)[j]? = some y

/-- A column that is called by a name further to the front than the layout has the name is one that
a change has renamed. -/
private theorem mem_oldNames_of_renamed {done : List Change} {name : String} {j : Nat}
    {x y : Column}
    (hx : l[j]? = some x) (hy : (done.foldl change l)[j]? = some y) (hname : y.name = name)
    (hj : j < l.names.idxOf name) : x.name ∈ done.map Change.oldName := by
  by_contra hnot
  have hsame := getElem?_foldl_change_of_ne hx fun d hd heq =>
    hnot (heq ▸ List.mem_map_of_mem hd)
  obtain rfl := Option.some.inj (hy.symm.trans hsame)
  have hle := idxOf_name_le hx
  rw [hname] at hle
  exact absurd hj (Nat.not_lt.mpr hle)

/-- The column that a change was meant for is left as it was, if the change goes astray and no other
one is meant for the column. -/
private theorem getElem?_foldl_of_astray {done rest : List Change} (hastray : l.Astray done e)
    (hc : l[l.names.idxOf e.oldName]? = some c) (hdone : ∀ d ∈ done, c.name ≠ d.oldName)
    (hrest : ∀ f ∈ rest, c.name ≠ f.oldName) :
    ((done ++ e :: rest).foldl change l)[l.names.idxOf e.oldName]? = some c := by
  rw [List.foldl_append, List.foldl_cons]
  refine getElem?_foldl_change_of_ne ?_ hrest
  rw [getElem?_change_of_idxOf_ne (Nat.ne_of_lt hastray)]
  exact getElem?_foldl_change_of_ne hc hdone

/-- Where changes of the layout's columns capture each other, one of them is diverted: its own
column is left as it was, and the other one gets the definition. -/
theorem exists_diverted (hnames : l.names.Nodup) (hold : (changes.map Change.oldName).Nodup)
    (hmem : ∀ e ∈ changes, e.oldName ∈ l.names) (h : ¬ l.Uncaptured changes) :
    ∃ e i c j y, l.Diverted changes e i c j y ∧ (changes.foldl change l)[i]? = some c ∧
      (changes.foldl change l)[j]? = some (redefine y e.definition) := by
  -- The last change that goes astray, as no change behind it undoes what it does.
  obtain ⟨done, e, rest, rfl, hastray, hstraight⟩ :=
    exists_last_astray (not_straight_of_captured hnames hold hmem h)
  rw [List.nil_append] at hastray hstraight
  obtain ⟨-, hrestNames, hapart⟩ :=
    List.nodup_append.mp (List.map_append (f := Change.oldName) ▸ hold)
  have hmemRest : ∀ f ∈ rest, f.oldName ∈ l.names := fun f hf =>
    hmem f (List.mem_append_right _ (List.mem_cons_of_mem _ hf))
  obtain ⟨c, hc, hcName⟩ := exists_getElem?_idxOf
    (hmem e (List.mem_append_right _ List.mem_cons_self))
  have hcDone : ∀ d ∈ done, c.name ≠ d.oldName := fun d hd heq =>
    hapart _ (List.mem_map_of_mem hd) _ List.mem_cons_self (heq.symm.trans hcName)
  have hcRest : ∀ f ∈ rest, c.name ≠ f.oldName := fun f hf heq =>
    (List.nodup_cons.mp hrestNames).1 (List.mem_map.mpr ⟨f, hf, heq.symm.trans hcName⟩)
  -- The other column is called so by then, and it was not before.
  have hlt := Nat.lt_trans hastray (List.getElem?_eq_some_iff.mp hc).1
  have hlength : (done.foldl change l).names.length = l.length := by
    rw [names, List.length_map, length_foldl_change]
  have hnow : e.oldName ∈ (done.foldl change l).names :=
    List.idxOf_lt_length_iff.mp (Nat.lt_of_lt_of_eq hlt hlength.symm)
  obtain ⟨y, hy, hyName⟩ := exists_getElem?_idxOf hnow
  have hx := List.getElem?_eq_getElem hlt
  have hxDone := mem_oldNames_of_renamed hx hy hyName hastray
  refine ⟨e, _, c, _, y, ⟨hc, hcName, hastray, hyName, done, rest, _, rfl, hx, hxDone, hy⟩, ?_, ?_⟩
  · exact getElem?_foldl_of_astray hastray hc hcDone hcRest
  · have hlater : (done ++ [e]).foldl change l = change (done.foldl change l) e :=
      List.foldl_concat ..
    have hapartRest : ∀ f ∈ rest, l.names.idxOf f.oldName ≠
        (done.foldl change l).names.idxOf e.oldName := by
      intro f hf heq
      obtain ⟨x, hx', hxName⟩ := exists_getElem?_idxOf (hmemRest f hf)
      rw [heq, hx] at hx'
      rw [Option.some.inj hx', hxName] at hxDone
      exact hapart _ hxDone _ (List.mem_cons_of_mem _ (List.mem_map_of_mem hf)) rfl
    have hkeep := getElem?_foldl_of_straight (by rwa [List.append_assoc]) hmemRest hstraight
      hapartRest
    rw [hlater] at hkeep
    rw [List.foldl_append, List.foldl_cons, hkeep]
    exact getElem?_change_self hy rfl

end Layout

/-! ## Statements -/

namespace Statement

open Layout

variable {s : Statement} {l : Layout} {c : Column}

/-- The column as it goes into a statement that may drop the primary key. -/
def kept (s : Statement) (c : Column) : Column :=
  if s.dropsPrimaryKey then c.setPrimaryKey false else c

/-- The column as it comes out of a statement that may add it to the primary key. -/
def marked (s : Statement) (c : Column) : Column :=
  if s.addedPrimaryKey.contains c.name then c.setPrimaryKey true else c

/-- To be taken off the primary key changes no name. -/
@[simp] theorem name_kept (s : Statement) (c : Column) : (s.kept c).name = c.name := by
  unfold kept
  split <;> rfl

/-- To be taken off the primary key changes no names. -/
theorem names_map_kept (s : Statement) (l : Layout) : names (l.map s.kept) = l.names := by
  rw [names, List.map_map]
  exact List.map_congr_left fun c _ => s.name_kept c

/-- What the statement says shall become of a column. -/
def successor (s : Statement) (c : Column) : Column :=
  s.marked (replaced s.changedColumns (s.kept c))

/-- The layout before its moves, in the order of the steps: keys, changes, drops, additions, new
keys. -/
theorem redefined_eq (s : Statement) (l : Layout) : s.redefined l =
    ((drop (s.changedColumns.foldl change (l.map s.kept)) s.droppedColumns) ++
      s.addedColumns).map s.marked := by
  have hkept : (if s.dropsPrimaryKey then l.clearPrimaryKey else l) = l.map s.kept := by
    unfold kept clearPrimaryKey
    split <;> simp
  rw [redefined, hkept]
  rfl

/-- Statements that differ in their definitions only, make the same of a layout if these do. -/
theorem redefined_congr {s' : Statement} (hdrops : s.dropsPrimaryKey = s'.dropsPrimaryKey)
    (hdropped : s.droppedColumns = s'.droppedColumns) (hadded : s.addedColumns = s'.addedColumns)
    (hkey : s.addedPrimaryKey = s'.addedPrimaryKey)
    (hchange : ∀ kept : Layout, kept.names = l.names →
      s.changedColumns.foldl change kept = s'.changedColumns.foldl change kept) :
    s.redefined l = s'.redefined l := by
  have hkept : s.kept = s'.kept := by
    funext c
    rw [kept, kept, hdrops]
  have hmarked : s.marked = s'.marked := by
    funext c
    rw [marked, marked, hkey]
  rw [redefined_eq, redefined_eq, hmarked, hkept, hdropped, hadded,
    hchange _ (names_map_kept s' l)]

/-- A column that is meant by a change becomes what the change says. -/
theorem successor_of_mem {e : Change} (hold : (s.changedColumns.map Change.oldName).Nodup)
    (he : e ∈ s.changedColumns) (hc : e.oldName = c.name) :
    s.successor c = s.marked (redefine (s.kept c) e.definition) := by
  rw [successor, replaced_of_mem hold he (hc.trans (s.name_kept c).symm)]

/-- A column that is meant by no change stays, except for its membership in the primary key. -/
theorem successor_of_notMem (h : c.name ∉ s.changedColumns.map Change.oldName) :
    s.successor c = s.marked (s.kept c) := by
  rw [successor, replaced_of_notMem (by rwa [name_kept])]

/-- Dropping the primary key does not change which definitions capture each other. -/
theorem uncaptured_map_kept (changes : List Change) :
    Uncaptured (l.map s.kept) changes ↔ l.Uncaptured changes := by
  unfold Uncaptured Captures
  rw [names_map_kept]

/-- Where no change captures another one, each column is replaced by what is said of it. -/
theorem foldl_change_map_kept (hnames : l.names.Nodup)
    (hold : (s.changedColumns.map Change.oldName).Nodup) (h : l.Uncaptured s.changedColumns) :
    s.changedColumns.foldl change (l.map s.kept) =
      l.map fun c => replaced s.changedColumns (s.kept c) := by
  rw [foldl_change_eq_map (by rwa [names_map_kept]) hold ((uncaptured_map_kept _).mpr h),
    List.map_map]
  rfl

/-- Columns that were there before keep their places as long as none is dropped. -/
theorem getElem?_redefined {i : Nat} (hdropped : s.droppedColumns = [])
    (h : (s.changedColumns.foldl change (l.map s.kept))[i]? = some c) :
    (s.redefined l)[i]? = some (s.marked c) := by
  obtain ⟨hi, -⟩ := List.getElem?_eq_some_iff.mp h
  have hdrop : ∀ l : Layout, drop l [] = l := fun l => List.filter_true l
  rw [redefined_eq, hdropped, hdrop, List.getElem?_map, List.getElem?_append_left hi, h]
  rfl

/-- A statement that drops no column and redefines distinct columns of the table does to each
column what it says, if none of its definitions captures another. If one does, a definition is
diverted: the column that it is meant for is not redefined, and another one, further to the front,
gets the definition instead. -/
theorem redefined_columns (s : Statement) (l : Layout) (hnames : l.names.Nodup)
    (hold : (s.changedColumns.map Change.oldName).Nodup)
    (hmem : ∀ e ∈ s.changedColumns, e.oldName ∈ l.names) (hdropped : s.droppedColumns = []) :
    (l.Uncaptured s.changedColumns → ∀ (i : Nat) (c : Column), l[i]? = some c →
      (∀ e ∈ s.changedColumns, e.oldName = c.name →
        (s.redefined l)[i]? = some (s.marked (redefine (s.kept c) e.definition))) ∧
      (c.name ∉ s.changedColumns.map Change.oldName →
        (s.redefined l)[i]? = some (s.marked (s.kept c)))) ∧
    (¬ l.Uncaptured s.changedColumns → ∃ e i c j y,
      l[i]? = some c ∧ Diverted (l.map s.kept) s.changedColumns e i (s.kept c) j y ∧
      (s.redefined l)[i]? = some (s.marked (s.kept c)) ∧
      (s.redefined l)[j]? = some (s.marked (redefine y e.definition))) := by
  constructor
  · intro h i c hc
    have hnew : (s.redefined l)[i]? = some (s.successor c) := by
      refine getElem?_redefined hdropped ?_
      rw [foldl_change_map_kept hnames hold h, List.getElem?_map, hc]
      rfl
    rw [hnew]
    exact ⟨fun e he heq => congrArg some (successor_of_mem hold he heq),
      fun hnot => congrArg some (successor_of_notMem hnot)⟩
  · intro h
    have hcaptured := mt (uncaptured_map_kept (s := s) s.changedColumns).mp h
    obtain ⟨e, i, c', j, y, hdiverted, hsame, hother⟩ := exists_diverted
      (by rwa [names_map_kept]) hold (by rwa [names_map_kept]) hcaptured
    have hc' := hdiverted.own
    rw [List.getElem?_map] at hc'
    obtain ⟨c, hc, rfl⟩ := Option.map_eq_some_iff.mp hc'
    exact ⟨e, i, c, j, y, hc, hdiverted, getElem?_redefined hdropped hsame,
      getElem?_redefined hdropped hother⟩

/-- A table of two columns. -/
def pair : Layout :=
  [{ name := "a", dataType := "TEXT" }, { name := "b", dataType := "TEXT" }]

/-- The second column gets a new name, and then the first one its old name. -/
def chain : Statement where
  changedColumns :=
    [⟨"b", { name := "c", dataType := "INT" }⟩, ⟨"a", { name := "b", dataType := "INT" }⟩]

/-- A chain of two renamings in which none captures the other. -/
theorem redefined_columns_chain :
    (pair.names.Nodup ∧ (chain.changedColumns.map Change.oldName).Nodup ∧
      (∀ e ∈ chain.changedColumns, e.oldName ∈ pair.names) ∧ chain.droppedColumns = []) ∧
    pair.Uncaptured chain.changedColumns ∧
    (chain.redefined pair)[0]? = some { name := "b", dataType := "INT" } := by
  have hnames : pair.names.Nodup := by decide
  have hold : (chain.changedColumns.map Change.oldName).Nodup := by decide
  have hmem : ∀ e ∈ chain.changedColumns, e.oldName ∈ pair.names := by decide
  have hfree : pair.Uncaptured chain.changedColumns := by decide
  have hcolumn := (redefined_columns chain pair hnames hold hmem rfl).1 hfree 0 _ rfl
  exact ⟨⟨hnames, hold, hmem, rfl⟩, hfree,
    hcolumn.1 ⟨"a", { name := "b", dataType := "INT" }⟩ (by decide) rfl⟩

/-- Of two columns that swap their names, the second one is left as it was, and the first one gets
both definitions. -/
example :
    let swap : Statement :=
      { changedColumns :=
          [⟨"a", { name := "b", dataType := "INT" }⟩, ⟨"b", { name := "a", dataType := "INT" }⟩] }
    swap.redefined pair =
      [{ name := "a", dataType := "INT" }, { name := "b", dataType := "TEXT" }] := by
  decide

end Statement

end AlterTable
