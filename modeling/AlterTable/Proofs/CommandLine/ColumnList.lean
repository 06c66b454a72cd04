import AlterTable.CommandLine
import AlterTable.Proofs.Draft.Lexeme
import AlterTable.Proofs.Grammar.TypeText
import AlterTable.Proofs.Text

/-!
# Columns as one argument

Columns are written as one argument with commas between them, and read by splitting the argument at
every comma. So they are read one by one (`readLayout_writeLayout_eq_flatMap`), and since no comma
is left in what is read, a column is read back if and only if its type has none: one of type
`DECIMAL(10)` is, one of type `DECIMAL(10, 2)` is not (`readLayout_writeLayout`).
-/

namespace AlterTable.CommandLine

open AlterTable.Grammar

/-- The column as an item of a list of columns: `name:type` or `name:type:pk`. -/
def writeColumn (c : Column) : List Char :=
  c.name.toList ++ ':' :: (c.dataType.toList ++ if c.inPrimaryKey then ":pk".toList else [])

/-- The columns as one argument. -/
def writeLayout (l : Layout) : String :=
  String.ofList ([','].intercalate (l.map writeColumn))

/-- A column with an unquoted ASCII name and a type that a statement may give it, of which nothing
else is to be told than whether it is in the primary key. -/
structure Listable (c : Column) : Prop where
  isWord : IsWord c.name.toList
  ascii : ∀ d ∈ c.name.toList, d.toNat < 128
  isType : IsTypeText c.dataType
  flags : c.flags = {} ∨ c.flags = { primaryKey := true }

variable {s t : List Char} {ss : List (List Char)} {c : Column} {l : Layout}

/-! ## Items -/

/-- What stands between the commas, without white space around it. -/
def itemsOf (s : List Char) : List (List Char) :=
  ((s.splitOn ',').map Text.trim).filter (!·.isEmpty)

private theorem readLayout_ofList (s : List Char) :
    readLayout (String.ofList s) = (itemsOf s).map readColumn := by
  rw [readLayout, String.toList_ofList, itemsOf]

/-- A comma divides what is read. -/
theorem itemsOf_append (s t : List Char) : itemsOf (s ++ ',' :: t) = itemsOf s ++ itemsOf t := by
  rw [itemsOf, List.splitOn_append_cons_self, List.map_append, List.filter_append]
  rfl

/-- Joined items are those of each part. -/
theorem itemsOf_intercalate (ss : List (List Char)) :
    itemsOf ([','].intercalate ss) = ss.flatMap itemsOf := by
  induction ss with
  | nil => rfl
  | cons s ss ih =>
    cases ss with
    | nil => rw [List.intercalate_singleton, List.flatMap_singleton]
    | cons s' ss =>
      rw [List.intercalate_cons_cons, List.append_assoc, List.singleton_append, itemsOf_append, ih,
        List.flatMap_cons (x := s)]

private theorem itemsOf_eq_singleton (hcomma : ',' ∉ s) (htrim : Text.IsTrimmed s) (hne : s ≠ []) :
    itemsOf s = [s] := by
  rw [itemsOf, List.splitOn_eq_singleton hcomma, List.map_singleton,
    Text.trim_eq_self_iff.mpr htrim]
  simp [hne]

/-- No comma is left in an item. -/
theorem comma_notMem_of_mem_itemsOf (h : t ∈ itemsOf s) : ',' ∉ t := by
  obtain ⟨piece, hpiece, rfl⟩ := List.mem_map.mp (List.mem_filter.mp h).1
  exact fun hmem => Text.notMem_of_mem_splitOn hpiece ((Text.trim_sublist piece).subset hmem)

/-- No comma is left in the type of a column that is read. -/
theorem comma_notMem_of_mem_readLayout {text : String} (h : c ∈ readLayout text) :
    ',' ∉ c.dataType.toList := by
  have htext : text = String.ofList text.toList := String.ofList_toList.symm
  rw [htext, readLayout_ofList] at h
  obtain ⟨t, ht, rfl⟩ := List.mem_map.mp h
  have hcomma := comma_notMem_of_mem_itemsOf ht
  show ',' ∉ (String.ofList _).toList
  rw [String.toList_ofList]
  cases htype : (t.splitOn ':')[1]? with
  | none => decide
  | some type =>
    have hmem : type ∈ t.splitOn ':' := List.mem_of_getElem? htype
    exact fun hc => hcomma ((Text.infix_of_mem_splitOn hmem).subset hc)

/-! ## Columns -/

/-- The columns are read one by one. -/
theorem readLayout_writeLayout_eq_flatMap (l : Layout) :
    readLayout (writeLayout l) = l.flatMap fun c => readLayout (writeLayout [c]) := by
  simp only [writeLayout, readLayout_ofList, itemsOf_intercalate, List.flatMap_map,
    List.map_flatMap, List.map_singleton, List.flatMap_singleton]

private theorem isTrimmed_writeColumn (h : Listable c) : Text.IsTrimmed (writeColumn c) := by
  obtain ⟨htype, -⟩ := h.isType.isTrimmed_and
  constructor
  · intro d hd
    obtain ⟨e, name, hname⟩ := List.exists_cons_of_ne_nil h.isWord.1
    rw [writeColumn, hname] at hd
    obtain rfl : e = d := Option.some.inj hd
    have hmem : e ∈ c.name.toList := hname ▸ List.mem_cons_self
    exact Draft.not_isWhiteSpace_of_isIdentifierChar (h.isWord.2 e hmem) (h.ascii e hmem)
  · intro d hd
    rw [writeColumn, List.getLast?_append, List.getLast?_cons, Option.some_or] at hd
    obtain rfl := Option.some.inj hd
    split
    · have hlast : (c.dataType.toList ++ ":pk".toList).getLast? = some 'k' := by simp
      rw [hlast]
      decide
    · rw [List.append_nil]
      cases hlast : c.dataType.toList.getLast? with
      | none => decide
      | some e => exact htype.2 e hlast

private theorem comma_notMem_writeColumn (h : Listable c) (hcomma : ',' ∉ c.dataType.toList) :
    ',' ∉ writeColumn c := by
  have hname : ',' ∉ c.name.toList := h.isWord.notMem rfl
  simp [writeColumn, hname, hcomma]

/-- An item is read as the column that it was written for. -/
theorem readColumn_writeColumn (h : Listable c) : readColumn (writeColumn c) = c := by
  obtain ⟨-, hcolon⟩ := h.isType.isTrimmed_and
  have hname : ':' ∉ c.name.toList := h.isWord.notMem rfl
  obtain ⟨name, dataType, flags⟩ := c
  rcases h.flags with rfl | rfl
  · have hparts : (writeColumn ⟨name, dataType, {}⟩).splitOn ':' =
        [name.toList, dataType.toList] := by
      show (name.toList ++ ':' :: (dataType.toList ++ [])).splitOn ':' = _
      rw [List.append_nil, List.splitOn_append_cons_self, List.splitOn_eq_singleton hname,
        List.splitOn_eq_singleton hcolon]
      rfl
    rw [readColumn, hparts]
    simp
  · have hparts : (writeColumn ⟨name, dataType, { primaryKey := true }⟩).splitOn ':' =
        [name.toList, dataType.toList, "pk".toList] := by
      show (name.toList ++ ':' :: (dataType.toList ++ ':' :: "pk".toList)).splitOn ':' = _
      rw [List.splitOn_append_cons_self, List.splitOn_append_cons_self,
        List.splitOn_eq_singleton hname, List.splitOn_eq_singleton hcolon]
      rfl
    rw [readColumn, hparts]
    simp [Text.sameLetters]

/-- A column whose type has no comma is read back. -/
theorem readLayout_writeLayout_singleton (h : Listable c) (hcomma : ',' ∉ c.dataType.toList) :
    readLayout (writeLayout [c]) = [c] := by
  have hne : writeColumn c ≠ [] := List.append_ne_nil_of_right_ne_nil _ (List.cons_ne_nil _ _)
  rw [writeLayout, readLayout_ofList, List.map_singleton, List.intercalate_singleton,
    itemsOf_eq_singleton (comma_notMem_writeColumn h hcomma) (isTrimmed_writeColumn h) hne,
    List.map_singleton, readColumn_writeColumn h]

/-! ## Exactness -/

/-- Columns are read one by one, and all of them are read back if and only if none has a comma in
its type. -/
theorem readLayout_writeLayout (h : ∀ c ∈ l, Listable c) :
    (readLayout (writeLayout l) = l ↔ ∀ c ∈ l, ',' ∉ c.dataType.toList) ∧
      readLayout (writeLayout l) = l.flatMap fun c => readLayout (writeLayout [c]) := by
  refine ⟨⟨fun hback c hc => ?_, fun hcomma => ?_⟩, readLayout_writeLayout_eq_flatMap l⟩
  · rw [← hback] at hc
    exact comma_notMem_of_mem_readLayout hc
  · rw [readLayout_writeLayout_eq_flatMap, List.flatMap_congr fun c hc =>
      readLayout_writeLayout_singleton (h c hc) (hcomma c hc)]
    exact List.flatMap_singleton' l

/-- A column can be listed if its type is among those of a statement. -/
theorem listable_of_all {name text type : String} {flags : Column.Flags} {types : List String}
    (hname : IsWord name.toList ∧ ∀ d ∈ name.toList, d.toNat < 128)
    (htypes : (Node.ofText? text).toOption.map (fun tree => (tree.all .dataType).map Node.text) =
      some types) (htype : type ∈ types) (hquote : Text.backQuote ∉ type.toList)
    (hflags : flags = {} ∨ flags = { primaryKey := true }) : Listable ⟨name, type, flags⟩ := by
  refine ⟨hname.1, hname.2, ⟨hquote, text, ?_⟩, hflags⟩
  cases htree : Node.ofText? text with
  | error e =>
    rw [htree] at htypes
    cases htypes
  | ok tree =>
    rw [htree] at htypes
    rw [← Option.some.inj htypes] at htype
    obtain ⟨u, hu, rfl⟩ := List.mem_map.mp htype
    obtain ⟨hwithin, hrule⟩ := Node.mem_all_iff.mp hu
    exact ⟨tree, u, rfl, hwithin, hrule, rfl⟩

/-- A statement with types of no, one and two numbers. -/
def variety : String :=
  "ALTER TABLE t ADD (a INT, b BIGINT( 20 ) unsigned, c DECIMAL(10, 2))"

/-- A statement may give types with commas, white space and several words. -/
theorem types_variety : (Node.ofText? variety).toOption.map
    (fun tree => (tree.all .dataType).map Node.text) =
      some ["INT", "BIGINT( 20 ) unsigned", "DECIMAL(10, 2)"] := by
  decide +kernel

/-- Columns with one number at most. -/
def readable : Layout :=
  [⟨"b", "BIGINT( 20 ) unsigned", { primaryKey := true }⟩, ⟨"a", "INT", {}⟩]

/-- A layout without commas in its types is read back. -/
theorem readLayout_writeLayout_readable :
    (∀ c ∈ readable, Listable c) ∧ readLayout (writeLayout readable) = readable := by
  have hlistable : ∀ c ∈ readable, Listable c := by
    simp only [readable, List.forall_mem_cons, List.not_mem_nil, false_implies, implies_true,
      and_true]
    constructor
    · exact listable_of_all ⟨by decide, by simp⟩ types_variety (by decide) (by decide +kernel)
        (.inr rfl)
    · exact listable_of_all ⟨by decide, by simp⟩ types_variety (by decide) (by decide +kernel)
        (.inl rfl)
  exact ⟨hlistable, (readLayout_writeLayout hlistable).1.mpr (by decide +kernel)⟩

/-- A column with two numbers is read as two columns. -/
theorem not_readLayout_writeLayout_twoNumbers : Listable ⟨"c", "DECIMAL(10, 2)", {}⟩ ∧
    readLayout (writeLayout [⟨"c", "DECIMAL(10, 2)", {}⟩]) =
      [⟨"c", "DECIMAL(10", {}⟩, ⟨"2)", "TEXT", {}⟩] :=
  ⟨listable_of_all ⟨by decide, by simp⟩ types_variety (by decide) (by decide +kernel) (.inl rfl),
    by decide +kernel⟩

end AlterTable.CommandLine
