import AlterTable.Proofs.Statement.Joining

/-!
# The name that is reported of a table

The name of a table has a part for the table and perhaps one for its schema, and either may be
quoted. The parts are found again at the dots of the text, and this goes wrong where a quoted name
has a dot of its own: the part is then taken for several, none of them has both of its quotes, and
all that is taken away is the white space at their ends.

`NamePart.reported` is what comes of a single part, and the dot between two parts never mixes them
up (`Draft.plainTableName_append`). So `read_table` gives the name that is reported of any table. It
is the name that was meant just if no part of it has a dot.
-/

namespace AlterTable

open AlterTable.Grammar
open AlterTable.Parse

/-! ## Names -/

/-- A part of a table's name. -/
inductive NamePart where
  | quoted (name : Draft.Name)
  | bare (identifier : Draft.Identifier)

namespace NamePart

/-- The name that is meant. -/
def content : NamePart → List Char
  | quoted name => name.text
  | bare identifier => identifier.text

/-- The name as it is written. -/
def written : NamePart → List Char
  | quoted name => Text.backQuote :: (name.text ++ [Text.backQuote])
  | bare identifier => identifier.text

/-- What is reported: the name that is meant or, if it has a dot, the name as it is written, without
white space at either side of its dots. -/
def reported (part : NamePart) : List Char :=
  if '.' ∈ part.content then
    ['.'].intercalate ((part.written.splitOn '.').map Text.trim)
  else
    part.content

end NamePart

/-- The name of a table, perhaps with that of its schema. -/
structure TableName where
  schema : Option NamePart
  table : NamePart

namespace TableName

/-- The parts in order. -/
def parts (name : TableName) : List NamePart :=
  name.schema.toList ++ [name.table]

/-- What is made of the parts, with a dot between. -/
def join (f : NamePart → List Char) (name : TableName) : List Char :=
  match name.schema with
  | none => f name.table
  | some schema => f schema ++ '.' :: f name.table

/-- The name as it is written. -/
def written (name : TableName) : String :=
  String.ofList (name.join NamePart.written)

/-- The name that is meant. -/
def plain (name : TableName) : String :=
  String.ofList (name.join NamePart.content)

/-- The name that is reported. -/
def reported (name : TableName) : String :=
  String.ofList (name.join NamePart.reported)

end TableName

/-! ## Parts of names -/

namespace NamePart

variable {part : NamePart}

private theorem backQuote_notMem_content (part : NamePart) : Text.backQuote ∉ part.content := by
  cases part with
  | quoted name => exact name.plain
  | bare identifier => exact identifier.isWord.notMem rfl

/-- Only what is quoted can have a dot. -/
theorem exists_quoted_of_mem (h : '.' ∈ part.content) : ∃ name, part = quoted name := by
  cases part with
  | quoted name => exact ⟨name, rfl⟩
  | bare identifier => exact absurd h identifier.point_notMem

private theorem point_notMem_written (h : '.' ∉ part.content) : '.' ∉ part.written := by
  cases part with
  | quoted name =>
    have hquote : '.' ≠ Text.backQuote := by decide
    exact List.not_mem_cons_of_ne_of_not_mem hquote
      (List.not_mem_append h (List.not_mem_cons_of_ne_of_not_mem hquote List.not_mem_nil))
  | bare identifier => exact h

/-- A written part is unquoted to what is meant. -/
theorem unquote_written (part : NamePart) : Text.unquote part.written = part.content := by
  cases part with
  | quoted name => exact Text.unquote_quoted name.text
  | bare identifier => exact (Draft.writes_bare identifier).unquote

private theorem isTight_written (part : NamePart) (v : List Char) :
    Draft.IsTight (part.written ++ v) := by
  cases part with
  | quoted name => rfl
  | bare identifier => exact Draft.isTight_of_isWord identifier.isWord identifier.ascii v

private theorem isFirm_written (part : NamePart) : Draft.IsFirm part.written := by
  cases part with
  | quoted name => exact Draft.isFirm_quoted name.text
  | bare identifier => exact Draft.isFirm_of_isWord identifier.isWord identifier.ascii

/-- A part is an identifier in front of whatever does not continue it. -/
theorem derives_written (part : NamePart) {r : List Char} (hr : Ends r) (k : Nat) :
    (Production.token .identifier).Derives Token.Spelled ⟨k, part.written ++ r⟩ []
      ⟨k + Text.byteLength part.written, r⟩ := by
  refine .token (w := part.written) ?_ ⟨rfl, rfl⟩
  cases part with
  | quoted name => exact .quotedName gap_nil ⟨name.text, name.ne_nil, name.plain, rfl⟩
  | bare identifier => exact .bareName gap_nil identifier.isWord identifier.free hr

/-- A quote at one end of a piece is all the quotes that it has. -/
theorem unquote_of_mem_splitOn (h : '.' ∈ part.content) {piece : List Char}
    (hpiece : piece ∈ part.written.splitOn '.') : Text.unquote piece = Text.trim piece := by
  obtain ⟨name, rfl⟩ := exists_quoted_of_mem h
  obtain ⟨a, b, hname⟩ := List.append_of_mem h
  have hplain : (a ++ '.' :: b).count Text.backQuote = 0 := by
    rw [← hname]
    exact List.count_eq_zero.mpr name.plain
  have hsplit : (quoted name).written =
      (Text.backQuote :: a) ++ '.' :: (b ++ [Text.backQuote]) := by
    rw [written, show name.text = a ++ '.' :: b from hname]
    simp
  have hcount : (Text.backQuote :: a).count Text.backQuote ≤ 1 ∧
      (b ++ [Text.backQuote]).count Text.backQuote ≤ 1 := by
    rw [List.count_append, List.count_cons] at hplain
    rw [List.count_cons_self, List.count_append, List.count_singleton_self]
    omega
  rw [hsplit, List.splitOn_append_cons_self] at hpiece
  refine Text.unquote_of_count_le_one ?_
  rcases List.mem_append.mp hpiece with hfront | hback
  · exact ((Text.infix_of_mem_splitOn hfront).sublist.count_le _).trans hcount.1
  · exact ((Text.infix_of_mem_splitOn hback).sublist.count_le _).trans hcount.2

/-- A written part is reported as described. -/
theorem plainTableName_written (part : NamePart) :
    Clause.plainTableName part.written = part.reported := by
  rw [Clause.plainTableName, reported]
  split
  next h => exact congrArg _ (List.map_congr_left fun _ hpiece => unquote_of_mem_splitOn h hpiece)
  next h =>
    rw [← Clause.plainTableName, Draft.plainTableName_of_notMem (point_notMem_written h),
      unquote_written]

/-- The quotes are reported with a name that has a dot. -/
theorem backQuote_mem_reported_iff : Text.backQuote ∈ part.reported ↔ '.' ∈ part.content := by
  rw [reported]
  split
  next h =>
    obtain ⟨name, rfl⟩ := exists_quoted_of_mem h
    have hquote : Text.backQuote ≠ '.' := by decide
    have hwritten : Text.backQuote ∈ ['.'].intercalate ((quoted name).written.splitOn '.') := by
      rw [List.intercalate_splitOn]
      exact List.mem_cons_self
    obtain ⟨piece, hpiece, hmem⟩ := (Text.mem_intercalate_iff hquote).mp hwritten
    refine iff_of_true ((Text.mem_intercalate_iff hquote).mpr ?_) h
    exact ⟨_, List.mem_map_of_mem hpiece, Text.mem_trim_of_mem hmem (by decide)⟩
  next h => exact iff_of_false part.backQuote_notMem_content h

end NamePart

/-! ## Whole names -/

namespace TableName

variable {name : TableName} {f g : NamePart → List Char}

/-- A written name is reported part by part. -/
theorem plainTableName_written (name : TableName) :
    Clause.plainTableName (name.join NamePart.written) = name.join NamePart.reported := by
  obtain ⟨schema, table⟩ := name
  cases schema with
  | none => exact table.plainTableName_written
  | some schema =>
    show Clause.plainTableName (schema.written ++ '.' :: table.written) = _
    rw [Draft.plainTableName_append, schema.plainTableName_written, table.plainTableName_written]
    rfl

private theorem backQuote_mem_join_iff :
    Text.backQuote ∈ name.join f ↔ ∃ part ∈ name.parts, Text.backQuote ∈ f part := by
  obtain ⟨schema, table⟩ := name
  have hdot : Text.backQuote ≠ '.' := by decide
  cases schema <;> simp [join, parts, hdot]

private theorem join_congr (h : ∀ part ∈ name.parts, f part = g part) :
    name.join f = name.join g := by
  obtain ⟨schema, table⟩ := name
  cases schema with
  | none => exact h table (List.mem_singleton_self _)
  | some schema =>
    show f schema ++ '.' :: f table = g schema ++ '.' :: g table
    rw [h schema List.mem_cons_self, h table (List.mem_cons_of_mem _ (List.mem_singleton_self _))]

/-- A name is reported as meant just if no part of it has a dot. -/
theorem reported_eq_plain_iff :
    name.reported = name.plain ↔ ∀ part ∈ name.parts, '.' ∉ part.content := by
  rw [reported, plain, String.ofList_inj]
  constructor
  · intro h part hpart hdot
    have hquote : Text.backQuote ∈ name.join NamePart.reported :=
      backQuote_mem_join_iff.mpr ⟨part, hpart, NamePart.backQuote_mem_reported_iff.mpr hdot⟩
    rw [h] at hquote
    obtain ⟨other, -, hmem⟩ := backQuote_mem_join_iff.mp hquote
    exact other.backQuote_notMem_content hmem
  · intro h
    exact join_congr fun part hpart => if_neg (h part hpart)

/-! ## Reading names -/

private theorem isTight_join (name : TableName) : Draft.IsTight (name.join NamePart.written) := by
  obtain ⟨schema, table⟩ := name
  cases schema with
  | none =>
    have htight := table.isTight_written []
    rwa [List.append_nil] at htight
  | some schema => exact schema.isTight_written _

private theorem isFirm_join (name : TableName) : Draft.IsFirm (name.join NamePart.written) := by
  obtain ⟨schema, table⟩ := name
  cases schema with
  | none => exact table.isFirm_written
  | some schema =>
    have hfirm := table.isFirm_written.append (schema.written ++ ['.'])
    rwa [List.append_assoc] at hfirm

/-- Whatever is written is derived as the name of a table. -/
theorem exists_derives (name : TableName) : ∃ t, Production.tableName.Derives Token.Spelled
    (.ofText (name.join NamePart.written)) [t]
    ⟨Text.byteLength (name.join NamePart.written), []⟩ := by
  obtain ⟨schema, table⟩ := name
  have hend : Ends [] := rfl
  cases schema with
  | none =>
    have htable := table.derives_written hend 0
    rw [List.append_nil, Nat.zero_add] at htable
    exact ⟨_, .node (.seq (.seq htable (.seq (.right .empty) .empty)) .empty)⟩
  | some schema =>
    have hdot : Ends ('.' :: table.written) := rfl
    have hschema := schema.derives_written hdot 0
    have htable := table.derives_written hend (0 + Text.byteLength schema.written + 1)
    rw [List.append_nil] at htable
    have hmark : (Production.token .dot).Derives Token.Spelled
        ⟨0 + Text.byteLength schema.written, '.' :: table.written⟩ []
        ⟨0 + Text.byteLength schema.written + 1, table.written⟩ := .token .dot ⟨rfl, rfl⟩
    have hlength : Text.byteLength (schema.written ++ '.' :: table.written) =
        0 + Text.byteLength schema.written + 1 + Text.byteLength table.written := by
      rw [Text.byteLength_append]
      show _ + (1 + Text.byteLength table.written) = _
      omega
    show ∃ t, Production.tableName.Derives Token.Spelled _ [t] ⟨Text.byteLength (_ ++ _ :: _), []⟩
    rw [hlength]
    exact ⟨_, .node (.seq (.seq hschema (.seq (.left (.seq hmark htable)) .empty)) .empty)⟩

/-- What is written is the name of a table and nothing else. -/
theorem isTableName_written (name : TableName) : IsTableName name.written := by
  obtain ⟨t, ht⟩ := name.exists_derives
  have hread := (ht.mono fun _ _ _ _ _ _ hw => hw.accepted).read_of_tokens (by decide)
  have hreads : Reads tableName [] .tableName [.stop] := reads_tableName_of_notMem (by decide)
  obtain ⟨v, hv, -⟩ := hreads.done hread (List.mem_singleton_self _)
  refine ⟨v, ⟨Text.byteLength (name.join NamePart.written), []⟩, ?_, rfl⟩
  rw [written, String.toList_ofList]
  exact hv

end TableName

/-! ## Statements -/

/-- The text of the node for the name is the name as it is written. -/
theorem text_nameNode (name : TableName) (k : Nat) :
    (nameNode k name.written.toList).text = name.written := by
  rw [TableName.written, String.toList_ofList]
  exact Draft.text_span gap_blank name.isTight_join name.isFirm_join (over_behindName k _ [])

/-- What a statement says of its table is the reported name. -/
theorem table_gathered {name : TableName} {specifications : String} {tree : Node}
    (h : Node.ofText? (textAbout name.written specifications) = .ok tree) :
    (Reader.gathered Reader.mysql.clauses tree).table = name.reported := by
  obtain ⟨t, n, htable, hn⟩ := name.isTableName_written
  obtain ⟨xs, e, m, -, -, rfl⟩ :=
    (ofText?_about_iff htable hn (toList_textAbout name.written specifications)).mp h
  rw [Reader.gathered_mysql, Clause.facts_tableName_of_children rfl rfl rfl, text_nameNode,
    TableName.written, String.toList_ofList, name.plainTableName_written]
  rfl

/-- A statement reports the name of its table part by part, and it is the name that is meant just if
no part has a dot. -/
theorem read_table {name : TableName} {specifications : String} {tree : Node}
    (h : Node.ofText? (textAbout name.written specifications) = .ok tree)
    (layout : Option Layout) : ∃ s, Reader.mysql.read tree layout = .ok s ∧
      s.table = name.reported ∧
      (s.table = name.plain ↔ ∀ part ∈ name.parts, '.' ∉ part.content) := by
  have hread := Reader.read_of_ofText? h
  have htable := table_gathered h
  have hplain := name.reported_eq_plain_iff
  cases layout with
  | none => exact ⟨_, hread, htable, by rw [htable, hplain]⟩
  | some layout =>
    refine ⟨_, Reader.read_some_eq_ok hread layout, htable, ?_⟩
    show (Reader.gathered _ _).table = _ ↔ _
    rw [htable, hplain]

/-- A quoted name with a dot, and blanks on either side of it, in a schema with a blank. -/
def spaced : TableName where
  schema := some (.quoted { text := "my db".toList, ne_nil := by decide, plain := by decide })
  table := .quoted { text := "a . b".toList, ne_nil := by decide, plain := by decide }

example : spaced.reported = "my db.`a.b`" := by decide

/-- A name with a dot in it is reported without the blanks at its dot. -/
theorem read_table_spaced : ∃ tree,
    Node.ofText? (textAbout spaced.written "DROP c") = .ok tree ∧
      ∃ s, Reader.mysql.read tree (some []) = .ok s ∧ s.table = spaced.reported ∧
        (s.table = spaced.plain ↔ ∀ part ∈ spaced.parts, '.' ∉ part.content) := by
  obtain ⟨tree, htree⟩ := exists_of_isSome (x := Node.ofText? (textAbout spaced.written "DROP c"))
    (by decide +kernel)
  exact ⟨tree, htree, read_table htree (some [])⟩

/-- A quoted name with a dot. -/
def pointed : TableName where
  schema := none
  table := .quoted { text := "a.b".toList, ne_nil := by decide, plain := by decide }

/-- The quotes of a name with a dot are reported with it. -/
theorem read_pointed : ∃ tree s,
    Node.ofText? (textAbout pointed.written "DROP COLUMN c") = .ok tree ∧
      Reader.mysql.read tree none = .ok s ∧ s.table = "`a.b`" ∧ pointed.plain = "a.b" := by
  obtain ⟨tree, htree⟩ := exists_of_isSome
    (x := Node.ofText? (textAbout pointed.written "DROP COLUMN c")) (by decide +kernel)
  have hreported : pointed.reported = "`a.b`" := by decide
  exact ⟨tree, _, htree, Reader.read_of_ofText? htree, (table_gathered htree).trans hreported,
    by decide⟩

end AlterTable
