import AlterTable.Proofs.Grammar.Exactness
import AlterTable.Proofs.Grammar.Parts
import AlterTable.Proofs.Text

/-!
# Offsets

Every node of the tree of a text says exactly where in the text its own text stands, in bytes of the
UTF-8 form and whatever characters there are: the offset and the end are boundaries between
characters, and the bytes between them are the node's.

A node was read between two places on the way from the one end of the text to the other
(`Node.ReadBetween`), and spans what lies between them; the second place leaves a true suffix of
what the first one leaves. So its offset can also be told from what was left: it is the length of
the whole text less what was left once white space was skipped, and none of the differences falls
below zero.
-/

namespace AlterTable

open AlterTable.Parse

variable {text : String} {tree u : Node} {c n : Cursor}

/-- The node's text stands in the text at the node's offset. -/
structure Node.Exact (u : Node) (text : String) : Prop where
  fits : u.start + u.text.utf8ByteSize ≤ text.utf8ByteSize
  isValid_start : String.Pos.Raw.IsValid text ⟨u.start⟩
  isValid_end : String.Pos.Raw.IsValid text ⟨u.start + u.text.utf8ByteSize⟩
  bytes : text.toByteArray.extract u.start (u.start + u.text.utf8ByteSize) = u.text.toByteArray
  stop : (u.stop : Int) = max 0 ((u.start : Int) + u.text.utf8ByteSize - 1)

/-- The white space that a stretch of the text between two places begins with. -/
def Parse.Cursor.leading (c n : Cursor) : List Char :=
  (c.upTo n).takeWhile Text.isWhiteSpace

/-- The node spans what was read between the two places of the text. -/
structure Node.Spans (u : Node) (text : String) (c n : Cursor) : Prop where
  eq_span : u = Grammar.span u.rule c n u.children
  left_suffix : c.rest <:+ text.toList
  offset_le : c.offset ≤ n.offset
  rest_eq : c.rest = c.upTo n ++ n.rest
  left_le : Text.byteLength c.rest ≤ text.utf8ByteSize
  rest_le : Text.byteLength n.rest ≤ Text.byteLength c.rest
  leading_le : Text.byteLength (c.leading n) ≤ Text.byteLength c.rest
  start_eq : u.start = text.utf8ByteSize -
    (Text.byteLength c.rest - Text.byteLength (c.leading n))

/-- The node was read between the two places: a derivation of the tree from the text derives it from
the one to the other. -/
def Node.ReadBetween (u tree : Node) (text : String) (c n : Cursor) : Prop :=
  ∃ last, Grammar.Production.statement.DerivesWith Grammar.Token.Read u c n
    (Cursor.ofText text.toList) [tree] last

/-! ## Between two places -/

/-- Each place of a text has the bytes before it that are not left. -/
theorem Parse.Cursor.offset_add_left {v : List Char} (h : (Cursor.ofText text.toList).Over v c) :
    c.offset + Text.byteLength c.rest = text.utf8ByteSize := by
  have hrest : text.toList = v ++ c.rest := h.rest
  have hoffset : c.offset = 0 + Text.byteLength v := h.offset
  rw [hoffset, Nat.zero_add, ← Text.byteLength_append, ← hrest, Text.byteLength_toList]

/-- A node spans what it was read from. -/
theorem Grammar.spans_span {v w : List Char} {r : Rule} {xs : List Node}
    (hv : (Cursor.ofText text.toList).Over v c) (hw : c.Over w n) :
    (Grammar.span r c n xs).Spans text c n := by
  have hupTo := hw.upTo_eq
  have hleft := Cursor.offset_add_left hv
  have hrest : Text.byteLength c.rest = Text.byteLength w + Text.byteLength n.rest := by
    rw [hw.rest, Text.byteLength_append]
  have hleading : Text.byteLength (c.leading n) ≤ Text.byteLength w := by
    have hsplit := congrArg Text.byteLength (List.takeWhile_append_dropWhile
      (p := Text.isWhiteSpace) (l := w))
    rw [Text.byteLength_append] at hsplit
    rw [Cursor.leading, hupTo]
    omega
  have hstart : (Grammar.span r c n xs).start = c.offset + Text.byteLength (c.leading n) := rfl
  refine ⟨rfl, ⟨v, hv.rest.symm⟩, ?_, ?_, ?_, ?_, ?_, ?_⟩
  · rw [hw.offset]
    exact Nat.le_add_right _ _
  · rw [hupTo, hw.rest]
  · omega
  · omega
  · omega
  · omega

/-- The text of a node stands where the node starts. -/
theorem Grammar.standsAt_span {v w : List Char} {r : Rule} {xs : List Node}
    (hv : (Cursor.ofText text.toList).Over v c) (hw : c.Over w n) :
    Text.StandsAt (Grammar.span r c n xs).text (Grammar.span r c n xs).start text := by
  obtain ⟨back, hback⟩ := Text.exists_eq_append_trim w
  have htext : (Grammar.span r c n xs).text.toList = Text.trim w := by
    show (String.ofList (Text.trim (c.upTo n))).toList = _
    rw [hw.upTo_eq, String.toList_ofList]
  have hstart : (Grammar.span r c n xs).start =
      Text.byteLength (v ++ w.takeWhile Text.isWhiteSpace) := by
    show c.offset + Text.byteLength ((c.upTo n).takeWhile Text.isWhiteSpace) = _
    have hoffset : c.offset = 0 + Text.byteLength v := hv.offset
    rw [hw.upTo_eq, hoffset, Text.byteLength_append, Nat.zero_add]
  have hsplit : text.toList = v ++ w.takeWhile Text.isWhiteSpace ++
      ((Grammar.span r c n xs).text.toList ++ (back ++ n.rest)) :=
    calc text.toList
        = v ++ (w ++ n.rest) := by rw [← hw.rest]; exact hv.rest
      _ = v ++ (w.takeWhile Text.isWhiteSpace ++ (Text.trim w ++ back) ++ n.rest) := by
        rw [← hback]
      _ = v ++ w.takeWhile Text.isWhiteSpace ++ (Text.trim w ++ (back ++ n.rest)) := by
        simp only [List.append_assoc]
      _ = _ := by rw [htext]
  rw [hstart]
  exact Text.standsAt_of_toList hsplit

/-- A node whose text stands where it starts is exact. -/
theorem Node.exact_of_standsAt (h : Text.StandsAt u.text u.start text) : u.Exact text where
  fits := h.end_le
  isValid_start := h.isValid_start
  isValid_end := h.isValid_end
  bytes := h.extract_eq
  stop := by
    rw [Node.stop, Text.byteLength_toList]
    omega

/-! ## Nodes of a tree -/

/-- Whichever two places a node was read between, it stands and spans as it should. -/
theorem Node.ReadBetween.exact_and (h : u.ReadBetween tree text c n) :
    u.Exact text ∧ u.Spans text c n := by
  obtain ⟨last, hwith⟩ := h
  obtain ⟨v, w, hv, hw, hu⟩ := hwith.exists_over
  rw [hu]
  exact ⟨exact_of_standsAt (Grammar.standsAt_span hv hw), Grammar.spans_span hv hw⟩

/-- A node at any depth of a tree stands where it says. It was read between two places of the text,
and it spans what lies between any two such places. -/
theorem Node.exact_of_within (h : Node.ofText? text = .ok tree) (hu : u.Within tree) :
    u.Exact text ∧ (∃ c n, u.ReadBetween tree text c n) ∧
      ∀ c n, u.ReadBetween tree text c n → u.Spans text c n := by
  obtain ⟨last, hd⟩ := Grammar.ofText?_eq_ok_iff_derives.mp h
  obtain ⟨c, n, hwith⟩ := hd.exists_derivesWith (List.mem_singleton_self _) hu
  have hread : u.ReadBetween tree text c n := ⟨last, hwith⟩
  exact ⟨hread.exact_and.1, ⟨c, n, hread⟩, fun _ _ hread => hread.exact_and.2⟩

/-- A statement with letters of more than one byte. -/
def accented : String :=
  "ALTER TABLE t ADD é INT AFTER ïa"

/-- The anchor of the position in it, the last of its nodes. -/
def anchor? (tree : Node) : Option Node :=
  tree.children[1]?.bind fun clause => clause.children[1]?.bind fun position =>
    position.children[0]?

/-- An anchor behind a character of two bytes is exact, and spans the place that it was read from.
-/
theorem Node.exact_of_within_anchor : ∃ tree u : Node, Node.ofText? accented = .ok tree ∧
    u.Within tree ∧ u.text = "ïa" ∧ u.start = 31 ∧
    u.Exact accented ∧ ∃ c n, u.ReadBetween tree accented c n ∧ u.Spans accented c n := by
  have hanchor : ((Node.ofText? accented).toOption.bind anchor?).map (fun u => (u.text, u.start))
      = some ("ïa", 31) := by
    decide +kernel
  cases h : Node.ofText? accented with
  | error e =>
    rw [h] at hanchor
    cases hanchor
  | ok tree =>
    rw [h] at hanchor
    have htree : (anchor? tree).map (fun u => (u.text, u.start)) = some ("ïa", 31) := hanchor
    obtain ⟨u, hfound, heq⟩ := Option.map_eq_some_iff.mp htree
    obtain ⟨clause, hclause, hinside⟩ := Option.bind_eq_some_iff.mp hfound
    obtain ⟨position, hposition, hu⟩ := Option.bind_eq_some_iff.mp hinside
    have hwithin : u.Within tree :=
      .under (List.mem_of_getElem? hclause) (.under (List.mem_of_getElem? hposition)
        (Node.within_of_mem_children (List.mem_of_getElem? hu)))
    obtain ⟨htext, hstart⟩ := Prod.mk.inj heq
    obtain ⟨hexact, ⟨c, n, hread⟩, hspans⟩ := Node.exact_of_within h hwithin
    exact ⟨tree, u, rfl, hwithin, htext, hstart, hexact, c, n, hread, hspans c n hread⟩

end AlterTable
