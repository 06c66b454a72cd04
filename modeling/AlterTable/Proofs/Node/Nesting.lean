import AlterTable.Proofs.Draft.Syntax
import AlterTable.Proofs.Grammar.Exactness
import AlterTable.Proofs.Grammar.Parts

/-!
# Nodes nest

In a text whose only white space is ASCII, the nodes of a tree nest: no text of a node is empty, the
bytes of a child are among those of its parent, and of two children the one written first ends
before the other one starts.

Each node trims what was read for it by itself. Yet nothing is trimmed but the white space in front:
every token ends with a character that is no white space (`Token.Read.endsSolid`), and so does
whatever is made of tokens. So a node starts with the first such character behind the place where
its reading began (`Cursor.ahead`), and ends at the very place where its reading ended.
-/

namespace AlterTable

open AlterTable.Parse

/-! ## Texts that end with something to see -/

namespace Text

variable {v w r : List Char}

/-- All white space in the text is ASCII. -/
def PlainSpaces (s : List Char) : Prop :=
  ∀ d ∈ s, isWhiteSpace d = true → d.toNat < 128

/-- The last character of the text is no white space. -/
def EndsSolid (w : List Char) : Prop :=
  ∃ v d, w = v ++ [d] ∧ isWhiteSpace d = false

instance (s : List Char) : Decidable (PlainSpaces s) :=
  List.decidableBAll (fun d => isWhiteSpace d = true → d.toNat < 128) s

private theorem EndsSolid.append (v : List Char) (h : EndsSolid w) : EndsSolid (v ++ w) := by
  obtain ⟨u, d, rfl, hd⟩ := h
  exact ⟨v ++ u, d, (List.append_assoc ..).symm, hd⟩

/-- The white space that such a text begins with does not reach beyond it. -/
theorem EndsSolid.takeWhile_append (h : EndsSolid w) (r : List Char) :
    (w ++ r).takeWhile isWhiteSpace = w.takeWhile isWhiteSpace := by
  obtain ⟨v, d, rfl, hd⟩ := h
  simp [List.takeWhile_append, hd]

/-- Only the white space in front is trimmed. -/
theorem EndsSolid.trim_eq (h : EndsSolid w) : trim w = trimStart w ∧ trimStart w ≠ [] := by
  obtain ⟨v, d, rfl, hd⟩ := h
  have hstart : trimStart (v ++ [d]) = trimStart v ++ [d] := by
    rw [trimStart, trimStart, List.dropWhile_append]
    split
    next hnil => simp [hd, List.isEmpty_iff.mp hnil]
    next => rfl
  have hend : trimEnd (trimStart v ++ [d]) = trimStart v ++ [d] := by
    rw [trimEnd, List.reverse_concat, List.dropWhile_cons, if_neg (by simp [hd]),
      List.reverse_cons, List.reverse_reverse]
  rw [trim, hstart, hend]
  exact ⟨rfl, List.append_ne_nil_of_right_ne_nil _ (List.cons_ne_nil _ _)⟩

end Text

private theorem Draft.IsFirm.endsSolid {w : List Char} (h : Draft.IsFirm w) : Text.EndsSolid w := by
  obtain ⟨v, d, rfl⟩ : ∃ v d, w = v ++ [d] :=
    ⟨w.dropLast, w.getLast h.ne_nil, (List.dropLast_concat_getLast _).symm⟩
  rw [Draft.IsFirm, List.getLast?_concat] at h
  exact ⟨v, d, rfl, by simpa using (Bool.and_eq_true_iff.mp h).2⟩

/-! ## What lies ahead of a place -/

namespace Parse.Cursor

variable {c n : Cursor} {w : List Char}

/-- The offset of the first character from the place on that is no white space. -/
def ahead (c : Cursor) : Nat :=
  c.offset + Text.byteLength (c.rest.takeWhile Text.isWhiteSpace)

private theorem offset_le_ahead (c : Cursor) : c.offset ≤ c.ahead :=
  Nat.le_add_right _ _

/-- What lies ahead of a place does not lie behind a later one. -/
theorem Over.ahead_le (h : c.Over w n) : c.ahead ≤ n.ahead := by
  rw [ahead, ahead, h.offset, h.rest, List.takeWhile_append]
  split
  next =>
    rw [Text.byteLength_append]
    omega
  next =>
    have hsplit := congrArg Text.byteLength (List.takeWhile_append_dropWhile
      (p := Text.isWhiteSpace) (l := w))
    rw [Text.byteLength_append] at hsplit
    omega

end Parse.Cursor

private theorem Text.PlainSpaces.behind {c m : Cursor} {v : List Char} (h : Text.PlainSpaces c.rest)
    (hv : c.Over v m) : Text.PlainSpaces m.rest :=
  fun d hd => h d (by rw [hv.rest]; exact List.mem_append_right _ hd)

/-! ## Tokens and what is made of them -/

namespace Grammar

variable {t : Token} {g v w r : List Char} {c m n : Cursor} {a : Production} {xs : List Node}

private theorem IsWord.endsSolid (h : IsWord w) (hplain : Text.PlainSpaces w) :
    Text.EndsSolid w := by
  have hmem := List.getLast_mem h.1
  refine ⟨w.dropLast, w.getLast h.1, (List.dropLast_concat_getLast _).symm, ?_⟩
  cases hwhite : Text.isWhiteSpace (w.getLast h.1) with
  | false => rfl
  | true =>
    have hnot := Draft.not_isWhiteSpace_of_isIdentifierChar (h.2 _ hmem) (hplain _ hmem hwhite)
    exact hwhite.symm.trans hnot

/-- What spells a token that cannot be empty does not end with white space. -/
theorem Token.Spelled.endsSolid (h : t.Spelled w r) (ht : t.nullable = false)
    (hplain : Text.PlainSpaces w) : Text.EndsSolid w := by
  have hword : ∀ {g v : List Char}, IsWord v → Text.PlainSpaces (g ++ v) →
      Text.EndsSolid (g ++ v) := fun {g v} hv hplain =>
    (hv.endsSolid fun d hd => hplain d (List.mem_append_right g hd)).append g
  cases h with
  | @keyword _ g _ _ _ hw => exact (Draft.isFirm_of_lower hw).endsSolid.append g
  | @mark m g => exact ⟨g, m.char, rfl, by cases m <;> decide⟩
  | dot => exact ⟨[], '.', rfl, by decide⟩
  | @quotedName g _ _ _ hw =>
    obtain ⟨q, -, -, rfl⟩ := hw
    exact (Draft.isFirm_quoted q).endsSolid.append g
  | bareName _ hw => exact hword hw hplain
  | @digits g _ _ _ hw => exact (Draft.isFirm_of_isDigits hw).endsSolid.append g
  | @string g s => exact (Draft.isFirm_stringText s).endsSolid.append g
  | @stringLiteral g s => exact (Draft.isFirm_stringText s).endsSolid.append g
  | @numberLiteral g _ _ _ hw => exact (Draft.isFirm_of_isNumber hw).endsSolid.append g
  | wordLiteral _ hw => exact hword hw hplain
  | space => cases ht
  | stop => cases ht

/-- A token that has to be written ends with a character that is no white space. -/
theorem Token.Read.endsSolid (h : t.Read w r) (ht : t.nullable = false)
    (hplain : Text.PlainSpaces w) : Text.EndsSolid w := by
  rcases h.1 with hspelled | ⟨-, -, g, -, rfl⟩
  · exact hspelled.endsSolid ht hplain
  · exact ⟨g, kelvinSign, rfl, by decide⟩

/-! ## Nodes between two places -/

/-- The node starts with what lies ahead of the first place and ends at the second one. -/
structure Fills (t : Node) (c n : Cursor) : Prop where
  text_ne : t.text ≠ ""
  start : t.start = c.ahead
  stop : t.stop + 1 = n.offset

/-- A node fills the place that it was read from, if that does not end with white space. -/
theorem fills_span (hw : c.Over w n) (hsolid : Text.EndsSolid w) (r : Rule) (xs : List Node) :
    Fills (span r c n xs) c n := by
  obtain ⟨htrim, hne⟩ := hsolid.trim_eq
  have htext : (span r c n xs).text.toList = Text.trimStart w := by
    show (String.ofList (Text.trim (c.upTo n))).toList = _
    rw [hw.upTo_eq, String.toList_ofList, htrim]
  have hstart : (span r c n xs).start =
      c.offset + Text.byteLength (w.takeWhile Text.isWhiteSpace) := by
    show c.offset + Text.byteLength ((c.upTo n).takeWhile Text.isWhiteSpace) = _
    rw [hw.upTo_eq]
  have hsplit := congrArg Text.byteLength (Text.takeWhile_append_trimStart w)
  have hpos : Text.byteLength (Text.trimStart w) ≠ 0 := fun hzero =>
    hne (Text.byteLength_eq_zero_iff.mp hzero)
  rw [Text.byteLength_append] at hsplit
  refine ⟨fun hempty => ?_, ?_, ?_⟩
  · rw [hempty] at htext
    exact hne htext.symm
  · rw [hstart, Cursor.ahead, hw.rest, hsolid.takeWhile_append]
  · rw [Node.stop, hstart, htext, hw.offset]
    omega

/-- The nodes that are derived between two places lie between them, one behind the other. -/
structure InOrder (xs : List Node) (c n : Cursor) : Prop where
  start_le : ∀ t ∈ xs, c.ahead ≤ t.start
  stop_lt : ∀ t ∈ xs, t.stop < n.offset
  apart : xs.Pairwise fun t u => t.stop < u.start

private theorem inOrder_nil (c n : Cursor) : InOrder [] c n :=
  ⟨fun _ ht => absurd ht List.not_mem_nil, fun _ ht => absurd ht List.not_mem_nil, .nil⟩

/-- Nodes in order, followed by nodes in order from where the first ones end, are in order. -/
theorem InOrder.append {ys : List Node} (h : InOrder xs c m) (h' : InOrder ys m n)
    (hv : c.Over v m) (hw : m.Over w n) : InOrder (xs ++ ys) c n where
  start_le t ht := by
    rcases List.mem_append.mp ht with ht | ht
    · exact h.start_le t ht
    · exact Nat.le_trans hv.ahead_le (h'.start_le t ht)
  stop_lt t ht := by
    rcases List.mem_append.mp ht with ht | ht
    · have hlt := h.stop_lt t ht
      rw [hw.offset]
      omega
    · exact h'.stop_lt t ht
  apart := by
    refine List.pairwise_append.mpr ⟨h.apart, h'.apart, fun t ht u hu => ?_⟩
    have hstop := h.stop_lt t ht
    have hahead := m.offset_le_ahead
    have hstart := h'.start_le u hu
    omega

namespace Production

/-- Whatever is derived from such tokens takes nothing, or a text that ends likewise. -/
theorem Derives.eq_or_endsSolid (h : a.Derives Token.Read c xs n)
    (ha : ∀ t ∈ a.tokens, t.nullable = false) (hplain : Text.PlainSpaces c.rest) :
    n = c ∨ ∃ w, c.Over w n ∧ Text.EndsSolid w := by
  have hbehind : ∀ {c m n : Cursor} {v : List Char}, c.Over v m →
      (m = c ∨ ∃ w, c.Over w m ∧ Text.EndsSolid w) →
      (n = m ∨ ∃ w, m.Over w n ∧ Text.EndsSolid w) →
        n = c ∨ ∃ w, c.Over w n ∧ Text.EndsSolid w := by
    rintro c m n v hv hm (rfl | ⟨w, hw, hsolid⟩)
    · exact hm
    · exact .inr ⟨v ++ w, hv.trans hw, hsolid.append v⟩
  induction h with
  | empty => exact .inl rfl
  | @token t w c n hread hover =>
    have hword : Text.PlainSpaces w :=
      fun d hd => hplain d (by rw [hover.rest]; exact List.mem_append_left _ hd)
    exact .inr ⟨w, hover, hread.endsSolid (ha t (List.mem_singleton_self t)) hword⟩
  | seq hda _ iha ihb =>
    obtain ⟨v, hv⟩ := hda.over
    exact hbehind hv (iha (fun t ht => ha t (List.mem_append_left _ ht)) hplain)
      (ihb (fun t ht => ha t (List.mem_append_right _ ht)) (hplain.behind hv))
  | left _ ih => exact ih (fun t ht => ha t (List.mem_append_left _ ht)) hplain
  | right _ ih => exact ih (fun t ht => ha t (List.mem_append_right _ ht)) hplain
  | starNil => exact .inl rfl
  | starCons hda _ iha ihs =>
    obtain ⟨v, hv⟩ := hda.over
    exact hbehind hv (iha ha hplain) (ihs ha (hplain.behind hv))
  | node _ ih => exact ih ha hplain

/-- The production has to be written, and so have its tokens. -/
def isSolid (a : Production) : Bool :=
  !a.nullable && a.tokens.all (!·.nullable)

/-- What a solid part passes over does not end with white space. -/
theorem Derives.exists_endsSolid (h : a.Derives Token.Read c xs n) (ha : a.isSolid = true)
    (hplain : Text.PlainSpaces c.rest) : ∃ w, c.Over w n ∧ Text.EndsSolid w := by
  obtain ⟨hnull, htokens⟩ := Bool.and_eq_true_iff.mp ha
  refine (h.eq_or_endsSolid (fun t ht => ?_) hplain).resolve_left ?_
  · simpa using List.all_eq_true.mp htokens t ht
  · rintro rfl
    exact Nat.lt_irrefl _ (h.accepted.length_lt (by simpa using hnull))

/-- The nodes of a derivation stand in order if each of them is solid. -/
theorem Derives.inOrder (h : a.Derives Token.Read c xs n)
    (ha : ∀ p ∈ a.tops, p.2.isSolid = true) (hplain : Text.PlainSpaces c.rest) :
    InOrder xs c n := by
  induction h with
  | empty => exact inOrder_nil _ _
  | token => exact inOrder_nil _ _
  | seq hda hdb iha ihb =>
    obtain ⟨v, hv⟩ := hda.over
    obtain ⟨w, hw⟩ := hdb.over
    exact (iha (fun p hp => ha p (List.mem_append_left _ hp)) hplain).append
      (ihb (fun p hp => ha p (List.mem_append_right _ hp)) (hplain.behind hv)) hv hw
  | left _ ih => exact ih (fun p hp => ha p (List.mem_append_left _ hp)) hplain
  | right _ ih => exact ih (fun p hp => ha p (List.mem_append_right _ hp)) hplain
  | starNil => exact inOrder_nil _ _
  | starCons hda hds iha ihs =>
    obtain ⟨v, hv⟩ := hda.over
    obtain ⟨w, hw⟩ := hds.over
    exact (iha ha hplain).append (ihs ha (hplain.behind hv)) hv hw
  | @node r a c n xs hda _ =>
    obtain ⟨w, hw, hsolid⟩ := hda.exists_endsSolid (ha (r, a) (List.mem_singleton_self _)) hplain
    have hfills := fills_span hw hsolid r xs
    have hstart := hfills.start
    have hstop := hfills.stop
    refine ⟨?_, ?_, List.pairwise_singleton _ _⟩
    · rw [List.forall_mem_singleton]
      omega
    · rw [List.forall_mem_singleton]
      omega

/-- Every part of a statement is solid, and so is everything right below it. -/
theorem isSolid_of_mem_parts : ∀ p ∈ statement.parts,
    p.2.isSolid = true ∧ ∀ q ∈ p.2.tops, q.2.isSolid = true := by
  decide +kernel

end Production

end Grammar

/-! ## Trees -/

namespace Node

variable {text : String} {tree u : Node}

/-- The node has a text, and its children lie in it, one behind the other. -/
structure Nests (u : Node) : Prop where
  text_ne : u.text ≠ ""
  inside : ∀ t ∈ u.children, u.start ≤ t.start ∧ t.stop ≤ u.stop
  apart : u.children.Pairwise fun t t' => t.stop < t'.start

/-- Where all white space is ASCII, every node of a tree nests. -/
theorem nests_of_within (h : Node.ofText? text = .ok tree) (hplain : Text.PlainSpaces text.toList)
    (hu : u.Within tree) : u.Nests := by
  obtain ⟨n, hd⟩ := Grammar.ofText?_eq_ok_iff_derives.mp h
  obtain ⟨p, hp, c, m, xs, v, w, rfl, hpart, hv, -⟩ :=
    hd.exists_part (List.mem_singleton_self _) hu
  have hrest : Text.PlainSpaces c.rest := Text.PlainSpaces.behind hplain hv
  obtain ⟨hsolid, htops⟩ := Grammar.Production.isSolid_of_mem_parts p hp
  obtain ⟨x, hx, hends⟩ := hpart.exists_endsSolid hsolid hrest
  have hfills := Grammar.fills_span hx hends p.1 xs
  have hchildren := hpart.inOrder htops hrest
  refine ⟨hfills.text_ne, fun t ht => ⟨?_, ?_⟩, hchildren.apart⟩
  · rw [hfills.start]
    exact hchildren.start_le t ht
  · have hlt := hchildren.stop_lt t ht
    have hstop := hfills.stop
    omega

/-- A statement with white space of several kinds and with letters that are not ASCII. -/
def spaced : String :=
  "ALTER TABLE t\n ADD é INT COMMENT ' x '  AFTER ïa ,\tDROP x ;"

/-- The children of a clause nest in it though there is white space of all kinds between them. -/
theorem nests_of_within_spaced : ∃ tree clause : Node, Node.ofText? spaced = .ok tree ∧
    Text.PlainSpaces spaced.toList ∧ clause.Within tree ∧ clause.children.length = 2 ∧
    clause.start = 15 ∧ clause.stop = 49 ∧ clause.Nests := by
  have hplain : Text.PlainSpaces spaced.toList := by
    decide +kernel
  have hclause : ((Node.ofText? spaced).toOption.bind fun tree => tree.children[1]?).map
      (fun u => (u.children.length, u.start, u.stop)) = some (2, 15, 49) := by
    decide +kernel
  cases h : Node.ofText? spaced with
  | error e =>
    rw [h] at hclause
    cases hclause
  | ok tree =>
    rw [h] at hclause
    have htree : tree.children[1]?.map (fun u => (u.children.length, u.start, u.stop)) =
        some (2, 15, 49) := hclause
    obtain ⟨clause, hfound, heq⟩ := Option.map_eq_some_iff.mp htree
    obtain ⟨hlength, hrange⟩ := Prod.mk.inj heq
    obtain ⟨hstart, hstop⟩ := Prod.mk.inj hrange
    have hwithin := within_of_mem_children (List.mem_of_getElem? hfound)
    exact ⟨tree, clause, rfl, hplain, hwithin, hlength, hstart, hstop,
      nests_of_within h hplain hwithin⟩

/-- A no-break space is an identifier, and white space to the node that is made for it. -/
example : ((Node.ofText? "ALTER TABLE t DROP \u00a0").toOption.bind fun tree =>
    tree.children[1]?.bind fun clause => clause.children[0]?).map Node.text = some "" := by
  decide +kernel

end Node

end AlterTable
