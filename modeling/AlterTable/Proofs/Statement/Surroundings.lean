import AlterTable.Proofs.Statement.Joining
import AlterTable.Proofs.Text

/-!
# What surrounds a statement

White space in front of a statement moves its tree and changes nothing else in it; white space
behind a statement does not change the tree at all, and neither does a semicolon there, unless the
statement has one already.

In front, the first keyword takes the white space, and the node of the whole statement is trimmed of
it (`span_behind`). Behind, nothing but the closing takes any of it (`ofText?_append`): every token
of the clauses is derived in front of more text as it was at the end, and the closing is all that is
left. A Kelvin sign is excluded there because it is read in one way at the end of the text and in
another one in front of more.
-/

namespace AlterTable

open AlterTable.Grammar
open AlterTable.Parse

variable {text w v : String} {tree : Node} {s g x : List Char} {c m n : Cursor} {xs : List Node}

/-! ## White space in front -/

namespace Grammar

/-- A node is trimmed of the white space in front of it. -/
theorem span_behind (hg : Gap g) (hcm : c.Over g m) (hmn : m.Over s n) (r : Rule)
    (xs : List Node) : span r c n xs = span r m n xs := by
  have htext : Text.trim (g ++ s) = Text.trim s := Text.trim_append hg.isWhiteSpace s
  have hstart : c.offset + Text.byteLength ((g ++ s).takeWhile Text.isWhiteSpace) =
      m.offset + Text.byteLength (s.takeWhile Text.isWhiteSpace) := by
    rw [List.takeWhile_append_of_pos hg.isWhiteSpace, Text.byteLength_append, hcm.offset,
      Nat.add_assoc]
  rw [span, span, (hcm.trans hmn).upTo_eq, hmn.upTo_eq, htext, hstart]

namespace Production

/-- The first keyword takes the white space in front of a statement. -/
theorem derives_alterTable_behind (hg : Gap g) (hcm : c.Over g m)
    (h : alterTable.Derives Token.Read m xs n) : alterTable.Derives Token.Read c xs n := by
  obtain ⟨ys, rfl, hbody⟩ := derives_node.mp h
  obtain ⟨s, hmn⟩ := hbody.over
  obtain ⟨_, m', _, rfl, hwords, hrest⟩ := derives_seq.mp hbody
  obtain ⟨_, m'', _, rfl, halter, htable⟩ := derives_seq.mp hwords
  obtain ⟨rfl, u, hu, hover⟩ := derives_token.mp halter
  have hspelled := (hu.spelled nofun).behind hg ⟨nofun, nofun⟩
  have hfirst : (keyword .alter).Derives Token.Read c [] m'' :=
    .token ⟨hspelled.accepted, nofun⟩ (hcm.trans hover)
  rw [← span_behind hg hcm hmn]
  exact .node (.seq (.seq hfirst htable) hrest)

end Production

end Grammar

/-- White space in front of a statement shifts its tree. -/
theorem ofText?_behind (h : Node.ofText? text = .ok tree) (hw : Gap w.toList) :
    Node.ofText? (w ++ text) = .ok (tree.shift w.utf8ByteSize) := by
  obtain ⟨n, hd⟩ := ofText?_eq_ok_iff_derives.mp h
  have hover : (Cursor.ofText (w ++ text).toList).Over w.toList
      ⟨0 + w.utf8ByteSize, text.toList⟩ := by
    refine ⟨String.toList_append, ?_⟩
    rw [Text.byteLength_toList]
    rfl
  obtain ⟨ys, e, zs, htree, halter, hclosing⟩ :=
    Production.derives_seq.mp (hd.movedOn w.utf8ByteSize)
  have hall : Production.statement.Derives Token.Read (.ofText (w ++ text).toList) (ys ++ zs) _ :=
    .seq (Production.derives_alterTable_behind hw hover halter) hclosing
  rw [← htree] at hall
  exact ofText?_eq_ok_iff_derives.mpr ⟨_, hall⟩

/-! ## Text behind -/

/-- More text behind a statement does not change its tree if it goes well with every closing that
the statement may have. -/
theorem ofText?_append (h : Node.ofText? text = .ok tree) (hsign : kelvinSign ∉ text.toList)
    (hv : kelvinSign ∉ v.toList) (hends : Ends v.toList)
    (hclosing : ∀ s, s <:+ text.toList → IsClosing s → IsClosing (s ++ v.toList)) :
    Node.ofText? (text ++ v) = .ok tree := by
  obtain ⟨n, hd⟩ := ofText?_eq_ok_iff_derives.mp h
  obtain ⟨ys, e, zs, htree, halter, hend⟩ := Production.derives_seq.mp hd
  obtain ⟨u, hu⟩ := halter.over
  obtain ⟨rfl, he⟩ := hend.isClosing
  have hsuffix : e.rest <:+ text.toList := ⟨u, hu.rest.symm⟩
  obtain ⟨n', hend'⟩ := Production.exists_derives_closing (c := ⟨e.offset, e.rest ++ v.toList⟩)
    (hclosing e.rest hsuffix he)
  have hboth : kelvinSign ∉ text.toList ++ v.toList := List.not_mem_append hsign hv
  have halter' := ((halter.spelled_of_notMem hsign).inFrontOf not_nullable_of_mem_alterTable
    hends).read_of_notMem hboth
  have hall :
      Production.statement.Derives Token.Read (.ofText (text ++ v).toList) (ys ++ []) n' := by
    rw [String.toList_append]
    exact .seq halter' hend'
  rw [← htree] at hall
  exact ofText?_eq_ok_iff_derives.mpr ⟨n', hall⟩

private theorem Grammar.Gap.ends_append (hg : Gap g) (hx : Ends x) : Ends (g ++ x) := by
  cases g with
  | nil => exact hx
  | cons d g => exact not_isIdentifierChar_of_isGap (hg d List.mem_cons_self)

private theorem Grammar.IsClosing.append_gap (h : IsClosing s) (hg : Gap g) :
    IsClosing (s ++ g) := by
  rcases h with hs | ⟨u, u', rfl, hu, hu'⟩
  · exact .inl (hs.append hg)
  · refine .inr ⟨u, u' ++ g, ?_, hu, hu'.append hg⟩
    rw [List.append_assoc, List.cons_append]

/-- White space behind a statement leaves its tree. -/
theorem ofText?_append_gap (h : Node.ofText? text = .ok tree) (hsign : kelvinSign ∉ text.toList)
    (hw : Gap w.toList) : Node.ofText? (text ++ w) = .ok tree := by
  have hends : Ends (w.toList ++ []) := hw.ends_append rfl
  rw [List.append_nil] at hends
  exact ofText?_append h hsign (hw.notMem rfl) hends fun s _ hs => hs.append_gap hw

/-- The text ends with a semicolon, perhaps with white space behind it. -/
def Terminated (s : List Char) : Prop :=
  ∃ u g, s = u ++ ';' :: g ∧ Gap g

private theorem terminated_iff : Terminated s ↔ (s.rdropWhile isGap).getLast? = some ';' := by
  constructor
  · rintro ⟨u, g, rfl, hg⟩
    have hback : ∀ d ∈ g.reverse, isGap d = true := fun d hd => hg d (List.mem_reverse.mp hd)
    rw [List.rdropWhile, List.getLast?_reverse, List.reverse_append, List.reverse_cons,
      List.append_assoc, List.dropWhile_append_of_pos hback]
    rfl
  · intro h
    obtain ⟨u, hu⟩ := List.getLast?_eq_some_iff.mp h
    refine ⟨u, s.rtakeWhile isGap, ?_, fun d hd => List.mem_rtakeWhile_imp hd⟩
    have hsplit : s.rdropWhile isGap ++ s.rtakeWhile isGap = s := List.rdropWhile_append_rtakeWhile
    rw [hu, List.append_assoc] at hsplit
    exact hsplit.symm

instance (s : List Char) : Decidable (Terminated s) :=
  decidable_of_iff _ terminated_iff.symm

/-- A text that is not terminated closes with white space only. -/
theorem Grammar.IsClosing.gap (h : IsClosing g) (hg : g <:+ s) (hs : ¬ Terminated s) : Gap g := by
  rcases h with hgap | ⟨u, u', rfl, -, hu'⟩
  · exact hgap
  · obtain ⟨before, hbefore⟩ := hg
    refine absurd ⟨before ++ u, u', ?_, hu'⟩ hs
    rw [List.append_assoc, hbefore]

/-- A terminator behind a statement leaves its tree. -/
theorem ofText?_append_semicolon (h : Node.ofText? text = .ok tree)
    (hsign : kelvinSign ∉ text.toList) (hopen : ¬ Terminated text.toList) (hw : Gap w.toList)
    (hv : Gap v.toList) : Node.ofText? (text ++ w ++ ";" ++ v) = .ok tree := by
  have hbehind : (w ++ (";" ++ v)).toList = w.toList ++ ';' :: v.toList := by
    rw [String.toList_append, String.toList_append]
    rfl
  have hmark : kelvinSign ∉ ';' :: v.toList :=
    List.not_mem_cons_of_ne_of_not_mem (by decide) (hv.notMem rfl)
  rw [String.append_assoc, String.append_assoc]
  apply ofText?_append h hsign
  · rw [hbehind]
    exact List.not_mem_append (hw.notMem rfl) hmark
  · rw [hbehind]
    exact hw.ends_append rfl
  · intro s hs hclosing
    refine .inr ⟨s ++ w.toList, v.toList, ?_, (hclosing.gap hs hopen).append hw, hv⟩
    rw [hbehind, List.append_assoc]

/-! ## Text around -/

/-- White space around a statement, and a semicolon where it has none, leave its tree as it is but
for the offsets: with white space in front, every node starts as many bytes further on, and stops
where its text then does. -/
theorem ofText?_surrounded (h : Node.ofText? text = .ok tree) (hw : Gap w.toList)
    (hv : Gap v.toList) : Node.ofText? (w ++ text) = .ok (tree.shift w.utf8ByteSize) ∧
      (kelvinSign ∉ text.toList → Node.ofText? (text ++ w) = .ok tree ∧
        (¬ Terminated text.toList → Node.ofText? (text ++ w ++ ";" ++ v) = .ok tree)) := by
  refine ⟨ofText?_behind h hw, fun hsign => ⟨ofText?_append_gap h hsign hw, fun hopen => ?_⟩⟩
  exact ofText?_append_semicolon h hsign hopen hw hv

/-- A statement that ends with a position, between blanks and lines. -/
theorem ofText?_surrounded_position : ∃ tree,
    Node.ofText? "ALTER TABLE t ADD é INT AFTER b" = .ok tree ∧
    Node.ofText? (" \n" ++ "ALTER TABLE t ADD é INT AFTER b") = .ok (tree.shift 2) ∧
    Node.ofText? ("ALTER TABLE t ADD é INT AFTER b" ++ " \n") = .ok tree ∧
    Node.ofText? ("ALTER TABLE t ADD é INT AFTER b" ++ " \n" ++ ";" ++ "\t") = .ok tree := by
  obtain ⟨tree, h⟩ := exists_of_isSome (x := Node.ofText? "ALTER TABLE t ADD é INT AFTER b")
    (by decide +kernel)
  obtain ⟨hfront, hbehind⟩ := ofText?_surrounded (w := " \n") (v := "\t") h (by decide) (by decide)
  obtain ⟨hspace, hmark⟩ := hbehind (by decide)
  exact ⟨tree, h, hfront, hspace, hmark (by decide)⟩

/-- A Kelvin sign at the end is read in another way in front of a blank, and a second semicolon is
not read. -/
example : (Node.ofText? "ALTER TABLE t DROP PRIMARY \u212a").toOption.isSome = true ∧
    (Node.ofText? "ALTER TABLE t DROP PRIMARY \u212a ").toOption.isNone = true ∧
    (Node.ofText? "ALTER TABLE t DROP c; ;").toOption.isNone = true := by
  decide +kernel

end AlterTable
