import AlterTable.Reader
import AlterTable.Proofs.Draft.Derivation
import AlterTable.Proofs.Grammar.Parts
import AlterTable.Proofs.Grammar.Written

/-!
# Positions as they are written

The words `FIRST` and `AFTER` begin positions and are written nowhere else, which the grammar alone
shows (`wordsInPlace`). So whatever tokens a text is written with, the words among them are those
that the positions in its tree begin with, in the same order and at the same offsets.
-/

namespace AlterTable

open AlterTable.Grammar
open AlterTable.Parse

/-- The word that a position begins with, at the offset of the position. -/
def Node.placeWord (p : Node) : Written :=
  ⟨.keyword (if p.hasPart .columnName then .after else .first), p.start⟩

namespace Grammar

/-- The token is one of the two words that positions begin with. -/
def Token.isPlaceWord : Token → Bool
  | .keyword .first => true
  | .keyword .after => true
  | _ => false

/-- The two words that begin a position are `FIRST` and `AFTER`. -/
theorem Token.isPlaceWord_iff {t : Token} :
    t.isPlaceWord = true ↔ ∃ k ∈ [Keyword.first, .after], t = .keyword k := by
  constructor
  · intro h
    cases t with
    | keyword k => cases k <;> first | exact ⟨_, by decide, rfl⟩ | cases h
    | _ => cases h
  · rintro ⟨k, hk, rfl⟩
    rcases List.mem_pair.mp hk with rfl | rfl <;> rfl

/-- The words among the tokens that positions begin with. -/
def placeWords (ts : List Written) : List Written :=
  ts.filter (·.token.isPlaceWord)

variable {a : Production} {c m n : Cursor} {xs : List Node} {ts us : List Written}
variable {w : Written} {k : Keyword} {v r : List Char}

private theorem ne_key_of_mem (h : k ∈ [Keyword.first, .after]) : k ≠ .key := by
  rintro rfl
  revert h
  decide

private theorem placeWords_append (ts us : List Written) :
    placeWords (ts ++ us) = placeWords ts ++ placeWords us :=
  List.filter_append _ _

/-! ## Offsets -/

/-- The words stand one behind the other. -/
theorem Laid.pairwise_placeWords (h : Laid Token.Read c ts n) :
    (placeWords ts).Pairwise (·.offset < ·.offset) := by
  induction h with
  | nil => exact .nil
  | @cons c m n t v ts hread hover hrest ih =>
    unfold placeWords
    rw [List.filter_cons]
    split
    next hword =>
      refine List.pairwise_cons.mpr ⟨fun w hw => ?_, ih⟩
      -- The letters of the word lie between its offset and the tokens behind it.
      have hle := hrest.offset_le (List.mem_filter.mp hw).1
      obtain ⟨k, hk, rfl⟩ := Token.isPlaceWord_iff.mp hword
      obtain ⟨letters, hsplit, -, hlower, -⟩ := exists_letters hread (ne_key_of_mem hk)
      have hpos := mt Text.byteLength_eq_zero_iff.mp (Keyword.isWord_of_lower hlower).1
      have hlength := congrArg Text.byteLength hsplit
      rw [Text.byteLength_append] at hlength
      rw [hover.offset] at hle
      show c.offset + _ < _
      omega
    next => exact ih

/-! ## The grammar -/

namespace Production

/-- The two words begin positions and stand nowhere else. -/
def wordsInPlace : Production → Bool
  | never => true
  | empty => true
  | token t => !t.isPlaceWord
  | seq a b => a.wordsInPlace && b.wordsInPlace
  | alt a b => a.wordsInPlace && b.wordsInPlace
  | star a => a.wordsInPlace
  | node r a =>
    if r = .firstOrAfterColumn then decide (node r a = position) else a.wordsInPlace

/-- In a statement the two words stand nowhere but in front of positions. -/
theorem wordsInPlace_statement : statement.wordsInPlace = true := by
  decide +kernel

/-- A position is written with its word and, behind `AFTER`, a name. -/
theorem allows_position {s : List Token} (h : position.Allows s) :
    s = [.keyword .first] ∨ s = [.keyword .after, .identifier] := by
  cases h with
  | node h =>
    cases h with
    | left h =>
      cases h with
      | seq hword hend =>
        cases hword
        cases hend
        exact .inl rfl
    | right h =>
      cases h with
      | left h =>
        cases h with
        | seq hword h =>
          cases h with
          | seq hname hend =>
            cases hname with
            | node hname =>
              cases hname with
              | seq hname hnone =>
                cases hword
                cases hname
                cases hnone
                cases hend
                exact .inr rfl
      | right h => cases h

/-- The node of a position starts where its word does. -/
theorem start_position (h : Token.Read (.keyword k) v r) (hk : k ≠ .key) {u : List Char}
    (hover : c.Over (v ++ u) n) (xs : List Node) : (span .firstOrAfterColumn c n xs).start =
      c.offset + Text.byteLength (v.takeWhile isGap) := by
  obtain ⟨letters, hsplit, hgap, hlower, -⟩ := exists_letters h hk
  have htight := Draft.isTight_of_isWord (Keyword.isWord_of_lower hlower)
    (Draft.ascii_of_lower hlower) u
  have hall : c.Over (v.takeWhile isGap ++ (letters ++ u)) n := by
    rw [← List.append_assoc, ← hsplit]
    exact hover
  exact Draft.start_span hgap htight hall

/-- A position at the front is derived from its only word, which stands where its node starts. -/
theorem exists_position_first (hread : Token.Read (.keyword .first) v n.rest)
    (hover : c.Over v n) : ∃ p, position.Derives Token.Read c [p] n ∧
      p.rule = .firstOrAfterColumn ∧
      p.placeWord = ⟨.keyword .first, c.offset + Text.byteLength (v.takeWhile isGap)⟩ := by
  have hd : position.Derives Token.Read c [span .firstOrAfterColumn c n ([] ++ [])] n :=
    .node (.left (.seq (.token hread hover) .empty))
  have hstart := start_position hread (by decide) (u := []) (by simpa using hover) []
  have hother : Rule.firstOrAfterColumn ≠ .columnName := by decide
  have hall : (span .firstOrAfterColumn c n []).all .columnName = [] :=
    Node.free_nil.all_eq_nil hother
  have hnone : (span .firstOrAfterColumn c n []).hasPart .columnName = false := by
    rw [Node.hasPart, Node.first?_eq_none hall]
    rfl
  refine ⟨_, hd, rfl, ?_⟩
  rw [List.append_nil, Node.placeWord, hnone, hstart]
  rfl

/-- A position behind a column is derived from its word and the name of the column. The word stands
where the node starts. -/
theorem exists_position_after {v' : List Char} (hread : Token.Read (.keyword .after) v m.rest)
    (hover : c.Over v m) (hread' : Token.Read .identifier v' n.rest) (hover' : m.Over v' n) :
    ∃ p, position.Derives Token.Read c [p] n ∧ p.rule = .firstOrAfterColumn ∧
      p.placeWord = ⟨.keyword .after, c.offset + Text.byteLength (v.takeWhile isGap)⟩ := by
  have hd : position.Derives Token.Read c
      [span .firstOrAfterColumn c n ([] ++ ([span .columnName m n ([] ++ [])] ++ []))] n :=
    .node (.right (.left (.seq (.token hread hover)
      (.seq (.node (.seq (.token hread' hover') .empty)) .empty))))
  have hstart :=
    start_position hread (by decide) (hover.trans hover') [span .columnName m n []]
  have hname : (span .firstOrAfterColumn c n [span .columnName m n []]).hasPart .columnName =
      true :=
    Node.hasPart_iff.mpr (List.ne_nil_of_mem (Node.mem_all_iff.mpr
      ⟨Node.within_of_mem_children (List.mem_singleton_self _), rfl⟩))
  refine ⟨_, hd, rfl, ?_⟩
  simp only [List.append_nil, List.nil_append]
  rw [Node.placeWord, hname, hstart]
  rfl

/-- A position has one node and one of the two words, both at the same place. -/
theorem Writes.exists_position (h : position.Writes c ts n) :
    ∃ p, position.Derives Token.Read c [p] n ∧ p.rule = .firstOrAfterColumn ∧
      placeWords ts = [p.placeWord] := by
  rcases allows_position h.allows with hs | hs
  · obtain ⟨w, rfl, hw⟩ := List.map_eq_singleton_iff.mp hs
    cases h.laid with
    | @cons _ _ _ t v _ hread hover hrest =>
      cases hrest
      obtain rfl : t = .keyword .first := hw
      obtain ⟨p, hd, hrule, hword⟩ := exists_position_first hread hover
      refine ⟨p, hd, hrule, ?_⟩
      rw [hword]
      rfl
  · obtain ⟨w, us, rfl, hw, hus⟩ := List.map_eq_cons_iff.mp hs
    obtain ⟨w', rfl, hw'⟩ := List.map_eq_singleton_iff.mp hus
    cases h.laid with
    | @cons _ m _ t v _ hread hover hrest =>
      cases hrest with
      | @cons _ _ _ t' v' _ hread' hover' hend =>
        cases hend
        obtain rfl : t = .keyword .after := hw
        obtain rfl : t' = .identifier := hw'
        obtain ⟨p, hd, hrule, hword⟩ := exists_position_after hread hover hread' hover'
        refine ⟨p, hd, hrule, ?_⟩
        rw [hword]
        rfl

/-- Whatever is written is derived, and its words are those of the positions in what is derived. -/
theorem Writes.exists_derives (h : a.Writes c ts n) (ha : a.wordsInPlace = true) :
    ∃ xs, a.Derives Token.Read c xs n ∧
      placeWords ts = (Node.outermosts .firstOrAfterColumn xs).map Node.placeWord := by
  -- The induction is on how the grammar allows the tokens, so that the row of tokens is split as
  -- the production is.
  obtain ⟨hallows, hlaid⟩ := h
  generalize hs : ts.map Written.token = s at hallows
  induction hallows generalizing c ts n with
  | empty =>
    obtain rfl := List.map_eq_nil_iff.mp hs
    cases hlaid
    exact ⟨[], .empty, rfl⟩
  | token =>
    obtain ⟨w, rfl, rfl⟩ := List.map_eq_singleton_iff.mp hs
    cases hlaid with
    | cons hread hover hrest =>
      cases hrest
      refine ⟨[], .token hread hover, ?_⟩
      exact List.filter_cons_of_neg (by simpa [wordsInPlace] using ha)
  | seq _ _ iha ihb =>
    obtain ⟨haleft, haright⟩ := Bool.and_eq_true_iff.mp ha
    obtain ⟨us, us', rfl, hus, hus'⟩ := List.map_eq_append_iff.mp hs
    obtain ⟨m, hlaid, hlaid'⟩ := laid_append.mp hlaid
    obtain ⟨xs, hd, hxs⟩ := iha haleft hlaid hus
    obtain ⟨ys, hd', hys⟩ := ihb haright hlaid' hus'
    refine ⟨xs ++ ys, .seq hd hd', ?_⟩
    rw [placeWords_append, hxs, hys, Node.outermosts_append, List.map_append]
  | left _ ih =>
    obtain ⟨xs, hd, hxs⟩ := ih (Bool.and_eq_true_iff.mp ha).1 hlaid hs
    exact ⟨xs, .left hd, hxs⟩
  | right _ ih =>
    obtain ⟨xs, hd, hxs⟩ := ih (Bool.and_eq_true_iff.mp ha).2 hlaid hs
    exact ⟨xs, .right hd, hxs⟩
  | starNil =>
    obtain rfl := List.map_eq_nil_iff.mp hs
    cases hlaid
    exact ⟨[], .starNil, rfl⟩
  | starCons _ _ iha ihs =>
    obtain ⟨us, us', rfl, hus, hus'⟩ := List.map_eq_append_iff.mp hs
    obtain ⟨m, hlaid, hlaid'⟩ := laid_append.mp hlaid
    obtain ⟨xs, hd, hxs⟩ := iha ha hlaid hus
    obtain ⟨ys, hd', hys⟩ := ihs ha hlaid' hus'
    refine ⟨xs ++ ys, .starCons hd hd', ?_⟩
    rw [placeWords_append, hxs, hys, Node.outermosts_append, List.map_append]
  | @node r a s hallows ih =>
    -- Only a position is taken whole: the words in it are one word, and it is one node.
    rw [wordsInPlace] at ha
    split at ha
    next hr =>
      have hposition : position.Writes c ts n := by
        refine ⟨?_, hlaid⟩
        rw [← of_decide_eq_true ha, hs]
        exact .node hallows
      obtain ⟨p, hd, hp, hwords⟩ := hposition.exists_position
      refine ⟨[p], of_decide_eq_true ha ▸ hd, ?_⟩
      rw [hwords, Node.outermosts, Node.outermost_of_rule hp]
      rfl
    next hr =>
      obtain ⟨xs, hd, hxs⟩ := ih ha hlaid hs
      refine ⟨[span r c n xs], .node hd, ?_⟩
      rw [hxs, Node.outermosts, Node.outermost_of_ne hr]
      exact (congrArg _ (List.append_nil _)).symm

end Production

/-! ## Texts -/

variable {text : String} {tree : Node}

/-- The text is a statement that is written with these tokens. -/
def WrittenAs (text : String) (ts : List Written) : Prop :=
  ∃ n, Production.statement.Writes (.ofText text.toList) ts n

/-- A parsed text is written with tokens. -/
theorem exists_writtenAs (h : Node.ofText? text = .ok tree) : ∃ ts, WrittenAs text ts := by
  obtain ⟨n, hd⟩ := ofText?_eq_ok_iff_derives.mp h
  obtain ⟨ts, hts⟩ := hd.exists_writes
  exact ⟨ts, n, hts⟩

/-- The words that a text is written with are those of the positions in its tree. -/
theorem WrittenAs.exists_tree (h : WrittenAs text ts) : ∃ tree, Node.ofText? text = .ok tree ∧
    placeWords ts = (tree.outermost .firstOrAfterColumn).map Node.placeWord := by
  obtain ⟨n, hts⟩ := h
  obtain ⟨xs, hd, hwords⟩ := hts.exists_derives Production.wordsInPlace_statement
  obtain ⟨tree, rfl, htree⟩ := ofText?_of_derives hd
  refine ⟨tree, htree, ?_⟩
  rw [hwords, Node.outermosts_eq_flatMap, List.flatMap_singleton]

/-- The words that begin positions stand one behind the other. -/
theorem WrittenAs.pairwise_placeWords (h : WrittenAs text ts) :
    (placeWords ts).Pairwise (·.offset < ·.offset) := by
  obtain ⟨n, hts⟩ := h
  exact hts.laid.pairwise_placeWords

/-- Each of the words stands in the text where the token is. -/
theorem WrittenAs.keywordAt (h : WrittenAs text ts) (hw : w ∈ placeWords ts) :
    ∃ k ∈ [Keyword.first, .after], w.token = .keyword k ∧ KeywordAt text k w.offset := by
  obtain ⟨n, hts⟩ := h
  obtain ⟨hmem, hword⟩ := List.mem_filter.mp hw
  obtain ⟨k, hk, htoken⟩ := Token.isPlaceWord_iff.mp hword
  exact ⟨k, hk, htoken, hts.laid.keywordAt (.refl _) hmem htoken (ne_key_of_mem hk)⟩

end Grammar

end AlterTable
