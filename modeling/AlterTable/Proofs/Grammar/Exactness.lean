import AlterTable.Proofs.Grammar.Clauses
import AlterTable.Proofs.Grammar.Closing
import AlterTable.Syntax

/-!
# Statements are read exactly

A text is read just if it is derived with the tokens as they are read, and its tree is the one that
is derived. So the order of the alternatives, the words that commit to one and the greed of options
and repetitions lose nothing, and the grammar is unambiguous. With the tokens as the grammar has
them the same holds of all texts but those that are `Misleading`: their last character is a Kelvin
sign, which is a name, and it is taken for `KEY`.
-/

namespace AlterTable.Grammar

open AlterTable.Parse
open AlterTable.Parse.Parser

variable {follow : List Lead}

/-! ## Statements -/

private theorem reads_dot : Reads (fixed ['.']) [] (.token .dot) follow where
  derives h := ⟨[], rfl, .token (.inl .dot) (fixed_eq_done_iff.mp h)⟩
  done hd _ := by
    obtain ⟨rfl, w, hread, hover⟩ := Production.derives_token.mp hd
    cases hread.spelled nofun with
    | dot => exact ⟨(), fixed_eq_done_iff.mpr hover, rfl⟩

private theorem refuses_dot : Refuses (fixed ['.']) [.mark '.'] := by
  have hreads : Reads (fixed ['.']) [] (.token .dot) [] := reads_dot
  exact hreads.refuses rfl fun _ => fixed_ne_fatal

/-- The name of a table is read in front of whatever is no dot. -/
theorem reads_tableName_of_notMem (h : .mark '.' ∉ follow) :
    Reads tableName [] .tableName follow := by
  have hqualified : Reads (do fixed ['.']; identifier) []
      (.seq (.token .dot) (.token .identifier)) follow :=
    .bind reads_dot fun _ => reads_identifier
  have hdot : ∀ l ∈ follow, l ∉ [Lead.mark '.'] := fun l hl hmem =>
    h (List.mem_singleton.mp hmem ▸ hl)
  exact .leaf (.bind reads_identifier fun _ =>
    .bind (.maybe hqualified (Refuses.bind refuses_dot) hdot) fun _ =>
    reads_pure (by simp))

/-- The parser of a table's name reads its production in front of a clause. -/
theorem reads_tableName : Reads tableName [] .tableName Production.specification.first :=
  reads_tableName_of_notMem (by decide)

private theorem reads_specifications : ReadsAs Token.Read (separatedBy (mark ',') specification) []
    (.list .specification) [.mark ';', .stop] := by
  have hmark : ∀ {follow}, ReadsAs Token.Read (mark ',') [] (.mark .comma) follow :=
    (reads_mark .comma).read (by decide)
  exact reads_specification.list hmark (by decide)

private theorem reads_alterTable :
    ReadsAs Token.Read alterTable [] .alterTable [.mark ';', .stop] := by
  have hwords : ∀ {follow}, ReadsAs Token.Read (keywords [.alter, .table]) []
      (.keywords [.alter, .table]) follow :=
    (reads_keywords _).read (by decide)
  have htable : ReadsAs Token.Read tableName [] .tableName Production.specification.first :=
    reads_tableName.read (by decide)
  exact .node (.bind hwords fun _ => .commit (.bind (.named (htable.mono (by decide))) fun _ =>
    .bind reads_specifications fun _ => reads_pure (by simp)))

/-- The parser of statements reads the production of statements. -/
theorem reads_statement : ReadsAs Token.Read statement [] .statement [.stop] := by
  have hsemicolon : ReadsAs Token.Read (maybe (mark ';')) [] (.option (.mark .semicolon)) [.stop] :=
    .maybe ((reads_mark .semicolon).read (by decide)) (refuses_mark .semicolon) (by decide)
  exact .bind (reads_alterTable.mono (by decide)) fun _ => .bind hsemicolon fun _ =>
    .bind (reads_gap.read (by decide)) fun _ => .bind (reads_endOfText.read (by decide)) fun _ =>
    reads_pure (by simp)

/-! ## Texts -/

variable {text : String} {tree : Node}

/-- A text is parsed just if the parser of statements reads it. -/
theorem ofText?_eq_ok : Node.ofText? text = .ok tree ↔
    ∃ n, statement (.ofText text.toList) = .done tree n := by
  unfold Node.ofText?
  constructor
  · intro h
    dsimp only at h
    split at h
    next n hn =>
      cases h
      exact ⟨n, hn⟩
    next => cases h
    next => cases h
  · rintro ⟨n, hn⟩
    simp only [hn]

/-- A derivation takes the whole text. -/
theorem rest_of_derives {c n : Cursor} {ys : List Node}
    (h : Production.statement.Derives Token.Read c ys n) : n.rest = [] := by
  obtain ⟨_, _, _, -, -, h⟩ := Production.derives_seq.mp h
  obtain ⟨_, _, _, -, -, h⟩ := Production.derives_seq.mp h
  obtain ⟨_, _, _, -, -, h⟩ := Production.derives_seq.mp h
  obtain ⟨_, m, _, -, hstop, hend⟩ := Production.derives_seq.mp h
  obtain ⟨-, rfl⟩ := Production.derives_empty.mp hend
  obtain ⟨-, w, hw, -⟩ := Production.derives_token.mp hstop
  exact (Token.spelled_stop.mp (hw.spelled nofun)).2

/-- What is derived is read, and gives the one tree that is derived. -/
theorem ofText?_of_derives {ys : List Node} {n : Cursor}
    (h : Production.statement.Derives Token.Read (.ofText text.toList) ys n) :
    ∃ tree, ys = [tree] ∧ Node.ofText? text = .ok tree := by
  have hn : lead n.rest ∈ [Lead.stop] := by
    rw [rest_of_derives h]
    exact List.mem_singleton_self _
  obtain ⟨tree, hdone, htrees⟩ := reads_statement.done h hn
  exact ⟨tree, htrees.symm, ofText?_eq_ok.mpr ⟨n, hdone⟩⟩

/-- The tree that is read is the tree that is derived. -/
theorem ofText?_eq_ok_iff_derives : Node.ofText? text = .ok tree ↔
    ∃ n, Production.statement.Derives Token.Read (.ofText text.toList) [tree] n := by
  constructor
  · intro h
    obtain ⟨n, hn⟩ := ofText?_eq_ok.mp h
    obtain ⟨ys, hys, hd⟩ := reads_statement.derives hn
    have htree : [tree] = ys := hys
    exact ⟨n, htree ▸ hd⟩
  · rintro ⟨n, hd⟩
    obtain ⟨tree', htree, hok⟩ := ofText?_of_derives hd
    cases htree
    exact hok

/-- A text is parsed just if the grammar derives it with the tokens that are read. -/
theorem accepts_iff_derivable : (∃ tree, Node.ofText? text = .ok tree) ↔
    Production.Derivable Token.Read text.toList := by
  constructor
  · rintro ⟨tree, h⟩
    obtain ⟨n, hd⟩ := ofText?_eq_ok_iff_derives.mp h
    exact ⟨[tree], n, hd⟩
  · rintro ⟨ys, n, hd⟩
    obtain ⟨tree, -, h⟩ := ofText?_of_derives hd
    exact ⟨tree, h⟩

/-- A text is accepted just if the grammar generates it, and only the texts that end with a Kelvin
sign in a place where that is taken for a keyword are an exception. -/
theorem accepts_iff_generates (text : String) :
    ((∃ tree, Node.ofText? text = .ok tree) ↔ Production.Generates text.toList) ↔
      ¬ Production.Misleading text.toList := by
  rw [accepts_iff_derivable]
  constructor
  · rintro h ⟨haccepted, hplain⟩
    rcases haccepted.read_or_spelled with hread | hspelled
    · exact hplain (hread.plain (h.mp hread))
    · exact hplain ((h.mpr hspelled).plain hspelled)
  · intro h
    have hplain : Production.Derivable Token.Accepted text.toList →
        Production.Derivable Token.Plain text.toList :=
      fun haccepted => Classical.byContradiction fun hno => h ⟨haccepted, hno⟩
    constructor
    · exact fun hread => (hplain (hread.mono (·.1))).mono (·.1)
    · exact fun hspelled => (hplain (hspelled.mono (·.accepted))).mono (·.2)

/-- Behind `DROP` a Kelvin sign is a name like any other. -/
theorem generates_drop_kelvinSign :
    Production.Generates "ALTER TABLE t DROP \u212a".toList := by
  have halter : Token.Spelled (.keyword .alter) "ALTER".toList " TABLE t DROP \u212a".toList :=
    .keyword gap_nil rfl rfl
  have htable : Token.Spelled (.keyword .table) " TABLE".toList " t DROP \u212a".toList :=
    .keyword gap_blank rfl rfl
  have hname : Token.Spelled .identifier " t".toList " DROP \u212a".toList :=
    .bareName gap_blank (by decide) (by decide) rfl
  have hdrop : Token.Spelled (.keyword .drop) " DROP".toList " \u212a".toList :=
    .keyword gap_blank rfl rfl
  have hsign : Token.Spelled .identifier " \u212a".toList [] :=
    .bareName gap_blank (by decide) (by decide) rfl
  have hclause : Production.dropColumn.Derives Token.Spelled
      ⟨13, " DROP \u212a".toList⟩ _ ⟨22, []⟩ :=
    .node (.seq (.token (n := ⟨18, " \u212a".toList⟩) hdrop ⟨rfl, rfl⟩)
      (.seq (.right .empty) (.seq (.node (.seq (.token hsign ⟨rfl, rfl⟩) .empty)) .empty)))
  have hspecification : Production.specification.Derives Token.Spelled
      ⟨13, " DROP \u212a".toList⟩ _ ⟨22, []⟩ :=
    .right (.right (.right (.right (.right (.left hclause)))))
  have htree : Production.alterTable.Derives Token.Spelled
      (.ofText "ALTER TABLE t DROP \u212a".toList) _ ⟨22, []⟩ :=
    .node (.seq
      (.seq (.token (n := ⟨5, " TABLE t DROP \u212a".toList⟩) halter ⟨rfl, rfl⟩)
        (.seq (.token (n := ⟨11, " t DROP \u212a".toList⟩) htable ⟨rfl, rfl⟩) .empty))
      (.seq
        (.node (.seq (.seq (.token (n := ⟨13, " DROP \u212a".toList⟩) hname ⟨rfl, rfl⟩)
          (.seq (.right .empty) .empty)) .empty))
        (.seq (.seq hspecification (.seq .starNil .empty)) .empty)))
  exact ⟨_, _, .seq htree (.seq (.right .empty)
    (.seq (.token (.space gap_nil rfl) (.refl _)) (.seq (.token .stop (.refl _)) .empty)))⟩

/-- Yet it is taken for `KEY` there, and so it is behind `PRIMARY`. -/
example : (Node.ofText? "ALTER TABLE t DROP \u212a").toOption.isNone = true ∧
    (Node.ofText? "ALTER TABLE t DROP PRIMARY \u212a").toOption.isSome = true := by
  decide +kernel

end AlterTable.Grammar
