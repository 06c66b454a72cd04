import AlterTable.Proofs.Draft.Lexeme
import AlterTable.Proofs.Grammar.Exactness
import AlterTable.Proofs.Text

/-!
# Tokens as they are written

A text as a row of tokens, each with the offset at which it stands. A production allows sequences of
tokens, and a sequence is laid over a text if its tokens stand there one behind the other. Whatever
is derived is written with tokens that the production allows (`Derives.exists_writes`).

No token stands before the place where its row begins, and where a keyword stands the text has its
letters (`Laid.keywordAt`).
-/

namespace AlterTable.Grammar

open AlterTable.Parse

/-- A token and the offset at which it stands, behind the white space before it. -/
structure Written where
  token : Token
  offset : Nat
deriving DecidableEq, Repr, Inhabited

/-- The tokens are written one behind the other between the two places. -/
inductive Laid (spelling : Token → List Char → List Char → Prop) :
    Cursor → List Written → Cursor → Prop
  | nil {c} : Laid spelling c [] c
  | cons {c m n t w ts} : spelling t w m.rest → c.Over w m → Laid spelling m ts n →
      Laid spelling c (⟨t, c.offset + Text.byteLength (w.takeWhile isGap)⟩ :: ts) n

/-- The production allows the sequence of tokens. -/
inductive Production.Allows : Production → List Token → Prop
  | empty : Allows .empty []
  | token {t} : Allows (.token t) [t]
  | seq {a b s t} : Allows a s → Allows b t → Allows (.seq a b) (s ++ t)
  | left {a b s} : Allows a s → Allows (.alt a b) s
  | right {a b s} : Allows b s → Allows (.alt a b) s
  | starNil {a} : Allows (.star a) []
  | starCons {a s t} : Allows a s → Allows (.star a) t → Allows (.star a) (s ++ t)
  | node {r a s} : Allows a s → Allows (.node r a) s

variable {spelling : Token → List Char → List Char → Prop}
variable {a b : Production} {c m n : Cursor} {xs : List Node} {ts us : List Written}
variable {w : Written} {k : Keyword} {v r : List Char}

/-- Lists of tokens are laid out one behind the other. -/
theorem laid_append :
    Laid spelling c (ts ++ us) n ↔ ∃ m, Laid spelling c ts m ∧ Laid spelling m us n := by
  constructor
  · intro h
    induction ts generalizing c with
    | nil => exact ⟨c, .nil, h⟩
    | cons t ts ih =>
      cases h with
      | cons hw hover hrest =>
        obtain ⟨m, hts, hus⟩ := ih hrest
        exact ⟨m, .cons hw hover hts, hus⟩
  · rintro ⟨m, hts, hus⟩
    induction hts with
    | nil => exact hus
    | cons hw hover _ ih => exact .cons hw hover (ih hus)

namespace Production

/-- The tokens between the two places are written as the production has them. -/
structure Writes (a : Production) (c : Cursor) (ts : List Written) (n : Cursor) : Prop where
  allows : a.Allows (ts.map Written.token)
  laid : Laid Token.Read c ts n

private theorem Writes.seq (ha : a.Writes c ts m) (hb : b.Writes m us n) :
    (Production.seq a b).Writes c (ts ++ us) n where
  allows := by
    rw [List.map_append]
    exact .seq ha.allows hb.allows
  laid := laid_append.mpr ⟨m, ha.laid, hb.laid⟩

/-- What is derived is written with tokens. -/
theorem Derives.exists_writes (h : a.Derives Token.Read c xs n) : ∃ ts, a.Writes c ts n := by
  induction h with
  | empty => exact ⟨[], .empty, .nil⟩
  | token hw hover => exact ⟨[_], .token, .cons hw hover .nil⟩
  | seq _ _ iha ihb =>
    obtain ⟨ts, hts⟩ := iha
    obtain ⟨us, hus⟩ := ihb
    exact ⟨ts ++ us, hts.seq hus⟩
  | left _ ih =>
    obtain ⟨ts, hts⟩ := ih
    exact ⟨ts, .left hts.allows, hts.laid⟩
  | right _ ih =>
    obtain ⟨ts, hts⟩ := ih
    exact ⟨ts, .right hts.allows, hts.laid⟩
  | starNil => exact ⟨[], .starNil, .nil⟩
  | starCons _ _ iha ihs =>
    obtain ⟨ts, hts⟩ := iha
    obtain ⟨us, hus⟩ := ihs
    refine ⟨ts ++ us, ?_, laid_append.mpr ⟨_, hts.laid, hus.laid⟩⟩
    rw [List.map_append]
    exact .starCons hts.allows hus.allows
  | node _ ih =>
    obtain ⟨ts, hts⟩ := ih
    exact ⟨ts, .node hts.allows, hts.laid⟩

end Production

/-! ## Offsets -/

/-- A keyword is written with its letters behind white space. -/
theorem exists_letters (h : Token.Read (.keyword k) v r) (hk : k ≠ .key) :
    ∃ letters, v = v.takeWhile isGap ++ letters ∧ Gap (v.takeWhile isGap) ∧
      Text.lower letters = k.letters ∧ Ends r := by
  have hspelled := h.spelled (by simpa using hk)
  cases hspelled with
  | @keyword _ g letters _ hg hlower hends =>
    have hgap : (g ++ letters).takeWhile isGap = g := by
      obtain ⟨d, rest, rfl⟩ := List.exists_cons_of_ne_nil (Keyword.isWord_of_lower hlower).1
      refine takeWhile_append_of_all hg ?_
      exact not_isGap_of_isIdentifierChar
        ((Keyword.isWord_of_lower hlower).2 d List.mem_cons_self)
    rw [hgap]
    exact ⟨letters, rfl, hg, hlower, hends⟩

/-- No token stands before the place where the row begins. -/
theorem Laid.offset_le (h : Laid spelling c ts n) (hw : w ∈ ts) : c.offset ≤ w.offset := by
  induction h with
  | nil => cases hw
  | cons _ hover _ ih =>
    rcases List.mem_cons.mp hw with rfl | hw
    · exact Nat.le_add_right _ _
    · have hle := ih hw
      rw [hover.offset] at hle
      omega

/-- The keyword stands in the text with so many bytes before it, in whatever letter case, and no
identifier character follows it. -/
def KeywordAt (text : String) (k : Keyword) (offset : Nat) : Prop :=
  ∃ before word after : String, text = before ++ word ++ after ∧ before.utf8ByteSize = offset ∧
    Text.lower word.toList = k.letters ∧ Ends after.toList

/-- Where a keyword is laid over a text the text has it. -/
theorem Laid.keywordAt {text : String} (h : Laid Token.Read c ts n)
    (hc : (Cursor.ofText text.toList).Over v c) (hw : w ∈ ts) (htoken : w.token = .keyword k)
    (hk : k ≠ .key) : KeywordAt text k w.offset := by
  induction h generalizing v with
  | nil => cases hw
  | @cons c m n t u ts hread hover hrest ih =>
    rcases List.mem_cons.mp hw with rfl | hw
    · subst htoken
      obtain ⟨letters, hsplit, -, hlower, hends⟩ := exists_letters hread hk
      have hoffset : c.offset = 0 + Text.byteLength v := hc.offset
      have htext : text.toList = (v ++ u.takeWhile isGap) ++ (letters ++ m.rest) :=
        calc text.toList
            = v ++ c.rest := hc.rest
          _ = v ++ ((u.takeWhile isGap ++ letters) ++ m.rest) := by rw [hover.rest, ← hsplit]
          _ = _ := by simp only [List.append_assoc]
      refine ⟨_, _, _, Text.eq_append_of_toList htext, ?_, ?_, ?_⟩
      · rw [Text.utf8ByteSize_ofList, Text.byteLength_append, hoffset, Nat.zero_add]
      · rw [String.toList_ofList]
        exact hlower
      · rw [String.toList_ofList]
        exact hends
    · exact ih (hc.trans hover) hw

end AlterTable.Grammar
