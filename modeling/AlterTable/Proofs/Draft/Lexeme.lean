import AlterTable.Proofs.Grammar.Word

/-!
# Laying out lexemes

A statement is written as a sequence of lexemes. Each may have white space before it, keywords may
be written in any letter case, and words do not run into each other.
`Lays ls c marks n` says that the lexemes `ls` are laid out between the places `c` and `n`; `marks`
are the offsets of the words that begin a column position.

Every lexeme ends with an ASCII character that is no white space, so that trimming a text leaves
its last lexeme alone.
-/

namespace AlterTable.Draft

open AlterTable.Grammar
open AlterTable.Parse

/-! ## Lexemes -/

/-- The text ends with an ASCII character that is no white space. -/
def IsFirm (w : List Char) : Prop :=
  w.getLast?.any (fun c => c.toNat < 128 && !Text.isWhiteSpace c) = true

instance (w : List Char) : Decidable (IsFirm w) :=
  inferInstanceAs (Decidable (_ = _))

/-- A part of a statement that is written in one piece. -/
inductive Lexeme where
  /-- A keyword, in any letter case. -/
  | word (k : Keyword)
  /-- A text as it is. -/
  | text (w : List Char) (firm : IsFirm w)
  /-- A decimal number, after which a word may follow at once. -/
  | number (w : List Char) (isNumber : IsNumber w)
  /-- The dot of a qualified name, which stands without white space before it. -/
  | dot

namespace Lexeme

/-- A punctuation mark. -/
def mark (m : Mark) : Lexeme :=
  .text [m.char] (by cases m <;> decide)

/-- The text writes the lexeme. -/
def Spelled : Lexeme → List Char → Prop
  | word k, w => Text.lower w = k.letters
  | text t _, w => w = t
  | number t _, w => w = t
  | dot, w => w = ['.']

/-- What may stand before the lexeme. -/
def Before : Lexeme → List Char → Prop
  | dot, g => g = []
  | _, g => Gap g

/-- The offset of the lexeme, if it begins a column position. -/
def marks (offset : Nat) : Lexeme → List Nat
  | word .first => [offset]
  | word .after => [offset]
  | _ => []

/-- Where the text of a word ends, what follows does not continue it. -/
def Apart : Lexeme → List Char → List Char → Prop
  | number _ _, _, _ => True
  | _, w, r => w.getLast?.any isIdentifierChar = true → Ends r

end Lexeme

/-- The lexemes are laid out between the two places, and these are the offsets of the positions. -/
inductive Lays : List Lexeme → Cursor → List Nat → Cursor → Prop
  | nil {c} : Lays [] c [] c
  | cons {l ls g w c m n marks} : l.Before g → l.Spelled w → c.Over (g ++ w) m →
      l.Apart w m.rest → Lays ls m marks n →
      Lays (l :: ls) c (l.marks (c.offset + Text.byteLength g) ++ marks) n

variable {l : Lexeme} {ls ls' : List Lexeme} {c m n : Cursor} {marks : List Nat}
variable {v w g r : List Char} {k : Keyword}

/-! ## Taking layouts apart -/

/-- No lexemes take no text and leave no marks. -/
theorem lays_nil : Lays [] c marks n ↔ marks = [] ∧ n = c := by
  constructor
  · intro h
    cases h
    exact ⟨rfl, rfl⟩
  · rintro ⟨rfl, rfl⟩
    exact .nil

/-- Lexemes are laid out one behind the other, with the marks of both. -/
theorem lays_append : Lays (ls ++ ls') c marks n ↔
    ∃ m ms ms', marks = ms ++ ms' ∧ Lays ls c ms m ∧ Lays ls' m ms' n := by
  induction ls generalizing c marks with
  | nil =>
    constructor
    · exact fun h => ⟨c, [], marks, rfl, .nil, h⟩
    · rintro ⟨m, ms, ms', rfl, h, h'⟩
      obtain ⟨rfl, rfl⟩ := lays_nil.mp h
      exact h'
  | cons l ls ih =>
    constructor
    · intro h
      cases h with
      | cons hg hw hover hapart hrest =>
        obtain ⟨m, ms, ms', rfl, h, h'⟩ := ih.mp hrest
        exact ⟨m, _, ms', (List.append_assoc ..).symm, .cons hg hw hover hapart h, h'⟩
    · rintro ⟨m, ms, ms', rfl, h, h'⟩
      cases h with
      | cons hg hw hover hapart hrest =>
        rw [List.append_assoc]
        exact .cons hg hw hover hapart (ih.mpr ⟨m, _, ms', rfl, hrest, h'⟩)

/-- Lexemes are laid out first one and then the others. -/
theorem lays_cons : Lays (l :: ls) c marks n ↔
    ∃ m ms ms', marks = ms ++ ms' ∧ Lays [l] c ms m ∧ Lays ls m ms' n :=
  @lays_append [l] ls c n marks

/-- One lexeme is laid out by white space in front of it and a text that spells it. -/
theorem lays_singleton : Lays [l] c marks n ↔
    ∃ g w, marks = l.marks (c.offset + Text.byteLength g) ∧ l.Before g ∧ l.Spelled w ∧
      c.Over (g ++ w) n ∧ l.Apart w n.rest := by
  constructor
  · intro h
    cases h with
    | cons hg hw hover hapart hrest =>
      obtain ⟨rfl, rfl⟩ := lays_nil.mp hrest
      exact ⟨_, _, List.append_nil _, hg, hw, hover, hapart⟩
  · rintro ⟨g, w, rfl, hg, hw, hover, hapart⟩
    have h := Lays.cons hg hw hover hapart .nil
    rwa [List.append_nil] at h

/-- Lexemes are laid out over some text. -/
theorem Lays.over (h : Lays ls c marks n) : ∃ w, c.Over w n := by
  induction h with
  | nil => exact ⟨[], .refl _⟩
  | cons _ _ hover _ _ ih =>
    obtain ⟨w, hw⟩ := ih
    exact ⟨_, hover.trans hw⟩

/-! ## Firm texts -/

/-- A firm text is not empty. -/
theorem IsFirm.ne_nil (h : IsFirm w) : w ≠ [] := by
  rintro rfl
  cases h

/-- A text that ends firmly is firm, whatever stands before. -/
theorem IsFirm.append (v : List Char) (h : IsFirm w) : IsFirm (v ++ w) := by
  unfold IsFirm at h ⊢
  cases hw : w.getLast? with
  | none => rw [hw] at h; cases h
  | some d => rwa [List.getLast?_append, hw, Option.some_or, ← hw]

private theorem isFirm_of_forall (hne : w ≠ [])
    (h : ∀ d ∈ w, d.toNat < 128 ∧ Text.isWhiteSpace d = false) : IsFirm w := by
  have hlast := h _ (List.getLast_mem hne)
  rw [IsFirm, List.getLast?_eq_some_getLast hne]
  simpa using hlast

/-- Identifier characters of the ASCII range are no white space. -/
theorem not_isWhiteSpace_of_isIdentifierChar {d : Char} (h : isIdentifierChar d = true)
    (ha : d.toNat < 128) : Text.isWhiteSpace d = false := by
  have hrange : 33 ≤ d.toNat := by
    rcases isIdentifierChar_iff.mp h with hu | hl | hd | rfl | rfl | ⟨hlow, -⟩
    · have hupper := toNat_of_isUpper hu
      omega
    · have hlower := toNat_of_isLower hl
      omega
    · have hdigit := toNat_of_isDigit hd
      omega
    · decide
    · decide
    · omega
  have hnone : ∀ range ∈ Text.whiteSpaceRanges,
      ¬ (range.1 ≤ d.toNat ∧ d.toNat ≤ range.2) := by
    intro range hr
    simp only [Text.whiteSpaceRanges, List.mem_cons, List.not_mem_nil, or_false] at hr
    rcases hr with rfl | rfl | rfl | rfl | rfl | rfl | rfl | rfl | rfl | rfl <;> omega
  rw [Text.isWhiteSpace, List.any_eq_false]
  intro range hr hmem
  exact hnone range hr (by simpa using hmem)

/-- A word of ASCII characters is firm. -/
theorem isFirm_of_isWord (h : IsWord w) (ha : ∀ d ∈ w, d.toNat < 128) : IsFirm w :=
  isFirm_of_forall h.1 fun d hd =>
    ⟨ha d hd, not_isWhiteSpace_of_isIdentifierChar (h.2 d hd) (ha d hd)⟩

/-- What spells a keyword consists of ASCII characters. -/
theorem ascii_of_lower (h : Text.lower w = k.letters) : ∀ d ∈ w, d.toNat < 128 := by
  intro d hd
  have hsmall := Keyword.isSmall_lower h d.toLower (List.mem_map_of_mem hd)
  have hone := Char.utf8Size_eq_one_iff.mp (utf8Size_of_isSmall_toLower hsmall)
  have hle : d.toNat ≤ 127 := UInt32.le_iff_toNat_le.mp hone
  omega

/-- A keyword is firm, in whatever letter case. -/
theorem isFirm_of_lower (h : Text.lower w = k.letters) : IsFirm w :=
  isFirm_of_isWord (Keyword.isWord_of_lower h) (ascii_of_lower h)

/-- Digits are firm. -/
theorem isFirm_of_isDigits (h : IsDigits w) : IsFirm w := by
  refine isFirm_of_isWord ⟨h.1, fun d hd => isIdentifierChar_of_isDigit (h.2 d hd)⟩ fun d hd => ?_
  have := (toNat_of_isDigit (h.2 d hd)).2
  omega

/-- A number is firm. -/
theorem isFirm_of_isNumber (h : IsNumber w) : IsFirm w := by
  obtain ⟨sign, whole, fraction, rfl, -, hwhole, rfl | ⟨d, hd, rfl⟩⟩ := h
  · rw [List.append_nil]
    exact (isFirm_of_isDigits hwhole).append sign
  · have hpoint : IsFirm (['.'] ++ d) := (isFirm_of_isDigits hd).append ['.']
    exact hpoint.append _

private theorem Lexeme.Spelled.isFirm (h : l.Spelled w) : IsFirm w := by
  cases l with
  | word k => exact isFirm_of_lower h
  | text t firm =>
    obtain rfl : w = t := h
    exact firm
  | number t isNumber =>
    obtain rfl : w = t := h
    exact isFirm_of_isNumber isNumber
  | dot =>
    obtain rfl : w = ['.'] := h
    decide

/-- The text that some lexemes are laid out over is firm. -/
theorem Lays.isFirm (h : Lays ls c marks n) (hls : ls ≠ []) (hover : c.Over w n) :
    IsFirm w := by
  induction h generalizing w with
  | nil => exact absurd rfl hls
  | @cons l ls g v c m n marks _ hv hcm _ hrest ih =>
    cases hrest with
    | nil =>
      have hw : w = g ++ v := by
        have := hover.rest.symm.trans hcm.rest
        exact List.append_cancel_right this
      rw [hw]
      exact hv.isFirm.append g
    | cons hg' hv' hover' hapart' hrest' =>
      obtain ⟨u, hu⟩ := (Lays.cons hg' hv' hover' hapart' hrest').over
      have hw : w = g ++ v ++ u := by
        have := hover.rest.symm.trans (hcm.trans hu).rest
        exact List.append_cancel_right this
      rw [hw]
      exact (ih (List.cons_ne_nil _ _) hu).append _

end AlterTable.Draft
