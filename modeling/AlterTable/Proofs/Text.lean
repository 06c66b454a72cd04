import AlterTable.Text
import Mathlib.Data.List.Basic
import Mathlib.Data.List.DropRight

/-!
# Laws of texts

Where a text stands in another one, what trimming takes away from it, and the pieces that it falls
into at a separator.
-/

namespace AlterTable.Text

/-!
## Texts in bytes

A text that stands in another one at an offset, said with characters, and what that means for the
bytes of the two: the offset and the end are boundaries between characters, and the bytes between
them are those of the text.
-/

section

/-- The bytes of characters are those of the string that they make up. -/
theorem utf8ByteSize_ofList (s : List Char) : (String.ofList s).utf8ByteSize = byteLength s := by
  induction s with
  | nil => rfl
  | cons c s ih =>
    have hsplit : String.ofList (c :: s) = String.singleton c ++ String.ofList s := by
      rw [String.singleton_eq_ofList, ← String.ofList_append, List.singleton_append]
    rw [hsplit, String.utf8ByteSize_append, String.utf8ByteSize_singleton, ih, byteLength_cons]

/-- The bytes of the characters of a string are the bytes of the string. -/
theorem byteLength_toList (s : String) : byteLength s.toList = s.utf8ByteSize := by
  rw [← utf8ByteSize_ofList, String.ofList_toList]

/-- The part stands in the text with so many bytes before it. -/
def StandsAt (part : String) (offset : Nat) (text : String) : Prop :=
  ∃ before after : String, text = before ++ part ++ after ∧ before.utf8ByteSize = offset

variable {part text : String} {offset : Nat}

/-- A text that is made up of three rows of characters is made up of their strings. -/
theorem eq_append_of_toList {before middle after : List Char}
    (h : text.toList = before ++ (middle ++ after)) :
    text = String.ofList before ++ String.ofList middle ++ String.ofList after := by
  rw [← String.ofList_append, ← String.ofList_append, List.append_assoc, ← h,
    String.ofList_toList]

/-- A part stands where the characters before it end. -/
theorem standsAt_of_toList {before after : List Char}
    (h : text.toList = before ++ (part.toList ++ after)) :
    StandsAt part (byteLength before) text := by
  have hsplit := eq_append_of_toList h
  rw [String.ofList_toList] at hsplit
  exact ⟨String.ofList before, String.ofList after, hsplit, utf8ByteSize_ofList before⟩

/-- A part ends inside the text. -/
theorem StandsAt.end_le (h : StandsAt part offset text) :
    offset + part.utf8ByteSize ≤ text.utf8ByteSize := by
  obtain ⟨before, after, rfl, rfl⟩ := h
  rw [String.utf8ByteSize_append, String.utf8ByteSize_append]
  omega

/-- A part starts on a character boundary. -/
theorem StandsAt.isValid_start (h : StandsAt part offset text) :
    String.Pos.Raw.IsValid text ⟨offset⟩ := by
  obtain ⟨before, after, rfl, rfl⟩ := h
  exact String.Pos.Raw.isValid_iff_exists_append.mpr
    ⟨before, part ++ after, String.append_assoc, rfl⟩

/-- A part ends on a character boundary. -/
theorem StandsAt.isValid_end (h : StandsAt part offset text) :
    String.Pos.Raw.IsValid text ⟨offset + part.utf8ByteSize⟩ := by
  obtain ⟨before, after, rfl, rfl⟩ := h
  refine String.Pos.Raw.isValid_iff_exists_append.mpr ⟨before ++ part, after, rfl, ?_⟩
  apply String.Pos.Raw.ext
  rw [String.byteIdx_rawEndPos, String.utf8ByteSize_append]

/-- The bytes of the text from the offset on are those of the part. -/
theorem StandsAt.extract_eq (h : StandsAt part offset text) :
    text.toByteArray.extract offset (offset + part.utf8ByteSize) = part.toByteArray := by
  obtain ⟨before, after, rfl, rfl⟩ := h
  have hbefore : before.utf8ByteSize = before.toByteArray.size := String.size_toByteArray.symm
  have hpart : part.utf8ByteSize = part.toByteArray.size := String.size_toByteArray.symm
  rw [String.append_assoc, String.toByteArray_append, String.toByteArray_append, hbefore, hpart]
  rw [← Nat.add_zero before.toByteArray.size, Nat.add_assoc, ByteArray.extract_append_size_add,
    Nat.zero_add, ByteArray.extract_append_eq_left rfl]

/-! ### Trimming -/

/-- What is left of a text by trimming stands in it behind the white space that it begins with. -/
theorem exists_eq_append_trim (s : List Char) :
    ∃ back, s = s.takeWhile isWhiteSpace ++ (trim s ++ back) := by
  obtain ⟨back, hback⟩ := trimEnd_prefix_self (trimStart s)
  refine ⟨back, ?_⟩
  rw [trim, hback, takeWhile_append_trimStart]

end

/-!
## What trimming takes away

Trimming takes away the white space at either end of a text and nothing else, so a text is as it was
only if it has none there, and nothing is left only if there is nothing but white space. Trimming
again takes away nothing more, and what stands in front of a text is taken away with what the text
itself begins with.
-/

section

variable {g s t : List Char}

/-- The text neither begins nor ends with white space. -/
def IsTrimmed (s : List Char) : Prop :=
  (∀ d, s.head? = some d → isWhiteSpace d = false) ∧
    ∀ d, s.getLast? = some d → isWhiteSpace d = false

private theorem trimEnd_eq_rdropWhile (s : List Char) : trimEnd s = s.rdropWhile isWhiteSpace := rfl

/-- White space in front of a text is trimmed with what the text begins with. -/
theorem trim_append (hg : ∀ d ∈ g, isWhiteSpace d = true) (s : List Char) :
    trim (g ++ s) = trim s := by
  rw [trim, trim, trimStart, List.dropWhile_append_of_pos hg]
  rfl

private theorem trimStart_eq_self (h : ∀ d, s.head? = some d → isWhiteSpace d = false) :
    trimStart s = s := by
  cases s with
  | nil => rfl
  | cons d s => rw [trimStart, List.dropWhile_cons_of_neg (by simp [h d rfl])]

private theorem trimEnd_eq_self (h : ∀ d, s.getLast? = some d → isWhiteSpace d = false) :
    trimEnd s = s := by
  rw [trimEnd_eq_rdropWhile, List.rdropWhile_eq_self_iff]
  intro hs
  simp [h _ (List.getLast?_eq_some_getLast hs)]

private theorem head_trimStart (s : List Char) (d : Char) (h : (trimStart s).head? = some d) :
    isWhiteSpace d = false := by
  have hd := List.head?_dropWhile_not isWhiteSpace s
  rw [trimStart] at h
  rw [h] at hd
  simpa using hd

private theorem getLast_trimEnd (s : List Char) (d : Char) (h : (trimEnd s).getLast? = some d) :
    isWhiteSpace d = false := by
  obtain ⟨hne, rfl⟩ := List.mem_getLast?_eq_getLast h
  exact Bool.eq_false_iff.mpr (List.rdropWhile_last_not isWhiteSpace s hne)

/-- What is left begins and ends with something to see. -/
theorem isTrimmed_trim (s : List Char) : IsTrimmed (trim s) := by
  refine ⟨fun d hd => head_trimStart s d ?_, getLast_trimEnd (trimStart s)⟩
  obtain ⟨back, hback⟩ := trimEnd_prefix_self (trimStart s)
  rw [← hback, List.head?_append]
  rw [trim] at hd
  rw [hd]
  rfl

/-- Only what has no white space at its ends is left as it is. -/
theorem trim_eq_self_iff : trim s = s ↔ IsTrimmed s := by
  constructor
  · intro h
    rw [← h]
    exact isTrimmed_trim s
  · rintro ⟨hstart, hend⟩
    rw [trim, trimStart_eq_self hstart, trimEnd_eq_self hend]

/-- Trimming twice is trimming once. -/
@[simp] theorem trim_trim (s : List Char) : trim (trim s) = trim s :=
  trim_eq_self_iff.mpr (isTrimmed_trim s)

/-- Nothing is left of white space alone. -/
theorem trim_eq_nil_iff : trim s = [] ↔ ∀ d ∈ s, isWhiteSpace d = true := by
  constructor
  · intro h d hd
    rw [trim, trimEnd_eq_rdropWhile, List.rdropWhile_eq_nil_iff] at h
    have hnil : trimStart s = [] := by
      by_contra hne
      obtain ⟨e, r, her⟩ := List.exists_cons_of_ne_nil hne
      have he := head_trimStart s e (by rw [her]; rfl)
      rw [h e (by rw [her]; exact List.mem_cons_self)] at he
      cases he
    exact List.dropWhile_eq_nil_iff.mp hnil d hd
  · intro h
    rw [trim, trimStart, List.dropWhile_eq_nil_iff.mpr h]
    rfl

/-- Trimming only takes characters away. -/
theorem trim_sublist (s : List Char) : (trim s).Sublist s :=
  (trimEnd_prefix_self (trimStart s)).sublist.trans (List.dropWhile_suffix _).sublist

private theorem mem_trimStart_of_mem {d : Char} (h : d ∈ s) (hd : isWhiteSpace d = false) :
    d ∈ trimStart s := by
  rw [← takeWhile_append_trimStart s] at h
  rcases List.mem_append.mp h with hspace | hrest
  · rw [List.all_eq_true.mp List.all_takeWhile d hspace] at hd
    cases hd
  · exact hrest

/-- What can be seen is not trimmed. -/
theorem mem_trim_of_mem {d : Char} (h : d ∈ s) (hd : isWhiteSpace d = false) : d ∈ trim s := by
  have hstart := List.mem_reverse.mpr (mem_trimStart_of_mem h hd)
  exact List.mem_reverse.mpr (mem_trimStart_of_mem hstart hd)

/-! ### Names -/

/-- Trimming first makes no difference to what a text is without quotes. -/
@[simp] theorem unquote_trim (s : List Char) : unquote (trim s) = unquote s := by
  rw [unquote, unquote, trim_trim]

/-- A back-quote without another one is not taken away. -/
theorem unquote_of_count_le_one (h : s.count backQuote ≤ 1) : unquote s = trim s := by
  have hcount : (trim s).count backQuote ≤ 1 := ((trim_sublist s).count_le backQuote).trans h
  unfold unquote
  refine if_neg fun hquotes => ?_
  cases ht : trim s with
  | nil =>
    rw [ht] at hquotes
    cases hquotes
  | cons d t =>
    rw [ht] at hquotes hcount
    simp only [Bool.and_eq_true, decide_eq_true_eq, beq_iff_eq, List.head?_cons,
      Option.some.injEq] at hquotes
    obtain ⟨⟨hlength, rfl⟩, hlast⟩ := hquotes
    have hne : t ≠ [] := by
      rintro rfl
      exact absurd hlength (by decide)
    have hmem : backQuote ∈ t := by
      rw [List.getLast?_cons_of_ne_nil hne] at hlast
      exact List.mem_of_getLast? hlast
    rw [List.count_cons_self] at hcount
    exact absurd (List.count_pos_iff.mpr hmem) (by omega)

/-- Without a quote to take away, only white space is. -/
theorem unquote_of_notMem (h : backQuote ∉ s) : unquote s = trim s :=
  unquote_of_count_le_one (by rw [List.count_eq_zero.mpr h]; decide)

end

/-!
## Texts in pieces

A text that is split at a separator is what its pieces say with the separator between them, so a
piece stands somewhere in the text as it is, and whatever is no separator stands in a piece.
-/

section

variable {s piece : List Char} {pieces more : List (List Char)} {c d : Char}

/-- A piece of a split text stands in the text. -/
theorem infix_of_mem_splitOn (h : piece ∈ s.splitOn c) : piece <:+: s := by
  obtain ⟨i, hi⟩ := List.mem_iff_getElem?.mp h
  have hmem : piece ∈ (s.splitOn c).intersperse [c] :=
    List.mem_of_getElem? (List.getElem?_intersperse_two_mul.trans hi)
  have hjoin : ((s.splitOn c).intersperse [c]).flatten = s := List.intercalate_splitOn c
  rw [← hjoin]
  exact List.infix_of_mem_flatten hmem

/-- No piece has the separator in it. -/
theorem notMem_of_mem_splitOn (h : piece ∈ s.splitOn c) : c ∉ piece := by
  induction s generalizing piece with
  | nil =>
    rw [List.splitOn_nil, List.mem_singleton] at h
    rw [h]
    exact List.not_mem_nil
  | cons d s ih =>
    rw [List.splitOn_cons_eq_if_modifyHead] at h
    split at h
    next =>
      rcases List.mem_cons.mp h with rfl | h
      · exact List.not_mem_nil
      · exact ih h
    next hd =>
      have hne : c ≠ d := fun hcd => hd (beq_iff_eq.mpr hcd.symm)
      obtain ⟨first, others, hs⟩ := List.exists_cons_of_ne_nil (List.splitOn_ne_nil c s)
      rw [hs, List.modifyHead_cons] at h
      rcases List.mem_cons.mp h with rfl | h
      · exact List.not_mem_cons_of_ne_of_not_mem hne (ih (hs ▸ List.mem_cons_self))
      · exact ih (hs ▸ List.mem_cons_of_mem _ h)

/-- Two lists of pieces are joined each on its own, with one separator between the results. -/
theorem intercalate_append (h : pieces ≠ []) (hmore : more ≠ []) :
    [c].intercalate (pieces ++ more) = [c].intercalate pieces ++ c :: [c].intercalate more := by
  induction pieces with
  | nil => exact absurd rfl h
  | cons piece pieces ih =>
    cases pieces with
    | nil =>
      rw [List.singleton_append, List.intercalate_cons_of_ne_nil hmore, List.intercalate_singleton,
        List.append_assoc, List.singleton_append]
    | cons next pieces =>
      have hne : next :: pieces ≠ [] := List.cons_ne_nil _ _
      rw [List.cons_append,
        List.intercalate_cons_of_ne_nil (List.append_ne_nil_of_left_ne_nil hne _), ih hne,
        List.intercalate_cons_of_ne_nil hne, List.append_assoc _ _ (c :: _)]

/-- A character of joined pieces is of one of them, or it is the separator. -/
theorem mem_intercalate_iff (hd : d ≠ c) :
    d ∈ [c].intercalate pieces ↔ ∃ piece ∈ pieces, d ∈ piece := by
  induction pieces with
  | nil => simp [List.intercalate_nil]
  | cons piece pieces ih =>
    cases pieces with
    | nil => simp [List.intercalate_singleton]
    | cons next pieces =>
      rw [List.intercalate_cons_cons, List.mem_append, List.mem_append, ih]
      simp [hd]

end

end AlterTable.Text
