/-!
# Texts

What is done to texts as lists of characters, whatever they say: white space is trimmed from their
ends, back-quotes are taken off names, and letters are compared without regard to case. Places are
told as offsets into the UTF-8 form, so texts are also measured in bytes.
-/

namespace AlterTable.Text

/-!
## White space

The characters that have the Unicode property White_Space, as ranges of code points, and the
trimming of a text by them. Several of these characters may also stand in an unquoted
identifier, so trimming can shorten a name that was written down, even to nothing.
-/

/-- The ranges of code points with the property White_Space, in ascending order, ends included. -/
def whiteSpaceRanges : List (Nat × Nat) :=
  [(0x0009, 0x000D), (0x0020, 0x0020), (0x0085, 0x0085), (0x00A0, 0x00A0), (0x1680, 0x1680),
   (0x2000, 0x200A), (0x2028, 0x2029), (0x202F, 0x202F), (0x205F, 0x205F), (0x3000, 0x3000)]

/-- The character has the Unicode property White_Space. -/
def isWhiteSpace (c : Char) : Bool :=
  whiteSpaceRanges.any fun range => range.1 ≤ c.toNat && c.toNat ≤ range.2

/-- The text without the white space it begins with. -/
def trimStart (s : List Char) : List Char :=
  s.dropWhile isWhiteSpace

/-- The text without the white space it ends with. -/
def trimEnd (s : List Char) : List Char :=
  (s.reverse.dropWhile isWhiteSpace).reverse

/-- The text without the white space at either end. -/
def trim (s : List Char) : List Char :=
  trimEnd (trimStart s)

/-! ### The table -/

example : whiteSpaceRanges.Pairwise (fun a b => a.2 < b.1) := by decide

example : (whiteSpaceRanges.map fun range => range.2 + 1 - range.1).sum = 25 := by decide

/-! ### Trimming -/

/-- Trimming the start of a text leaves what its leading white space is followed by. -/
theorem takeWhile_append_trimStart (s : List Char) :
    s.takeWhile isWhiteSpace ++ trimStart s = s :=
  List.takeWhile_append_dropWhile

/-- A text trimmed at its end is what the text begins with. -/
theorem trimEnd_prefix_self (s : List Char) : trimEnd s <+: s := by
  have h := List.dropWhile_suffix (l := s.reverse) isWhiteSpace
  simpa [trimEnd] using List.reverse_prefix.2 h

/-!
## Quoted names

A name may be written between back-quotes. `unquote` gives the name that is meant: the text
trimmed of white space, without its quotes where it both begins and ends with one. A lone
back-quote is one mark and not two, and stays.
-/

/-- The back-quote that encloses a quoted name. -/
def backQuote : Char := '\x60'

/-- The text trimmed, and without the back-quotes around it if it stands between two. -/
def unquote (s : List Char) : List Char :=
  let t := trim s
  if 2 ≤ t.length && t.head? == some backQuote && t.getLast? == some backQuote then
    t.tail.dropLast
  else
    t

/-- The name between two back-quotes is taken as it stands. -/
theorem unquote_quoted (s : List Char) :
    unquote (backQuote :: (s ++ [backQuote])) = s := by
  have h : trim (backQuote :: (s ++ [backQuote])) = backQuote :: (s ++ [backQuote]) := by
    have hq : isWhiteSpace backQuote = false := by decide
    simp [trim, trimStart, trimEnd, hq]
  have hlast : (backQuote :: (s ++ [backQuote])).getLast? = some backQuote := by
    rw [← List.cons_append, List.getLast?_concat]
  simp [unquote, h, hlast]

example : unquote ['\x60'] = ['\x60'] := by decide

/-!
## Letter case

Comparison that ignores the case of the ASCII letters and of no other character.
-/

/-- The text with its ASCII capitals turned into small letters. -/
def lower (s : List Char) : List Char :=
  s.map Char.toLower

/-- The two texts differ at most in the case of ASCII letters. -/
def sameLetters (s t : List Char) : Bool :=
  lower s == lower t

/-- Comparing without regard to case is comparing what is left of the texts in small letters. -/
theorem sameLetters_iff {s t : List Char} : sameLetters s t = true ↔ lower s = lower t := by
  simp [sameLetters]

/-!
## Measuring a text in bytes

Places in a statement are told as offsets into its UTF-8 form. This module holds the length of a
text in bytes and the inverse question, how many characters a number of bytes covers.
-/

/-- The number of bytes of the text's UTF-8 form. -/
def byteLength (s : List Char) : Nat :=
  s.foldr (fun c n => c.utf8Size + n) 0

/-- How many characters it takes from the start of the text to cover `n` bytes. -/
def charsCovering : Nat → List Char → Nat
  | 0, _ => 0
  | _ + 1, [] => 0
  | n + 1, c :: s => charsCovering (n + 1 - c.utf8Size) s + 1

/-- No text takes no bytes. -/
@[simp] theorem byteLength_nil : byteLength [] = 0 := rfl

/-- A character in front adds its own bytes. -/
@[simp] theorem byteLength_cons (c : Char) (s : List Char) :
    byteLength (c :: s) = c.utf8Size + byteLength s := rfl

/-- The bytes of two texts add up when one stands behind the other. -/
@[simp] theorem byteLength_append (s t : List Char) :
    byteLength (s ++ t) = byteLength s + byteLength t := by
  induction s with
  | nil => simp
  | cons c s ih => simp [ih, Nat.add_assoc]

/-- A character is at least one byte long, so only the empty text has no bytes. -/
theorem byteLength_eq_zero_iff {s : List Char} : byteLength s = 0 ↔ s = [] := by
  cases s with
  | nil => simp
  | cons c s => simp [Nat.ne_of_gt c.utf8Size_pos]

/-- A text has at least as many bytes as characters. -/
theorem length_le_byteLength (s : List Char) : s.length ≤ byteLength s := by
  induction s with
  | nil => exact Nat.zero_le _
  | cons c s ih =>
    have hc := c.utf8Size_pos
    rw [List.length_cons, byteLength_cons]
    omega

/-- A text has `n` bytes if its first `n` characters have. -/
theorem le_byteLength_take_iff {n : Nat} {s : List Char} :
    n ≤ byteLength (s.take n) ↔ n ≤ byteLength s := by
  constructor
  · intro h
    have hsplit := byteLength_append (s.take n) (s.drop n)
    rw [List.take_append_drop] at hsplit
    omega
  · intro h
    rcases Nat.le_total n s.length with hn | hn
    · have hmin := length_le_byteLength (s.take n)
      rw [List.length_take, Nat.min_eq_left hn] at hmin
      exact hmin
    · rwa [List.take_of_length_le hn]

/-- A character has at least one byte, so the bytes of the first `n` characters are covered by
these and no others. -/
theorem charsCovering_byteLength_take (n : Nat) (s : List Char) :
    charsCovering (byteLength (s.take n)) s = min n s.length := by
  induction s generalizing n with
  | nil => simp [charsCovering]
  | cons c s ih =>
    cases n with
    | zero => simp [charsCovering]
    | succ n =>
      obtain ⟨k, hk⟩ := Nat.exists_eq_succ_of_ne_zero (Nat.ne_of_gt c.utf8Size_pos)
      have hcovered : charsCovering (byteLength ((c :: s).take (n + 1))) (c :: s)
          = charsCovering (byteLength (s.take n)) s + 1 := by
        rw [List.take_succ_cons, byteLength_cons, hk, Nat.succ_add, charsCovering, hk]
        congr 2
        omega
      rw [hcovered, ih, List.length_cons]
      omega

end AlterTable.Text
