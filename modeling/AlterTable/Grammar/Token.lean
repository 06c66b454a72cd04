import AlterTable.Parse
import AlterTable.Text

/-!
# Tokens

The smallest things that a statement is made of: marks, keywords, identifiers, numbers and
strings. White space between them is skipped by the token that follows it, and only the four
characters of `isGap` count as such.

A keyword may be written in any letter case and must not run into more identifier characters.
It is matched letter by letter as far as both the text and the word reach, and takes as many
bytes as the word has. The Kelvin sign matches the letter `k` and is three bytes long, so where
it is the last character of the text it stands for the whole of the word `key`.
-/

namespace AlterTable.Grammar

/-!
## Keywords

The words that the grammar knows, and which of them are reserved. A reserved word is never the
name of something unless it is quoted; otherwise `ADD CONSTRAINT PRIMARY KEY` could be read in
two ways. The two sorting directions of a key part are keywords and yet not reserved.
-/

/-- A word with a fixed meaning. -/
inductive Keyword where
  | add
  | after
  | alter
  | asc
  | autoIncrement
  | change
  | column
  | comment
  | constraint
  | default
  | desc
  | drop
  | first
  | index
  | key
  | modify
  | not
  | null
  | primary
  | rename
  | table
  | toName
  | unique
  | unsigned
deriving DecidableEq, Repr, Inhabited

namespace Keyword

/-- The keyword in small letters. -/
def spelling : Keyword → String
  | add => "add"
  | after => "after"
  | alter => "alter"
  | asc => "asc"
  | autoIncrement => "auto_increment"
  | change => "change"
  | column => "column"
  | comment => "comment"
  | constraint => "constraint"
  | default => "default"
  | desc => "desc"
  | drop => "drop"
  | first => "first"
  | index => "index"
  | key => "key"
  | modify => "modify"
  | not => "not"
  | null => "null"
  | primary => "primary"
  | rename => "rename"
  | table => "table"
  | toName => "to"
  | unique => "unique"
  | unsigned => "unsigned"

/-- The letters of the keyword. -/
def letters (k : Keyword) : List Char :=
  k.spelling.toList

/-- Every keyword once. -/
def all : List Keyword :=
  [add, after, alter, asc, autoIncrement, change, column, comment, constraint, default, desc,
   drop, first, index, key, modify, not, null, primary, rename, table, toName, unique, unsigned]

/-- The keyword cannot be the name of something. -/
def isReserved : Keyword → Bool
  | asc => false
  | desc => false
  | _ => true

/-- The text is a reserved word, in whatever letter case. -/
def reserves (s : List Char) : Bool :=
  all.any fun k => k.isReserved && Text.sameLetters s k.letters

/-- The list of keywords leaves none out. -/
theorem mem_all (k : Keyword) : k ∈ all := by
  cases k <;> decide

example : (all.filter isReserved).length = 22 := by decide

/-- Keywords consist of small letters and the underscore. -/
theorem all_letters (k : Keyword) : k.letters.all (fun c => c.isLower || c == '_') = true := by
  cases k <;> decide

/-- A reserved word is a reserved keyword in other letter case. -/
theorem reserves_iff {s : List Char} :
    reserves s = true ↔ ∃ k : Keyword, k.isReserved = true ∧ Text.lower s = k.letters := by
  have hlower : ∀ k : Keyword, Text.lower k.letters = k.letters := by
    intro k
    cases k <;> decide
  simp [reserves, Text.sameLetters_iff, mem_all, hlower]

end Keyword

/-! ## Tokens -/

open AlterTable.Parse
open AlterTable.Parse.Parser

/-! ### Classes of characters -/

/-- White space between tokens. -/
def isGap (c : Char) : Bool :=
  c == ' ' || c == '\t' || c == '\r' || c == '\n'

/-- A character of an unquoted identifier: an ASCII letter or digit, an underscore, a dollar
sign, or any character from U+0080 to U+FFFF. -/
def isIdentifierChar (c : Char) : Bool :=
  c.isAlphanum || c == '_' || c == '$' || (0x80 ≤ c.toNat && c.toNat ≤ 0xFFFF)

/-- The Kelvin sign, whose small letter is `k`. -/
def kelvinSign : Char := '\u212a'

/-- The letter that a character is compared as: a small letter for an ASCII capital, and `k` for
the Kelvin sign. Every other character stands for itself. -/
def foldCase (c : Char) : Char :=
  if c = kelvinSign then 'k' else c.toLower

/-! ### Measures -/

/-- The number of characters of a class that the text begins with, if there is one. -/
def runWidth? (p : Char → Bool) (s : List Char) : Option Nat :=
  match (s.takeWhile p).length with
  | 0 => none
  | n + 1 => some (n + 1)

/-- The number of characters of a fixed text, if the text begins with it. -/
def textWidth? (t s : List Char) : Option Nat :=
  if t.isPrefixOf s then some t.length else none

/-- The text and the word agree letter by letter as far as both reach. -/
def agrees (s word : List Char) : Bool :=
  (s.zip word).all fun pair => foldCase pair.1 == foldCase pair.2

/-- The text has at least `n` bytes. -/
def hasBytes (n : Nat) (s : List Char) : Bool :=
  n ≤ Text.byteLength (s.take n)

/-- The number of characters that a word takes from the text, if the text agrees with it and is
long enough. -/
def wordWidth? (word s : List Char) : Option Nat :=
  if agrees s word && hasBytes (Text.byteLength word) s then
    some (Text.charsCovering (Text.byteLength word) s)
  else
    none

/-- The check stops early and still compares with the length in bytes. -/
theorem hasBytes_iff {n : Nat} {s : List Char} :
    hasBytes n s = true ↔ n ≤ Text.byteLength s := by
  simp [hasBytes, Text.le_byteLength_take_iff]

/-! ### Single tokens -/

/-- Skips white space, of which there may be none. -/
def gap : Parser Unit := do
  let _ ← lexeme .run fun s => some (s.takeWhile isGap).length

/-- One given character. -/
def character (c : Char) : Parser Unit := do
  let _ ← lexeme (.character c) (textWidth? [c])

/-- A fixed text. -/
def fixed (t : List Char) : Parser Unit := do
  let _ ← lexeme .fixedText (textWidth? t)

/-- A punctuation mark, with white space before it. -/
def mark (c : Char) : Parser Unit := do
  gap
  fixed [c]

/-- A keyword, with white space before it. -/
def keyword (k : Keyword) : Parser Unit := do
  gap
  let _ ← lexeme .fixedText (wordWidth? k.letters)
  notAhead isIdentifierChar

/-- Keywords one after the other. -/
def keywords : List Keyword → Parser Unit
  | [] => pure ()
  | k :: ks => do
    keyword k
    keywords ks

/-- Identifier characters, as many as there are. -/
def bareWord : Parser (List Char) :=
  lexeme .run (runWidth? isIdentifierChar)

/-- Decimal digits, as many as there are. -/
def digits : Parser Unit := do
  let _ ← lexeme .digits (runWidth? Char.isDigit)

/-! ### Names -/

/-- A quoted name: one or more characters between back-quotes. -/
def quotedName : Parser Unit := do
  character Text.backQuote
  let _ ← lexeme .otherThan (runWidth? (· != Text.backQuote))
  character Text.backQuote

/-- An unquoted name: identifier characters that are no reserved word. -/
def bareName : Parser Unit := do
  let _ ← accepting bareWord fun s => !Keyword.reserves s

/-- A name, with white space before it. -/
def identifier : Parser Unit := do
  gap
  choice [quotedName, bareName]

/-! ### Literals -/

/-- The quote around a string. -/
def quote : Char := '\x27'

/-- A string between single quotes, in which a quote is written twice. -/
def string : Parser Unit := do
  character quote
  let _ ← many (choice
    [do let _ ← lexeme .otherThan (runWidth? (· != quote)),
     fixed [quote, quote]])
  character quote

/-- A decimal number: perhaps a minus sign, digits, perhaps a point and more digits. -/
def number : Parser Unit := do
  let _ ← maybe (character '-')
  digits
  let _ ← maybe (do character '.'; digits)

/-- A literal, with white space before it: a string, a number, or a word such as `NULL`. -/
def literal : Parser Unit := do
  gap
  choice [string, number, do let _ ← bareWord]

/-- Numbers between parentheses, such as the precision of a decimal type. -/
def numbers : Parser Unit := do
  let _ ← between (mark '(') (mark ')') (separatedBy (mark ',') (do gap; digits))

end AlterTable.Grammar
