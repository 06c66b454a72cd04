import AlterTable.Proofs.Draft.Lexeme
import AlterTable.Statement

/-!
# Drafts

A draft is a statement in mind: a table and what is to be altered about it, without a text. Names
of columns and indexes are arbitrary as long as they can be quoted, and the contents of strings
are arbitrary altogether. The one thing that a draft keeps as it is to be written is a data type,
since that is how a type is reported.

`Draft.Written` relates a draft to the sequences of lexemes that say it, which differ in optional
words, and `Draft.statement` is what such a text is to be read as.
-/

namespace AlterTable.Draft

open AlterTable.Grammar
open AlterTable.Parse

/-! ## Names and numbers -/

/-- A name that can be written between back-quotes. -/
structure Name where
  text : List Char
  ne_nil : text ≠ []
  plain : Text.backQuote ∉ text
deriving DecidableEq

/-- A word of ASCII characters that is no reserved word. -/
structure Identifier where
  text : List Char
  isWord : IsWord text
  ascii : ∀ c ∈ text, c.toNat < 128
  free : Keyword.reserves text = false
deriving DecidableEq

/-- One or more digits. -/
structure Digits where
  text : List Char
  isDigits : IsDigits text
deriving DecidableEq

/-- One thing or more. -/
structure Several (α : Type) where
  first : α
  others : List α
deriving DecidableEq

/-- The things in order. -/
def Several.toList {α : Type} (s : Several α) : List α :=
  s.first :: s.others

/-- A name between quotes is firm. -/
theorem isFirm_quoted (s : List Char) :
    IsFirm (Text.backQuote :: (s ++ [Text.backQuote])) := by
  have hquote : IsFirm [Text.backQuote] := by decide
  exact hquote.append (Text.backQuote :: s)

/-- A string between its quotes is firm. -/
theorem isFirm_stringText (s : List Char) : IsFirm (stringText s) := by
  have hquote : IsFirm [quote] := by decide
  exact hquote.append (quote :: escape s)

namespace Name

/-- The name between back-quotes. -/
def lexeme (n : Name) : Lexeme :=
  .text (Text.backQuote :: (n.text ++ [Text.backQuote])) (isFirm_quoted n.text)

/-- The name as it is reported. -/
def value (n : Name) : String :=
  String.ofList n.text

end Name

namespace Identifier

/-- The identifier without quotes. -/
def bare (i : Identifier) : Lexeme :=
  .text i.text (isFirm_of_isWord i.isWord i.ascii)

/-- The identifier may be quoted and need not be. -/
inductive Written (i : Identifier) : List Lexeme → Prop
  | bare : i.Written [i.bare]
  | quoted : i.Written [.text (Text.backQuote :: (i.text ++ [Text.backQuote])) (isFirm_quoted _)]

end Identifier

/-- The digits as they are. -/
def Digits.Written (d : Digits) (ls : List Lexeme) : Prop :=
  ls = [.text d.text (isFirm_of_isDigits d.isDigits)]

/-! ## Ways of writing -/

/-- A word that may be left out. -/
inductive Optional (k : Keyword) : List Lexeme → Prop
  | absent : Optional k []
  | present : Optional k [.word k]

/-- One thing after the other. -/
inductive Each {α : Type} (R : α → List Lexeme → Prop) : List α → List Lexeme → Prop
  | nil : Each R [] []
  | cons {a as ls ls'} : R a ls → Each R as ls' → Each R (a :: as) (ls ++ ls')

/-- The things with commas between them. -/
def Listed {α : Type} (R : α → List Lexeme → Prop) (s : Several α) (ls : List Lexeme) : Prop :=
  ∃ ls₁ ls₂, ls = ls₁ ++ ls₂ ∧ R s.first ls₁ ∧
    Each (fun a ls => ∃ ls', ls = .mark .comma :: ls' ∧ R a ls') s.others ls₂

/-- The things in parentheses with commas between them. -/
def Parenthesised {α : Type} (R : α → List Lexeme → Prop) (s : Several α) (ls : List Lexeme) :
    Prop :=
  ∃ ls', ls = .mark .openParen :: (ls' ++ [.mark .closeParen]) ∧ Listed R s ls'

/-- Numbers in parentheses, if there are any. -/
inductive NumbersWritten : Option (Several Digits) → List Lexeme → Prop
  | absent : NumbersWritten none []
  | present {ds ls} : Parenthesised Digits.Written ds ls → NumbersWritten (some ds) ls

/-! ## Types, attributes and definitions -/

/-- A name, perhaps numbers, perhaps the word `UNSIGNED`. -/
inductive TypeWritten : Identifier → Option (Several Digits) → Bool → List Lexeme → Prop
  | signed {i numbers ls} : NumbersWritten numbers ls → TypeWritten i numbers false (i.bare :: ls)
  | unsigned {i numbers ls} : NumbersWritten numbers ls →
      TypeWritten i numbers true (i.bare :: (ls ++ [.word .unsigned]))

/-- A data type, and the text that writes it. -/
structure DataType where
  name : Identifier
  numbers : Option (Several Digits)
  unsigned : Bool
  text : List Char
  written : ∃ ls marks n, TypeWritten name numbers unsigned ls ∧
    Lays ls (.ofText text) marks n ∧ n.rest = []
  tight : text.head?.any isGap = false

private theorem TypeWritten.ne_nil {i : Identifier} {numbers : Option (Several Digits)}
    {unsigned : Bool}
    {ls : List Lexeme} (h : TypeWritten i numbers unsigned ls) : ls ≠ [] := by
  cases h <;> exact List.cons_ne_nil _ _

/-- The text of a type is firm. -/
theorem DataType.isFirm (t : DataType) : IsFirm t.text := by
  obtain ⟨ls, marks, n, hls, hlays, hn⟩ := t.written
  obtain ⟨w, hw⟩ := hlays.over
  have htext : t.text = w := by
    have := hw.rest
    rwa [hn, List.append_nil] at this
  rw [htext]
  exact hlays.isFirm hls.ne_nil hw

/-- A default value. -/
inductive Literal where
  | string (s : List Char)
  | number (w : List Char) (isNumber : IsNumber w)
  | word (w : List Char) (isWord : IsWord w) (ascii : ∀ c ∈ w, c.toNat < 128)
      (free : w.head?.any Char.isDigit = false)
deriving DecidableEq

/-- The literal as it is. -/
def Literal.lexeme : Literal → Lexeme
  | string s => .text (stringText s) (isFirm_stringText s)
  | number w isNumber => .number w isNumber
  | word w isWord ascii _ => .text w (isFirm_of_isWord isWord ascii)

/-- An attribute of a column. -/
inductive Attribute where
  | notNull
  | null
  | primaryKey
  | autoIncrement
  | unique
  | default (value : Literal)
  | comment (content : List Char)
deriving DecidableEq

/-- The ways to write an attribute. -/
inductive Attribute.Written : Attribute → List Lexeme → Prop
  | notNull : Written .notNull [.word .not, .word .null]
  | null : Written .null [.word .null]
  | primaryKey : Written .primaryKey [.word .primary, .word .key]
  | autoIncrement : Written .autoIncrement [.word .autoIncrement]
  | unique {ls} : Optional .key ls → Written .unique (.word .unique :: ls)
  | default {value} : Written (.default value) [.word .default, value.lexeme]
  | comment {content} : Written (.comment content)
      [.word .comment, .text (stringText content) (isFirm_stringText content)]

/-- The definition of a column. -/
structure Definition where
  name : Name
  type : DataType
  attributes : List Attribute

namespace Definition

/-- The ways to write a definition. -/
def Written (d : Definition) (ls : List Lexeme) : Prop :=
  ∃ ls', ls = d.name.lexeme :: .text d.type.text d.type.isFirm :: ls' ∧
    Each Attribute.Written d.attributes ls'

/-- The column that the definition is about. -/
def column (d : Definition) : Column where
  name := d.name.value
  dataType := String.ofList d.type.text
  flags :=
    { primaryKey := d.attributes.contains .primaryKey
      notNull := d.attributes.contains .notNull
      autoIncrement := d.attributes.contains .autoIncrement }

end Definition

/-! ## Positions and key parts -/

/-- Where a column is to stand. -/
inductive Position where
  | first
  | after (anchor : Name)

namespace Position

/-- The position in words. -/
def lexemes : Position → List Lexeme
  | first => [.word .first]
  | after anchor => [.word .after, anchor.lexeme]

/-- The place that is meant. -/
def place : Position → Place
  | first => .first
  | after anchor => .after anchor.value

end Position

/-- The lexemes of a position, if there is one. -/
def positionLexemes (p : Option Position) : List Lexeme :=
  p.elim [] Position.lexemes

/-- The direction in which a key part is sorted. -/
inductive Direction where
  | ascending
  | descending

/-- The word for a direction. -/
def Direction.keyword : Direction → Keyword
  | ascending => .asc
  | descending => .desc

/-- A column of an index. -/
structure KeyPart where
  column : Name
  numbers : Option (Several Digits)
  direction : Option Direction

/-- The ways to write a key part. -/
def KeyPart.Written (k : KeyPart) (ls : List Lexeme) : Prop :=
  ∃ ls', ls = k.column.lexeme :: (ls' ++ k.direction.elim [] fun d => [.word d.keyword]) ∧
    NumbersWritten k.numbers ls'

/-- The names of the columns of an index. -/
def columnValues (parts : Several KeyPart) : List String :=
  parts.toList.map fun k => k.column.value

end AlterTable.Draft
