import AlterTable.Text

/-!
# Parsing

Reading a text from a place on: the places, the traces that tell why reading failed, and the parsers
that a grammar is put together from.
-/

namespace AlterTable.Parse

/-!
## Cursors

A place in a text that is being read: how many bytes lie before it, and the characters from it
on. A cursor moves forward only, and by whole characters.
-/

/-- A place in a text. -/
structure Cursor where
  /-- The number of bytes before the place. -/
  offset : Nat
  /-- The text from the place on. -/
  rest : List Char
deriving DecidableEq, Repr, Inhabited

namespace Cursor

/-- The place before the first character of a text. -/
def ofText (s : List Char) : Cursor := ⟨0, s⟩

/-- The place `n` characters further on. -/
def advance (c : Cursor) (n : Nat) : Cursor :=
  ⟨c.offset + Text.byteLength (c.rest.take n), c.rest.drop n⟩

/-- The text between a place and a later one. -/
def upTo (c later : Cursor) : List Char :=
  c.rest.take (Text.charsCovering (later.offset - c.offset) c.rest)

/-- No character further on is the same place. -/
@[simp] theorem advance_zero (c : Cursor) : c.advance 0 = c := by
  simp [advance]

/-- What was passed over on the way to a later place is the text up to it. -/
theorem upTo_advance (c : Cursor) (n : Nat) : c.upTo (c.advance n) = c.rest.take n := by
  have h : (c.advance n).offset - c.offset = Text.byteLength (c.rest.take n) := by
    simp [advance]
  rw [upTo, h, Text.charsCovering_byteLength_take, List.take_eq_take_min.symm]

end Cursor

/-!
## Traces

Why reading failed is told as a trace: places in the text, each with what was expected there,
innermost first. A trace grows outwards, by alternatives that were all refused and by the names
of the parts that were being read.
-/

/-- What was expected at a place of the text. -/
inductive Expectation where
  /-- This one character. -/
  | character (c : Char)
  /-- A fixed text, whether its letter case matters or not. -/
  | fixedText
  /-- One or more characters of a class. -/
  | run
  /-- One or more decimal digits. -/
  | digits
  /-- One or more characters outside a class. -/
  | otherThan
  /-- Something read before, but of an accepted kind. -/
  | accepted
  /-- Anything but a character of a class. -/
  | absence
  /-- One of several alternatives. -/
  | choice
  /-- The end of the text. -/
  | endOfText
  /-- A part of the statement that has a name of its own. -/
  | part (name : String)
deriving DecidableEq, Repr, Inhabited

/-- The name of an expectation in a report. -/
def Expectation.label : Expectation → String
  | character _ => "Char"
  | fixedText => "Tag"
  | run => "TakeWhile1"
  | digits => "Digit"
  | otherThan => "IsNot"
  | accepted => "Verify"
  | absence => "Not"
  | choice => "Alt"
  | endOfText => "Eof"
  | part name => name

/-- A place of the text and what was expected there. -/
structure Entry where
  place : Cursor
  expected : Expectation
deriving DecidableEq, Repr, Inhabited

/-- The entries of a failure, innermost first. -/
abbrev Trace := List Entry

/-- The trace with one more entry around it. -/
def Trace.within (t : Trace) (place : Cursor) (expected : Expectation) : Trace :=
  t ++ [⟨place, expected⟩]

/-- A trace that has grown has an entry. -/
theorem Trace.within_ne_nil (t : Trace) (place : Cursor) (expected : Expectation) :
    t.within place expected ≠ [] := by
  simp [Trace.within]

/-!
## Parsers

A parser reads something at a place of a text. It answers what it read and the place behind it,
or it fails with a trace, and a failure is of one of two kinds: a refusal leaves it to the
caller to try something else at the same place, a fatal failure ends the reading.

The parsers of this module are the only ones that look at the text: `lexeme` takes as many
characters as a measure says, `notAhead` looks at the next character without taking it, and
`endOfText` asks whether there is one. All others are put together from these.
-/

/-- The answer of a parser. -/
inductive Outcome (α : Type) where
  /-- A value was read, up to the place `next`. -/
  | done (value : α) (next : Cursor)
  /-- Nothing of this kind stands here; something else may. -/
  | refused (trace : Trace)
  /-- What stands here can be nothing else, and it is faulty. -/
  | fatal (trace : Trace)
deriving Repr, Inhabited

/-- A function that reads at a place of a text. -/
def Parser (α : Type) : Type := Cursor → Outcome α

namespace Parser

/-! ### Sequences -/

/-- Reads nothing. -/
protected def pure {α : Type} (a : α) : Parser α := fun c => .done a c

/-- Reads one thing, and behind it what the first value leads to. -/
protected def bind {α β : Type} (p : Parser α) (f : α → Parser β) : Parser β := fun c =>
  match p c with
  | .done a next => f a next
  | .refused t => .refused t
  | .fatal t => .fatal t

instance : Monad Parser where
  pure := Parser.pure
  bind := Parser.bind

/-- Returning a value reads nothing. -/
theorem pure_apply {α : Type} (a : α) (c : Cursor) : (pure a : Parser α) c = .done a c := rfl

/-- What is read next is read from where the first parser stopped, and a failure of the first is one
of both. -/
theorem bind_apply {α β : Type} (p : Parser α) (f : α → Parser β) (c : Cursor) :
    (p >>= f) c = match p c with
      | .done a next => f a next
      | .refused t => .refused t
      | .fatal t => .fatal t := rfl

/-! ### Looking at the text -/

/-- Takes the number of characters that the measure finds in the rest of the text. -/
def lexeme (expected : Expectation) (width? : List Char → Option Nat) : Parser (List Char) :=
  fun c => match width? c.rest with
    | some n => .done (c.rest.take n) (c.advance n)
    | none => .refused [⟨c, expected⟩]

/-- Reads nothing, where the next character is not of the class or the text ends. -/
def notAhead (p : Char → Bool) : Parser Unit := fun c =>
  if c.rest.head?.any p then .refused [⟨c, .absence⟩] else .done () c

/-- Reads nothing, where the text ends. -/
def endOfText : Parser Unit := fun c =>
  if c.rest.isEmpty then .done () c else .refused [⟨c, .endOfText⟩]

/-! ### Options and alternatives -/

/-- Reads a thing or, where it is refused, nothing. -/
def maybe {α : Type} (p : Parser α) : Parser (Option α) := fun c =>
  match p c with
  | .done a next => .done (some a) next
  | .refused _ => .done none c
  | .fatal t => .fatal t

/-- The alternatives in order, after one that failed with the trace `last`. -/
def choiceAfter {α : Type} (last : Trace) : List (Parser α) → Parser α
  | [], c => .refused (last.within c .choice)
  | p :: ps, c => match p c with
    | .refused t => choiceAfter t ps c
    | outcome => outcome

/-- The first alternative that is not refused. Where all are, the last one tells why. -/
def choice {α : Type} (ps : List (Parser α)) : Parser α :=
  choiceAfter [] ps

/-- Makes a refusal fatal: what was read before leaves no other way to go on. -/
def commit {α : Type} (p : Parser α) : Parser α := fun c =>
  match p c with
  | .refused t => .fatal t
  | outcome => outcome

/-- Reads what `p` reads, and refuses a value that the test does not accept. -/
def accepting {α : Type} (p : Parser α) (test : α → Bool) : Parser α := fun c =>
  match p c with
  | .done a next => if test a then .done a next else .refused [⟨c, .accepted⟩]
  | outcome => outcome

/-- Names the part of the statement that `p` reads in the traces of its failures. -/
def named {α : Type} (name : String) (p : Parser α) : Parser α := fun c =>
  match p c with
  | .refused t => .refused (t.within c (.part name))
  | .fatal t => .fatal (t.within c (.part name))
  | outcome => outcome

/-! ### Repetition -/

/-- Reads as many things as there are. One that takes nothing is not counted and ends the
repetition, so that there is always an end; to refuse the text there would be the other way to have
one. Nothing that the grammar repeats can take nothing: an attribute and a part of a string have a
character of their own, and a further element has its separator. So the two ways read the same. -/
def many {α : Type} (p : Parser α) : Parser (List α) := fun c =>
  match p c with
  | .done a next =>
    if next.rest.length < c.rest.length then
      match many p next with
      | .done as last => .done (a :: as) last
      | .refused t => .refused t
      | .fatal t => .fatal t
    else
      .done [] c
  | .refused _ => .done [] c
  | .fatal t => .fatal t
termination_by c => c.rest.length

/-- Reads one thing, and more of them as long as a separator with another one behind it
follows. -/
def separatedBy {α β : Type} (separator : Parser β) (p : Parser α) : Parser (List α) := do
  let first ← p
  let others ← many (do let _ ← separator; p)
  return first :: others

/-- Reads something that stands between an opening and a closing mark. -/
def between {α β γ : Type} (opening : Parser β) (closing : Parser γ) (p : Parser α) :
    Parser α := do
  let _ ← opening
  let a ← p
  let _ ← closing
  return a

end Parser

end AlterTable.Parse
