import InfraModule.Source
import InfraModule.Yaml.Character

/-!
# Places in a text

A cursor is what is left of a text and the place where that starts. A carriage return and the line
feed after it are one line end. The text itself ends at its first NUL.
-/

namespace InfraModule.Yaml

/-- A place in a text. -/
structure Place where
  /-- How many characters stand before it, where no line of a block scalar has been counted by bytes
  (`TokenM.readBlockLine`). -/
  index : Nat := 0
  /-- Its line, counted from one. -/
  line : Nat := 1
  /-- How many characters stand before it on its line. -/
  column : Nat := 0
  deriving DecidableEq, Inhabited

/-- A place as a line and a column, both counted from one. -/
def Place.mark (p : Place) : Mark :=
  ⟨p.line, p.column + 1⟩

/-- What is left of a text. -/
structure Cursor where
  /-- The rules that the text follows. -/
  version : Version
  /-- The characters left. -/
  rest : List Char
  /-- The place of the first of them. -/
  place : Place := {}
  /-- Whether nothing but blanks stands before it on its line. -/
  leading : Bool := true

namespace Cursor

/-- A cursor at the start of a text. -/
def ofText (version : Version) (text : String) : Cursor :=
  { version, rest := text.toList.takeWhile (· ≠ '\x00') }

/-- The next character. -/
def peek? (c : Cursor) : Option Char :=
  c.rest.head?

/-- The character after the next `n`. -/
def peekAt? (c : Cursor) (n : Nat) : Option Char :=
  c.rest[n]?

/-- Passes a character that does not end a line. -/
def advance (c : Cursor) (leading : Bool) : Cursor :=
  { c with
    rest := c.rest.tail
    place := { c.place with index := c.place.index + 1, column := c.place.column + 1 }
    leading }

/-- Passes a blank. -/
def skipBlank (c : Cursor) : Cursor :=
  c.advance c.leading

/-- Passes a character that is no blank. -/
def skipText (c : Cursor) : Cursor :=
  c.advance false

/-- Passes `n` characters of text. -/
def skipTexts : Nat → Cursor → Cursor
  | 0, c => c
  | n + 1, c => skipTexts n c.skipText

/-- Passes the end of a line, if it is next. -/
def skipBreak (c : Cursor) : Cursor :=
  let past (count : Nat) (rest : List Char) : Cursor :=
    { version := c.version
      rest
      place := { index := c.place.index + count, line := c.place.line + 1, column := 0 } }
  match c.rest with
  | '\r' :: '\n' :: rest => past 2 rest
  | char :: rest => if isBreak c.version char then past 1 rest else c
  | [] => c

/-- Whether the next character is `expected`. -/
def isAt (c : Cursor) (expected : Char) : Bool :=
  c.peek? == some expected

/-- Whether the character after the next `n` ends a line. -/
def breaksAt (c : Cursor) (n : Nat) : Bool :=
  (c.peekAt? n).any (isBreak c.version)

/-- Whether the next character ends a line. -/
def atBreak (c : Cursor) : Bool :=
  c.breaksAt 0

/-- Whether a line or the text ends here. -/
def atLineEnd (c : Cursor) : Bool :=
  endsLine c.version c.peek?

/-- Whether a word that takes the next `n` characters ends with them. -/
def endsWordAt (c : Cursor) (n : Nat) : Bool :=
  endsWord c.version (c.peekAt? n)

/-- Whether the next character is a blank. -/
def atBlank (c : Cursor) : Bool :=
  c.peek?.any isBlank

/-- Whether the text ends here. -/
def atEnd (c : Cursor) : Bool :=
  c.rest.isEmpty

/-- Whether three equal characters open a line and are a word of their own. -/
def atMarker (c : Cursor) (char : Char) : Bool :=
  c.place.column == 0 && c.rest.take 3 == [char, char, char] && c.endsWordAt 3

/-- Whether a document starts or ends here by a marker. -/
def atDocumentMarker (c : Cursor) : Bool :=
  c.atMarker '-' || c.atMarker '.'

end Cursor

end InfraModule.Yaml
