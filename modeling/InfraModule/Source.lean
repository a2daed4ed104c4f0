/-!
# Positions in a source document

A `Mark` is a 1-based line and column, ordered by line and then by column. A `Location` is the span
between two marks of a named file; it is shown by its first mark alone. A `Key` is the key of a
mapping together with the place where it is written.
-/

namespace InfraModule

/-- A position in a document: a line and a column, both counted from one. -/
structure Mark where
  /-- The line, counted from one. -/
  line : Nat
  /-- The column in characters, counted from one. -/
  column : Nat
  deriving DecidableEq, Inhabited

namespace Mark

/-- A mark comes before another on an earlier line, or on the same line at an earlier column. -/
instance : LT Mark :=
  ⟨fun a b => a.line < b.line ∨ (a.line = b.line ∧ a.column < b.column)⟩

/-- A mark is at or before another when the other does not come before it. -/
instance : LE Mark :=
  ⟨fun a b => a.line < b.line ∨ (a.line = b.line ∧ a.column ≤ b.column)⟩

/-- The order of marks spelled out. -/
theorem lt_def (a b : Mark) :
    a < b ↔ a.line < b.line ∨ (a.line = b.line ∧ a.column < b.column) := Iff.rfl

/-- The weak order of marks spelled out. -/
theorem le_def (a b : Mark) :
    a ≤ b ↔ a.line < b.line ∨ (a.line = b.line ∧ a.column ≤ b.column) := Iff.rfl

instance (a b : Mark) : Decidable (a < b) :=
  inferInstanceAs (Decidable (_ ∨ _))

instance (a b : Mark) : Decidable (a ≤ b) :=
  inferInstanceAs (Decidable (_ ∨ _))

/-- The position as it stands in messages, `(line,column)`. -/
def display (m : Mark) : String :=
  "(" ++ toString m.line ++ "," ++ toString m.column ++ ")"

end Mark

/-- A span of a named file, from its first position to the position where it stops. -/
structure Location where
  /-- The file that holds the span. -/
  file : String
  /-- Where the span starts. -/
  start : Mark
  /-- Where the span stops. -/
  stop : Mark
  deriving DecidableEq, Inhabited

namespace Location

/-- The zero-width span at one position. -/
def point (file : String) (mark : Mark) : Location :=
  ⟨file, mark, mark⟩

/-- The span that starts where `first` starts and stops where `last` stops. -/
def through (first last : Location) : Location :=
  { first with stop := last.stop }

/-- The span as it stands in messages: its file and first position. -/
def display (l : Location) : String :=
  l.file ++ l.start.display

/-- A joined location is in the file of the first. -/
@[simp] theorem through_file (a b : Location) : (a.through b).file = a.file := rfl

/-- A joined location starts with the first. -/
@[simp] theorem through_start (a b : Location) : (a.through b).start = a.start := rfl

/-- A joined location stops with the second. -/
@[simp] theorem through_stop (a b : Location) : (a.through b).stop = b.stop := rfl

end Location

/-- A key of a mapping and the place where it is written. -/
structure Key where
  /-- The key itself. -/
  text : String
  /-- Where the key is written. -/
  location : Location
  deriving DecidableEq, Inhabited

end InfraModule
