import InfraModule.Yaml.Token.Basic

/-!
# Block scalars

A block scalar is a run of lines that are indented to one column, which is given or is that of the
first line that is not empty. In the literal style a line end stands for itself, in the folded style
it counts as a space where words stand on both sides. What is done with the line ends after the last
line is chosen by a sign: none of them, one, or all are kept.
-/

namespace InfraModule.Yaml

/-- What is kept of the line ends after the last line of a block scalar. -/
inductive Chomping where
  /-- Nothing. -/
  | strip
  /-- One line end. -/
  | clip
  /-- All of them. -/
  | keep
  deriving DecidableEq

namespace TokenM

/-- Takes the sign that says what is kept of the last line ends. -/
def readChomping : TokenM (Option Chomping) := do
  match ← peek? with
  | some '+' =>
    skipText
    return some .keep
  | some '-' =>
    skipText
    return some .strip
  | _ => return none

/-- Takes the digit that says how far the lines are indented; 0 if there is none. -/
def readIncrement : TokenM Nat := do
  match ← peek? with
  | some c =>
    if c.isDigit then
      demand (c != '0')
      skipText
      return c.toNat - '0'.toNat
    else return 0
  | none => return 0

/-- Takes the two signs of a block scalar, which may stand in either order. -/
def readBlockHeader : TokenM (Chomping × Nat) := do
  match ← readChomping with
  | some chomping => return (chomping, ← readIncrement)
  | none =>
    let increment ← readIncrement
    let chomping ← if increment = 0 then pure none else readChomping
    return (chomping.getD .clip, increment)

/-- Refuses a tab where version 1.1 asks for the spaces that indent a line. -/
def demandNoTab : TokenM Unit := do
  let c ← cursor
  demand !(c.version == .v11 && c.isAt '\t')

/-- Passes empty lines and the indentation of the next line, as far as a column. The line ends are
added to `breaks`. -/
def skipIndentation (column : Nat) (breaks : String) : TokenM String := do
  let mut breaks := breaks
  for _ in ← rest do
    let c ← cursor
    if c.isAt ' ' && c.place.column < column then skipBlank
    else
      if c.place.column < column then demandNoTab
      if c.atBreak then breaks ← readBreak breaks
      else break
  return breaks

/-- Passes empty lines and the indentation of the first line that is not empty. The result is the
column to which the lines are indented, and the line ends. -/
def findIndentation : TokenM (Nat × String) := do
  let mut breaks := ""
  let mut column := 0
  for _ in ← rest do
    let c ← cursor
    if c.isAt ' ' then skipBlank
    else
      column := max column c.place.column
      demandNoTab
      if c.atBreak then breaks ← readBreak breaks
      else break
  column := max column (← place).column
  let s ← get
  let least := if s.indent > 0 || s.cursor.version == .v11 then 1 else 0
  return (max (max column (s.indent + 1).toNat) least, breaks)

/-- The column up to which lines that are indented to `column` are looked at before they are taken:
they are looked at in steps of sixteen characters, and two beyond the indentation at least. -/
def lookedAt (column : Nat) : Nat :=
  max (max 1 ((column + 15) / 16) * 16) (column + 2)

/-- The column up to which the first line of a block scalar is looked at, if its own indentation is
that of all lines. -/
def lookedAtFirst (column : Nat) : Nat :=
  if column = 0 then 4 else column + 1

/-- Takes a line of a block scalar. In version 1.2 what it holds from the column `known` on is taken
at once, and the index after it counts that part by bytes. -/
def readBlockLine (known : Nat) : TokenM String := do
  let c ← cursor
  let line ← takeWhile (!isBreak c.version ·)
  if c.version == .v12 then
    let later := String.ofList (line.toList.drop (known - c.place.column))
    let excess := later.utf8ByteSize - later.length
    move fun c => { c with place := { c.place with index := c.place.index + excess } }
  return line

/-- The lines of a block scalar, up to the first one that is indented less. -/
structure BlockLines where
  /-- The text of the lines, without the line ends after the last. -/
  text : String := ""
  /-- The line end after the last line. -/
  lastBreak : String := ""
  /-- The line ends of the empty lines after it. -/
  breaks : String

/-- Takes the lines of a block scalar, the first of which is known up to the column `known`;
`breaks` are the line ends of the empty lines before. -/
def readBlockLines (literal : Bool) (column known : Nat) (breaks : String) :
    TokenM BlockLines := do
  let mut lines : BlockLines := { breaks }
  let mut known := known
  let mut afterBlank := false
  for _ in ← rest do
    let c ← cursor
    if c.atEnd || c.place.column != column || (column == 0 && c.atMarker '.') then break
    let blank := c.atBlank
    let folded := !literal && lines.lastBreak == "\n" && !afterBlank && !blank
    let gap :=
      if folded then if lines.breaks.isEmpty then " " else lines.breaks
      else lines.lastBreak ++ lines.breaks
    afterBlank := blank
    let line ← readBlockLine known
    known := lookedAt column
    lines := { text := lines.text ++ gap ++ line, breaks := "" }
    if (← cursor).atEnd then break
    let lastBreak ← readBreak ""
    lines := { lines with lastBreak, breaks := ← skipIndentation column "" }
  return lines

/-- What is left of the line ends after the last line. -/
def chomp (chomping : Chomping) (column : Nat) (lines : BlockLines) : TokenM String := do
  let c ← cursor
  let unended :=
    if c.version == .v12 && c.atEnd && max column 1 ≤ c.place.column then "\n" else ""
  match chomping with
  | .strip => return ""
  | .clip => return lines.lastBreak ++ unended
  | .keep => return lines.lastBreak ++ unended ++ lines.breaks

/-- The text of a block scalar without lines at the end of the text, given the line ends after its
signs and those of the empty lines. -/
def emptyBlock (chomping : Chomping) (sameLine : Bool) (headerBreak breaks : String) : String :=
  if sameLine then ""
  else match chomping with
    | .strip => ""
    | .clip => headerBreak
    | .keep => if breaks.isEmpty then headerBreak else breaks

/-- Takes a block scalar. Its place is that of its first line; in version 1.2 one without lines at
the end of the text has the place of its signs. -/
def blockScalar (literal : Bool) : TokenM Unit := do
  if (← version) == .v12 then saveKey else removeKey
  allowKey true
  let header ← place
  skipText
  leaveOpenLevels
  let (chomping, increment) ← readBlockHeader
  discard <| skipGap true
  demandLineEnd
  let headerBreak ← readBreak ""
  demand !(← cursor).isAt '\t'
  let indent := (← get).indent
  let (column, known, breaks) ←
    if increment = 0 then
      let (column, breaks) ← findIndentation
      pure (column, lookedAtFirst column, breaks)
    else
      let column := (max indent 0).toNat + increment
      pure (column, lookedAt column, ← skipIndentation column "")
  let c ← cursor
  let start := c.place
  let style := if literal then ScalarStyle.literal else .folded
  if c.version == .v12 && c.atEnd then
    push (.scalar style (emptyBlock chomping (start.line == header.line) headerBreak breaks)) header
  else
    demand !(c.version == .v12 && start.column < column && indent < start.column)
    let lines ← readBlockLines literal column known breaks
    push (.scalar style (lines.text ++ (← chomp chomping column lines))) start

end TokenM

end InfraModule.Yaml
