import InfraModule.Yaml.Token.Fold

/-!
# Quoted scalars

Between single quotes only the quote itself needs to be written twice. Between double quotes a
backslash introduces escapes; before a line end it joins the lines. In version 1.2 nothing but a
comment may follow the closing quote on its line, except a colon, or inside a flow collection one of
its signs.
-/

namespace InfraModule.Yaml.TokenM

/-- The quote around a scalar. -/
def quote (single : Bool) : Char :=
  if single then '\x27' else '\x22'

/-- The character that a letter after a backslash stands for. -/
def escapes : List (Char × Char) := [
  ('0', '\x00'), ('a', '\x07'), ('b', '\x08'), ('t', '\t'), ('\t', '\t'), ('n', '\n'),
  ('v', '\x0b'), ('f', '\x0c'), ('r', '\r'), ('e', '\x1b'), (' ', ' '), ('\x22', '\x22'),
  ('/', '/'), ('\\', '\\'), ('N', '\u0085'), ('_', '\u00a0'), ('L', '\u2028'), ('P', '\u2029')]

/-- How many hexadecimal digits follow a letter after a backslash. -/
def escapeLengths : List (Char × Nat) := [('x', 2), ('u', 4), ('U', 8)]

/-- The number that the next `n` characters denote in hexadecimal. -/
def readHex (n : Nat) : TokenM Nat := do
  let mut value := 0
  for _ in List.range n do
    let digit ← (← peek?).bind hexDigit?
    value := 16 * value + digit
    skipText
  return value

/-- The character that an escape stands for. -/
def readEscape : TokenM Char := do
  skipText
  let letter ← (← peek? : Option Char)
  skipText
  match escapeLengths.lookup letter with
  | some length => char? (← readHex length)
  | none => escapes.lookup letter

/-- The characters up to the next blank, line end or closing quote, and whether they end with a line
end that a backslash joins to the next line. -/
def readQuotedWord (single : Bool) : TokenM (String × Bool) := do
  let mut text := ""
  for _ in ← rest do
    let c ← cursor
    if c.endsWordAt 0 then break
    if c.isAt (quote single) then
      unless single && c.peekAt? 1 == some (quote single) do break
      move (Cursor.skipTexts 2)
      text := text.push (quote single)
    else if !single && c.isAt '\\' then
      if c.breaksAt 1 then
        skipText
        skipBreak
        return (text, true)
      text := text.push (← readEscape)
    else
      text := text ++ (c.peek?.map Char.toString).getD ""
      skipText
  return (text, false)

/-- The text that blanks and line ends between two words of a quoted scalar stand for, where
`joined` says that the first word ended with a joined line end. -/
def readQuotedGap (joined : Bool) : TokenM String := do
  let mut fold : Fold := {}
  let mut folded := joined
  for _ in ← rest do
    let s ← get
    let c := s.cursor
    if c.atBlank then
      if folded then
        demand !(c.version.indentsInside && c.isAt '\t' && (c.place.column : Int) < s.indent)
      else
        fold := { fold with blanks := fold.blanks ++ (c.peek?.map Char.toString).getD "" }
      skipBlank
    else if c.atBreak then
      fold ← foldBreak fold folded
      folded := true
    else
      break
  return fold.text folded

/-- The text up to the closing quote. -/
def readQuotedText (single : Bool) : TokenM String := do
  let mut text := ""
  for _ in ← rest do
    let s ← get
    let c := s.cursor
    demand !c.atDocumentMarker
    demand (!c.version.indentsInside || s.indent ≤ c.place.column)
    let (word, joined) ← readQuotedWord single
    text := text ++ word
    if (← cursor).isAt (quote single) then break
    text := text ++ (← readQuotedGap joined)
  demand ((← cursor).isAt (quote single))
  return text

/-- Whether a character may follow a quoted scalar that started on the given line. -/
def endsQuoted (startLine : Nat) : TokenM Bool := do
  let c ← cursor
  match c.peek? with
  | some ':' => return (← inFlow) || startLine == c.place.line
  | some ',' | some ']' | some '\x7d' => inFlow
  | _ => return c.atLineEnd

/-- Checks what follows a quoted scalar that started on the given line, and notes that a colon may
follow at once. -/
def finishQuoted (startLine : Nat) : TokenM Unit := do
  discard <| skipGap true
  demand (← endsQuoted startLine)
  skipToToken
  let here ← place
  modify fun s => { s with adjacentValueAt := here.index }

/-- Takes a quoted scalar. -/
def quoted (single : Bool) : TokenM Unit := do
  startWord
  let start ← place
  skipText
  let text ← readQuotedText single
  skipText
  if (← version) == .v12 then
    finishQuoted start.line
  push (.scalar (if single then .singleQuoted else .doubleQuoted) text) start

end InfraModule.Yaml.TokenM
