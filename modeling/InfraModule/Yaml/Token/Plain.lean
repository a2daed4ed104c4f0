import InfraModule.Yaml.Token.Fold

/-!
# Plain scalars

A plain scalar goes on until a colon that a blank follows, a comment, or a line that is not indented
more than the block around it. Inside a flow collection the signs of the collection end it, too; in
version 1.1 a colon right before such a sign, or before a question mark, is an error there.
-/

namespace InfraModule.Yaml.TokenM

/-- Whether the next character can be part of a plain scalar. -/
def atPlain : TokenM Bool := do
  let c ← cursor
  let flow ← inFlow
  if c.isAt ':' then
    let next := c.peekAt? 1
    let sign := flow && next.any isFlow
    if c.version == .v11 then
      demand !(sign || (flow && next == some '?'))
    return !(c.endsWordAt 1 || sign)
  else
    return !c.endsWordAt 0 && !(flow && c.peek?.any isFlow)

/-- Takes the characters of a plain scalar up to the next blank, line end or sign. -/
def readPlainWord : TokenM String := do
  let mut text := ""
  for c in ← rest do
    unless ← atPlain do break
    text := text.push c
    skipText
  return text

/-- Passes the blanks and line ends between two words of a plain scalar. A tab may indent a line
only if the line is empty, and in version 1.1 not even then. -/
def readPlainGap (indent : Int) : TokenM Fold := do
  let mut fold : Fold := {}
  for _ in ← rest do
    let c ← cursor
    if c.atBlank then
      if !c.leading then
        fold := { fold with blanks := fold.blanks ++ (c.peek?.map Char.toString).getD "" }
        skipBlank
      else if c.isAt '\t' && (c.place.column : Int) < indent then
        demand (c.version == .v12)
        discard <| skipGap true
        demandLineEnd
      else
        skipBlank
    else if c.atBreak then
      fold ← foldBreak fold c.leading
    else
      break
  return fold

/-- Takes the text of a plain scalar, whose lines must be indented to a column. -/
def readPlainText (indent : Int) : TokenM String := do
  let mut text := ""
  let mut fold : Fold := {}
  for _ in ← rest do
    let c ← cursor
    if c.atDocumentMarker || c.isAt '#' then break
    demand !(c.version == .v12 && (← inFlow) && c.isAt '-' && (c.peekAt? 1).any isFlow)
    if ← atPlain then
      text := text ++ fold.text c.leading ++ (← readPlainWord)
    unless (← cursor).atBlank || (← cursor).atBreak do break
    fold ← readPlainGap indent
    if !(← inFlow) && ((← place).column : Int) < indent then break
  return text

/-- Takes a plain scalar. -/
def plain : TokenM Unit := do
  startWord
  leaveOpenLevels
  let indent := (← get).indent + 1
  let start ← place
  demand !((← version).indentsInside && (← inFlow) && (start.column : Int) < indent)
  let text ← readPlainText indent
  if (← cursor).leading then
    allowKey true
  push (.scalar .plain text) start

end InfraModule.Yaml.TokenM
