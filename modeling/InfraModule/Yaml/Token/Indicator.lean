import InfraModule.Yaml.Token.Basic

/-!
# Signs

The tokens that are single signs: the brackets and commas of flow collections, the dash of a
sequence entry, the question mark and the colon of a mapping, and the markers around documents. A
colon shows that the pending key is one; its token and the start of its mapping are put in before
it.
-/

namespace InfraModule.Yaml.TokenM

/-- Takes the sign that opens a flow collection. -/
def flowStart (token : Token) : TokenM Unit := do
  saveKey
  if (← version) == .v12 then
    rollOneColumn
  enterFlow
  allowKey true
  let start ← place
  skipText
  if token = .flowMappingStart then
    modify fun s => { s with flowMappingOpen := true }
  discard <| skipGap true
  push token start

/-- Takes the sign that closes a flow collection. Inside another one the colon of a mapping may
follow at once. -/
def flowEnd (token : Token) : TokenM Unit := do
  removeKey
  leaveFlow
  allowKey false
  closePair
  let start ← place
  skipText
  discard <| skipGap true
  if ← inFlow then
    let here ← place
    modify fun s => { s with adjacentValueAt := here.index }
  push token start

/-- Takes the comma of a flow collection. -/
def flowEntry : TokenM Unit := do
  removeKey
  allowKey true
  closePair
  let start ← place
  skipText
  discard <| skipGap true
  push .flowEntry start

/-- Whether the last token, not yet given out, is a tag or an anchor at the start of a line. -/
def afterProperty : TokenM Bool := do
  let s ← get
  if s.given < s.tokens.size then
    return s.tokens.back?.any fun found =>
      match found.token with
      | .anchor _ => found.place.column == 0
      | .tag .. => found.place.column == 0
      | _ => false
  else
    return false

/-- Takes the dash of a sequence entry. Its place is that after the blanks that follow. -/
def blockEntry : TokenM Unit := do
  let s ← get
  let start := s.cursor.place
  demand (s.flowLevel == 0 && s.keyAllowed)
  demand !((← afterProperty) && start.column == 0 && s.indent > -1)
  skipText
  rollIndent start.column none .blockSequenceStart start
  let gap ← skipGap true
  let c ← cursor
  demand !(gap.tab && c.isAt '-' && c.endsWordAt 1)
  discard <| skipGap false
  let c ← cursor
  if c.atBreak || c.peek?.any isFlow then
    rollOneColumn
  removeKey
  allowKey true
  push .blockEntry (← place)

/-- Takes the question mark of a key. -/
def key : TokenM Unit := do
  let start ← place
  if ← inFlow then
    modify fun s => { s with flowMappingOpen := true }
  else
    demand (← get).keyAllowed
    rollIndent start.column none .blockMappingStart start
  removeKey
  allowKey !(← inFlow)
  skipText
  skipRequiredSpace
  demand !(← cursor).isAt '\t'
  push .key start

/-- Takes the colon of a mapping. -/
def value : TokenM Unit := do
  let start ← place
  let flow ← inFlow
  let pending ← pendingKey
  let pair := flow && !(← get).flowMappingOpen
  modify fun s => { s with pairOpen := pair }
  skipText
  if (← cursor).isAt '\t' then
    let gap ← skipGap true
    let next ← peek?
    demand (gap.space || !(next.any fun c => c == '-' || isWord c))
  let here ← place
  if pending.possible then
    insert pending.number .key pending.place
    if pair then
      demand (start.line ≤ pending.place.line)
      insert pending.number .flowMappingStart here
    rollIndent pending.place.column (some pending.number) .blockMappingStart start
    rollOneColumn
    setPendingKey { ← pendingKey with possible := false }
    allowKey false
  else
    if pair then
      push .flowMappingStart here
    unless flow do
      demand (← get).keyAllowed
      rollIndent start.column none .blockMappingStart start
    rollOneColumn
    allowKey !flow
  push .value start

/-- Takes the marker of the start or the end of a document. -/
def documentMarker (token : Token) : TokenM Unit := do
  unrollIndent (-1)
  removeKey
  allowKey false
  let start ← place
  move (Cursor.skipTexts 3)
  push token start

/-- Ends the text. The end counts as the start of a line. -/
def streamEnd : TokenM Unit := do
  move fun c =>
    if c.place.column = 0 then c
    else { c with place := { c.place with line := c.place.line + 1, column := 0 } }
  dropKeys fun _ => true
  unrollIndent (-1)
  removeKey
  allowKey false
  push .streamEnd (← place)

end InfraModule.Yaml.TokenM
