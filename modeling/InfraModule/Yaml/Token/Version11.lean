import InfraModule.Yaml.Token.Block
import InfraModule.Yaml.Token.Indicator
import InfraModule.Yaml.Token.Plain
import InfraModule.Yaml.Token.Quoted
import InfraModule.Yaml.Token.Tag

/-!
# The tokens of version 1.1

What version 1.1 does in a way of its own: the gaps between tokens, the signs of sequences and
mappings, and the choice of the next token by its first character. Tabs count as blanks wherever no
key may start. Inside a flow collection a question mark or a colon is a sign even if no blank
follows.
-/

namespace InfraModule.Yaml.TokenM.Version11

/-- Passes blanks, comments and line ends up to the next token. Each line may start with a byte
order mark. -/
def skipToToken : TokenM Unit := do
  for _ in ← rest do
    let s ← get
    let c := s.cursor
    let tabs := s.flowLevel > 0 || !s.keyAllowed
    if (c.isAt '\ufeff' && c.place.column == 0) || c.isAt ' ' || (c.isAt '\t' && tabs) then
      skipBlank
    else if c.atBreak then
      skipBreak
      unless ← inFlow do allowKey true
    else if c.isAt '#' then
      skipLine
    else
      break

/-! ## Signs -/

/-- Opens a block collection by a sign, which must stand where a key may start. -/
def openBlock (token : Token) : TokenM Unit := do
  unless ← inFlow do
    demand (← get).keyAllowed
    let here ← place
    rollIndent here.column none token here

/-- Takes the dash of a sequence entry. -/
def blockEntry : TokenM Unit := do
  openBlock .blockSequenceStart
  removeKey
  allowKey true
  push .blockEntry (← place)
  skipText

/-- Takes the question mark of a key. -/
def key : TokenM Unit := do
  openBlock .blockMappingStart
  removeKey
  allowKey !(← inFlow)
  push .key (← place)
  skipText

/-- Takes the colon of a mapping. -/
def value : TokenM Unit := do
  let pending ← pendingKey
  if pending.possible then
    insert pending.number .key pending.place
    rollIndent pending.place.column (some pending.number) .blockMappingStart pending.place
    setPendingKey { pending with possible := false }
    allowKey false
  else
    openBlock .blockMappingStart
    allowKey !(← inFlow)
  push .value (← place)
  skipText

/-! ## The next token -/

/-- Finds the token that starts with a character which opens no line. -/
def findByCharacter (c : Char) : TokenM Unit := do
  let word := !(← cursor).endsWordAt 1
  let flow ← inFlow
  match c with
  | '[' => flowStart .flowSequenceStart
  | '\x7b' => flowStart .flowMappingStart
  | ']' => flowEnd .flowSequenceEnd
  | '\x7d' => flowEnd .flowMappingEnd
  | ',' => flowEntry
  | '-' => if word then plain else blockEntry
  | '?' => if word && !flow then plain else key
  | ':' => if word && !flow then plain else value
  | '*' => anchor .alias
  | '&' => anchor .anchor
  | '!' => tag
  | '|' => if flow then failure else blockScalar true
  | '>' => if flow then failure else blockScalar false
  | '\x27' => quoted true
  | '\x22' => quoted false
  | '\t' => failure
  | '%' => failure
  | '@' => failure
  | '\x60' => failure
  | _ => plain

/-- Finds the next token and adds what it starts and ends. -/
def find : TokenM Unit := do
  skipToToken
  dropStaleKeys
  unrollIndent (← place).column
  let c ← cursor
  match c.peek? with
  | none => streamEnd
  | some char =>
    if c.place.column = 0 && char == '%' then directive
    else if c.atMarker '-' then documentMarker .documentStart
    else if c.atMarker '.' then documentMarker .documentEnd
    else findByCharacter char

end InfraModule.Yaml.TokenM.Version11
