import InfraModule.Yaml.Token.Version11

/-!
# The tokens of a text

The next character, with the one after it, tells what token comes next. Tokens are given out in
order, each as soon as no later sign can put anything in before it; how far the text has been read
at that moment is kept with the token.
-/

namespace InfraModule.Yaml

/-- A token that has been given out. -/
structure GivenToken extends PlacedToken where
  /-- How far the text had been read when the token was given out. -/
  horizon : Place
  deriving Inhabited

namespace TokenM

/-- Whether the colon that is next is the sign of a mapping. -/
def atValue : TokenM Bool := do
  let s ← get
  let c := s.cursor
  return c.endsWordAt 1 ||
    (s.flowLevel > 0 && ((c.peekAt? 1).any isFlow || c.place.index == s.adjacentValueAt))

/-- Finds the token that starts with a character which opens no line. -/
def findByCharacter (c : Char) : TokenM Unit := do
  let word := !(← cursor).endsWordAt 1
  let flow ← inFlow
  match c with
  | '[' => flowStart .flowSequenceStart
  | '\x7b' => flowStart .flowMappingStart
  | ']' => flowEnd .flowSequenceEnd
  | '\x7d' => flowEnd .flowMappingEnd
  | ',' => flowEntry
  | '-' => if word then plain else blockEntry
  | '?' => if word then plain else key
  | ':' => if ← atValue then value else plain
  | '*' => anchor .alias
  | '&' => anchor .anchor
  | '!' => tag
  | '|' => if flow then plain else blockScalar true
  | '>' => if flow then plain else blockScalar false
  | '\x27' => quoted true
  | '\x22' => quoted false
  | '%' => failure
  | '@' => failure
  | '\x60' => failure
  | _ => plain

/-- Finds the next token and adds what it starts and ends. -/
def find : TokenM Unit := do
  skipToToken
  dropStaleKeys
  unrollIndent (← place).column
  let c ← cursor
  match c.peek? with
  | none => streamEnd
  | some char =>
    if c.place.column = 0 && char == '%' then
      directive
    else if c.atMarker '-' then
      documentMarker .documentStart
    else if c.atMarker '.' then
      documentMarker .documentEnd
      discard <| skipGap true
      demandLineEnd
    else
      demand ((← get).indent ≤ c.place.column)
      findByCharacter char

/-- Whether a later colon may still put something in before the next token to be given out. -/
def mustFindMore : TokenM Bool := do
  if (← get).given = (← get).tokens.size then
    return true
  else
    dropStaleKeys
    let s ← get
    return s.keys.any fun key => key.possible && key.number == s.given

/-- Gives out tokens up to the end of the text. Each turn finds tokens or gives one out, and
`turns` limits their number. -/
def giveAll : Nat → Array GivenToken → TokenM (Array GivenToken)
  | 0, _ => failure
  | turns + 1, all => do
    if ← mustFindMore then
      match ← version with
      | .v11 => Version11.find
      | .v12 => find
      giveAll turns all
    else
      let s ← get
      let found ← s.tokens[s.given]?
      set { s with given := s.given + 1 }
      let all := all.push { found with horizon := s.cursor.place }
      if found.token = .streamEnd then return all
      else giveAll turns all

end TokenM

/-- The tokens of a well-formed text. Each character starts at most one token, before which at most
three others are put in or ended, and ends a level at most once. -/
def GivenToken.ofText (version : Version) (text : String) : Option (List GivenToken) :=
  let state : TokenState :=
    { cursor := .ofText version text, tokens := #[⟨.streamStart, {}⟩] }
  let turns := 8 * (text.length + 2)
  if text.toList.all (isAllowed version) then
    (TokenM.giveAll turns #[]).run' state |>.map Array.toList
  else none

end InfraModule.Yaml
