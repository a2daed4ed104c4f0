import InfraModule.Yaml.Token

/-!
# Finding tokens

What is known while tokens are being found: the cursor, the tokens found so far, the indentation of
the open block collections, the open flow collections, and where a key may have started that only a
later colon will show to be one.

A flow collection suspends indentation. For each open flow collection, and for the block context
around them, one key may be pending; its token and the start of its mapping are put in before the
tokens that have been found since.
-/

namespace InfraModule.Yaml

/-- A place at which a key may have started. -/
structure PendingKey where
  /-- Whether what starts there may still be a key. -/
  possible : Bool := false
  /-- Whether what starts there can be nothing else. -/
  required : Bool := false
  /-- How many tokens come before it. -/
  number : Nat := 0
  /-- Where it starts. -/
  place : Place := {}
  deriving Inhabited

/-- An open level of indentation. -/
structure Indent where
  /-- The column of the level around it. -/
  outer : Int
  /-- Whether the level is that of a block collection, which has an end. -/
  isBlock : Bool

/-- What is known while tokens are being found. -/
structure TokenState where
  /-- What is left of the text. -/
  cursor : Cursor
  /-- The tokens found so far. -/
  tokens : Array PlacedToken := #[]
  /-- How many tokens have been given out. -/
  given : Nat := 0
  /-- Whether a key may start here. -/
  keyAllowed : Bool := true
  /-- The pending keys, that of the innermost flow collection first. -/
  keys : List PendingKey := [{}]
  /-- The column of the innermost level of indentation. -/
  indent : Int := -1
  /-- The open levels of indentation, the innermost first. -/
  indents : List Indent := []
  /-- How many flow collections are open. -/
  flowLevel : Nat := 0
  /-- The index at which a colon needs no blank after it. -/
  adjacentValueAt : Nat := 0
  /-- Whether a flow mapping has been opened by a sign of its own. -/
  flowMappingOpen : Bool := false
  /-- Whether a flow mapping of one pair is open. -/
  pairOpen : Bool := false

/-- Steps of finding tokens. They fail where the text is not well formed. -/
abbrev TokenM := StateT TokenState Option

namespace TokenM

/-! ## The cursor -/

/-- The cursor. -/
def cursor : TokenM Cursor :=
  return (← get).cursor

/-- The rules that the text follows. -/
def version : TokenM Version :=
  return (← cursor).version

/-- The place of the cursor. -/
def place : TokenM Place :=
  return (← cursor).place

/-- The next character. -/
def peek? : TokenM (Option Char) :=
  return (← cursor).peek?

/-- The characters that are left, as a bound on what can be done with them. -/
def rest : TokenM (List Char) :=
  return (← cursor).rest

/-- Moves the cursor. -/
def move (f : Cursor → Cursor) : TokenM Unit :=
  modify fun s => { s with cursor := f s.cursor }

/-- Passes a blank. -/
def skipBlank : TokenM Unit :=
  move Cursor.skipBlank

/-- Passes a character that is no blank. -/
def skipText : TokenM Unit :=
  move Cursor.skipText

/-- Passes the end of a line, if it is next. -/
def skipBreak : TokenM Unit :=
  move Cursor.skipBreak

/-- Passes the end of a line, if it is next, and adds to `breaks` what it stands for. -/
def readBreak (breaks : String) : TokenM String := do
  let c ← cursor
  if c.atBreak then
    skipBreak
    return breaks ++ (c.peek?.map fun char => (lineEnd char).toString).getD ""
  else
    return breaks

/-- Takes the characters of a class. -/
def takeWhile (p : Char → Bool) : TokenM String := do
  let mut text := ""
  for c in ← rest do
    unless p c do break
    text := text.push c
    skipText
  return text

/-- Passes what is left of the line. -/
def skipLine : TokenM Unit := do
  for _ in ← rest do
    if (← cursor).atBreak then break
    skipText

/-- Passes blanks. -/
def skipBlanks : TokenM Unit := do
  for c in ← rest do
    unless isBlank c do break
    skipBlank

/-- Fails unless `condition` holds. -/
def demand (condition : Bool) : TokenM Unit := do
  unless condition do failure

/-- Fails unless a line or the text ends here. -/
def demandLineEnd : TokenM Unit := do
  demand (← cursor).atLineEnd

/-! ## Tokens -/

/-- Adds a token after all others. -/
def push (token : Token) (place : Place) : TokenM Unit :=
  modify fun s => { s with tokens := s.tokens.push ⟨token, place⟩ }

/-- Puts a token in after the first `number` tokens. -/
def insert (number : Nat) (token : Token) (place : Place) : TokenM Unit :=
  modify fun s => { s with tokens := s.tokens.insertIdxIfInBounds number ⟨token, place⟩ }

/-! ## Flow collections -/

/-- Whether the cursor is inside a flow collection. -/
def inFlow : TokenM Bool :=
  return (← get).flowLevel > 0

/-- The greatest number of flow collections inside each other, if there is one. -/
def maxFlowLevel? : Version → Option Nat
  | .v11 => none
  | .v12 => some 255

/-- Enters a flow collection, in which no key is pending yet. -/
def enterFlow : TokenM Unit := do
  let limit := maxFlowLevel? (← version)
  demand (limit.all ((← get).flowLevel < ·))
  modify fun s => { s with flowLevel := s.flowLevel + 1, keys := {} :: s.keys }

/-- Leaves a flow collection, if one is open. -/
def leaveFlow : TokenM Unit := do
  if ← inFlow then
    modify fun s => { s with flowLevel := s.flowLevel - 1, keys := s.keys.tail }

/-- Ends a flow mapping of one pair, if one is open. -/
def closePair : TokenM Unit := do
  if (← get).pairOpen then
    modify fun s => { s with pairOpen := false, flowMappingOpen := false }
    push .flowMappingEnd (← place)

/-! ## Pending keys -/

/-- Says whether a key may start here. -/
def allowKey (allowed : Bool) : TokenM Unit :=
  modify fun s => { s with keyAllowed := allowed }

/-- The pending key of the innermost flow collection, or of the block context. -/
def pendingKey : TokenM PendingKey :=
  return (← get).keys.headD {}

/-- Replaces the innermost pending key. -/
def setPendingKey (key : PendingKey) : TokenM Unit :=
  modify fun s => { s with keys := key :: s.keys.tail }

/-- Gives up a pending key; one that can be nothing else must not be given up. -/
def dropKey (key : PendingKey) : TokenM PendingKey := do
  demand !(key.possible && key.required)
  return { key with possible := false }

/-- Gives up the innermost pending key. -/
def removeKey : TokenM Unit := do
  setPendingKey (← dropKey (← pendingKey))

/-- Gives up all pending keys that `p` selects. -/
def dropKeys (p : PendingKey → Bool) : TokenM Unit := do
  let keys ← (← get).keys.mapM fun key => if p key then dropKey key else pure key
  modify fun s => { s with keys }

/-- How far the colon may be from the start of its key. -/
def maxKeyLength : Nat := 1024

/-- Gives up the pending keys that a colon would now come too late for: a key must be on one line
and not too long, unless it is free of that in a flow collection. -/
def dropStaleKeys : TokenM Unit := do
  let s ← get
  let here := s.cursor.place
  let free := s.cursor.version.freesFlowKeys && s.flowLevel > 0
  dropKeys fun key =>
    key.possible && !free &&
      (key.place.line < here.line || key.place.index + maxKeyLength < here.index)

/-- Notes that a key may start here, if one is allowed to. It is required where the line starts an
entry of a block mapping. -/
def saveKey : TokenM Unit := do
  let s ← get
  if s.keyAllowed then
    let here := s.cursor.place
    let required := s.flowLevel == 0 && s.indent == (here.column : Int) &&
      s.indents.head?.any Indent.isBlock
    removeKey
    setPendingKey { possible := true, required, number := s.tokens.size, place := here }

/-- Starts a token that may be a key and after which none can start. -/
def startWord : TokenM Unit := do
  saveKey
  allowKey false

/-! ## Indentation -/

/-- Opens a block collection at a column that is further in than the innermost level. Its start is
put in after the first `number` tokens, or after all of them. -/
def rollIndent (column : Nat) (number : Option Nat) (token : Token) (place : Place) :
    TokenM Unit := do
  unless ← inFlow do
    if (← get).indent ≤ column then
      modify fun s => match s.indents with
        | level :: indents => if level.isBlock then s else { s with indent := level.outer, indents }
        | [] => s
    if (← get).indent < column then
      modify fun s =>
        { s with indents := { outer := s.indent, isBlock := true } :: s.indents, indent := column }
      match number with
      | some number => insert number token place
      | none => push token place

/-- Ends the block collections that are further in than a column. -/
def unrollIndent (column : Int) : TokenM Unit := do
  unless ← inFlow do
    for level in (← get).indents do
      if (← get).indent ≤ column then break
      modify fun s => { s with indent := level.outer, indents := s.indents.tail }
      if level.isBlock then
        push .blockEnd (← place)

/-- Opens a level without an end of its own, one column further in than a block collection. -/
def rollOneColumn : TokenM Unit := do
  unless ← inFlow do
    modify fun s =>
      if s.indents.head?.any Indent.isBlock then
        { s with
          indents := { outer := s.indent, isBlock := false } :: s.indents
          indent := s.indent + 1 }
      else s

/-- Leaves the innermost levels that have no end of their own. -/
def leaveOpenLevels : TokenM Unit := do
  for level in (← get).indents do
    if level.isBlock then break
    modify fun s => { s with indent := level.outer, indents := s.indents.tail }

/-! ## Blanks and comments -/

/-- What was passed between two tokens of a line. -/
structure Gap where
  /-- Whether there was a tab. -/
  tab : Bool := false
  /-- Whether there was a space. -/
  space : Bool := false

/-- Passes blanks and a comment up to the next token or the end of the line. -/
def skipGap (tabs : Bool) : TokenM Gap := do
  let mut gap : Gap := {}
  for c in ← rest do
    if c == ' ' then
      skipBlank
      gap := { gap with space := true }
    else if c == '\t' && tabs then
      skipBlank
      gap := { gap with tab := true }
    else
      if c == '#' then
        demand (gap.tab || gap.space || !(← version).spacesComments)
        skipLine
      break
  return gap

/-- Passes blanks, comments and line ends up to the next token. A tab must not indent a block. -/
def skipToToken : TokenM Unit := do
  for _ in ← rest do
    let s ← get
    let c := s.cursor
    if c.isAt '\t' && !s.indents.isEmpty && c.leading && (c.place.column : Int) < s.indent then
      discard <| skipGap true
      demandLineEnd
    else if c.atBlank then
      skipBlank
    else if c.atBreak then
      skipBreak
      unless ← inFlow do allowKey true
    else if c.isAt '#' then
      skipLine
    else
      break

/-- Passes spaces, comments and line ends, of which there must be a space or a line end. -/
def skipRequiredSpace : TokenM Unit := do
  let mut found := false
  for _ in ← rest do
    let c ← cursor
    if c.isAt ' ' then
      skipBlank
      found := true
    else if c.atBreak then
      skipBreak
      unless ← inFlow do allowKey true
      found := true
    else if c.isAt '#' then
      skipLine
    else
      break
  demand found

end TokenM

end InfraModule.Yaml
