import InfraModule.Yaml.RawEvent
import InfraModule.Yaml.Token.OfText

/-!
# The grammar of events

The grammar as an automaton: what it expects next, what it expects once the innermost open
collection has ended, and the tokens that are left. Each turn takes tokens and gives one event.

Tags are written in short with a handle, which a directive at the start of the document may
declare. A reference must follow the anchor that it refers to in the same document.
-/

namespace InfraModule.Yaml

/-- What the grammar may expect next. -/
inductive Expectation where
  /-- The start of the text. -/
  | streamStart
  /-- A document, which needs a marker unless `bare`, or the end of the text. -/
  | documentStart (bare : Bool)
  /-- The value of a document after its marker. -/
  | documentContent
  /-- The value of a document without a marker. -/
  | blockNode
  /-- The end of a document. -/
  | documentEnd
  /-- An entry or the end of a block sequence. -/
  | blockEntry
  /-- An entry or the end of a sequence that is not indented more than its key. -/
  | indentlessEntry
  /-- A key or the end of a block mapping. -/
  | blockKey
  /-- The value of a key of a block mapping. -/
  | blockValue
  /-- An entry or the end of a flow sequence. -/
  | flowEntry (first : Bool)
  /-- The key of a mapping of one pair. -/
  | pairKey
  /-- The value of a mapping of one pair. -/
  | pairValue
  /-- The end of a mapping of one pair. -/
  | pairEnd
  /-- A key or the end of a flow mapping. -/
  | flowKey (first : Bool)
  /-- The value of a key of a flow mapping. -/
  | flowValue
  /-- The value of a key of a flow mapping that cannot have one. -/
  | noFlowValue
  deriving DecidableEq, Inhabited

/-- What is known while events are being found. -/
structure GrammarState where
  /-- The rules that the text follows. -/
  version : Version
  /-- The tokens left. -/
  tokens : List GivenToken
  /-- How far the text had been read when the last token looked at was given out. -/
  horizon : Place := {}
  /-- What is expected next. -/
  expected : Expectation := .streamStart
  /-- What is expected once the open collections have ended, the innermost first. -/
  later : List Expectation := []
  /-- The anchors of the document. -/
  anchors : List String := []
  /-- The starts of tags that handles stand for. -/
  handles : List (String × String) := []

/-- Steps of finding events. They fail where the text is not well formed. -/
abbrev GrammarM := StateT GrammarState Option

namespace GrammarM

/-! ## Tokens and expectations -/

/-- The next token. -/
def peek : GrammarM PlacedToken := do
  let found ← (← get).tokens.head?
  modify fun s => { s with horizon := found.horizon }
  return found.toPlacedToken

/-- Passes a token. -/
def skip : GrammarM Unit :=
  modify fun s => { s with tokens := s.tokens.tail }

/-- Says what is expected next. -/
def expect (expected : Expectation) : GrammarM Unit :=
  modify fun s => { s with expected }

/-- Says what is expected after a value. -/
def expectLater (expected : Expectation) : GrammarM Unit :=
  modify fun s => { s with later := expected :: s.later }

/-- Goes on with what is expected after the value that has ended. -/
def resume : GrammarM Unit := do
  match (← get).later with
  | expected :: later => modify fun s => { s with expected, later }
  | [] => failure

/-- Gives an event. -/
def give (kind : RawEventKind) (place : Place) : GrammarM RawEvent :=
  return ⟨kind, place⟩

/-- Passes the token of an end, and gives the event. -/
def giveEnd (kind : RawEventKind) (place : Place) : GrammarM RawEvent := do
  resume
  skip
  give kind place

/-- Gives a missing value, after which `expected` comes. -/
def giveMissing (expected : Expectation) (place : Place) : GrammarM RawEvent := do
  expect expected
  give .missing place

/-- Gives a key that is missing before its colon. -/
def giveNoKey (expected : Expectation) (place : Place) : GrammarM RawEvent := do
  unless (← get).version.allowsNoKey do failure
  giveMissing expected place

/-! ## Values -/

/-- The start of the tags of the handle `!!`, unless it is declared. -/
def standardTags : String := "tag:yaml.org,2002:"

/-- The tag that a handle and a suffix stand for. A handle between two `!` must be declared. -/
def resolveTag (handle suffix : String) : GrammarM String := do
  match (← get).handles.lookup handle with
  | some start => return start ++ suffix
  | none =>
    if handle == "!!" then return standardTags ++ suffix
    else if handle.length ≥ 2 && handle.startsWith "!" && handle.endsWith "!" then failure
    else return handle ++ suffix

/-- Takes an anchor, if it is next. -/
def readAnchor : GrammarM (Option String) := do
  match (← peek).token with
  | .anchor name =>
    skip
    modify fun s => { s with anchors := name :: s.anchors }
    return some name
  | _ => return none

/-- Takes a tag, if it is next. -/
def readTag : GrammarM (Option String) := do
  match (← peek).token with
  | .tag handle suffix =>
    skip
    some <$> resolveTag handle suffix
  | _ => return none

/-- Takes what stands before a value: an anchor and a tag, in either order. -/
def readProperties : GrammarM Properties := do
  match ← readAnchor with
  | some anchor => return { anchor := some anchor, tag := ← readTag }
  | none =>
    match ← readTag with
    | some tag => return { anchor := ← readAnchor, tag := some tag }
    | none => return {}

/-- A value. Block collections are allowed where `block` says so, and sequences that are not
indented where `indentless` does. A missing value must have a tag or an anchor. -/
def node (block indentless : Bool) : GrammarM RawEvent := do
  if let .alias name := (← peek).token then
    let place := (← peek).place
    skip
    resume
    unless (← get).anchors.contains name do failure
    give (.alias name) place
  else
    let properties ← readProperties
    let ⟨token, place⟩ ← peek
    match token, block, indentless with
    | .blockEntry, _, true =>
      expect .indentlessEntry
      give (.sequenceStart properties) place
    | .scalar style text, _, _ => giveEnd (.scalar style text properties) place
    | .flowSequenceStart, _, _ =>
      expect (.flowEntry true)
      skip
      give (.sequenceStart properties) place
    | .flowMappingStart, _, _ =>
      expect (.flowKey true)
      skip
      give (.mappingStart properties) place
    | .blockSequenceStart, true, _ =>
      expect .blockEntry
      skip
      give (.sequenceStart properties) place
    | .blockMappingStart, true, _ =>
      expect .blockKey
      skip
      give (.mappingStart properties) place
    | _, _, _ =>
      if properties = {} then failure
      resume
      give (.scalar .plain "" properties) place

/-! ## Documents -/

/-- Notes the handle that a directive declares. In version 1.2 it replaces those declared before; in
version 1.1 it must be a new one. -/
def declareHandle (handle start : String) : GrammarM Unit := do
  let s ← get
  match s.version with
  | .v11 =>
    if (s.handles.lookup handle).isSome then failure
    set { s with handles := (handle, start) :: s.handles }
  | .v12 => set { s with handles := [(handle, start)] }

/-- Takes the directives of a document. In version 1.2 a later version directive withdraws the
handles that are declared before it. -/
def readDirectives (seenVersion : Bool) : List GivenToken → GrammarM Unit
  | [] => return ()
  | found :: tokens => do
    match found.token with
    | .versionDirective =>
      if seenVersion then failure
      if (← get).version == .v12 then
        modify fun s => { s with handles := [] }
      skip
      readDirectives true tokens
    | .tagDirective handle start =>
      declareHandle handle start
      skip
      readDirectives seenVersion tokens
    | _ => return ()

/-- Passes the markers of ended documents. -/
def skipDocumentEnds : List GivenToken → GrammarM Unit
  | [] => return ()
  | found :: tokens => do
    if found.token = .documentEnd then
      skip
      skipDocumentEnds tokens

/-- The start of a document with a marker, which directives may precede. -/
def markedDocument : GrammarM RawEvent := do
  readDirectives false (← get).tokens
  let ⟨token, place⟩ ← peek
  unless token = .documentStart do failure
  skip
  expectLater .documentEnd
  expect .documentContent
  give .documentStart place

/-- The start of a document, or the end of the text. In version 1.1 no marker of an end may come
before a document without a marker. -/
def documentStart (bare : Bool) : GrammarM RawEvent := do
  let s ← get
  unless s.version == .v11 && bare do
    skipDocumentEnds s.tokens
  modify fun s => { s with anchors := [] }
  let ⟨token, place⟩ ← peek
  match token, bare with
  | .streamEnd, _ =>
    skip
    give .streamEnd place
  | .versionDirective, _ => markedDocument
  | .tagDirective .., _ => markedDocument
  | .documentStart, _ => markedDocument
  | _, false => markedDocument
  | _, true =>
    expectLater .documentEnd
    expect .blockNode
    give .documentStart place

/-- The value of a document after its marker, which may be missing. -/
def documentContent : GrammarM RawEvent := do
  let ⟨token, place⟩ ← peek
  let missing : GrammarM RawEvent := do
    resume
    give .missing place
  match token with
  | .versionDirective => missing
  | .tagDirective .. => missing
  | .documentStart => missing
  | .documentEnd => missing
  | .streamEnd => missing
  | _ => node true false

/-- The end of a document. Without a marker of its own no directive may follow, and the next
document needs a marker, as it always does in version 1.1. -/
def documentEnd : GrammarM RawEvent := do
  let ⟨token, place⟩ ← peek
  modify fun s => { s with handles := [] }
  match token with
  | .documentEnd =>
    skip
    expect (.documentStart ((← get).version == .v12))
    give .documentEnd place
  | .versionDirective => failure
  | .tagDirective .. => failure
  | _ =>
    expect (.documentStart false)
    give .documentEnd place

/-! ## Block collections -/

/-- An entry or the end of a block sequence. -/
def blockEntry : GrammarM RawEvent := do
  let ⟨token, place⟩ ← peek
  match token with
  | .blockEnd => giveEnd .sequenceEnd place
  | .blockEntry =>
    skip
    let ⟨token, place⟩ ← peek
    if token = .blockEntry ∨ token = .blockEnd then
      giveMissing .blockEntry place
    else
      expectLater .blockEntry
      node true false
  | _ => failure

/-- An entry or the end of a sequence that is not indented more than its key. -/
def indentlessEntry : GrammarM RawEvent := do
  let ⟨token, place⟩ ← peek
  match token with
  | .blockEntry =>
    skip
    let ⟨token, place⟩ ← peek
    if token = .blockEntry ∨ token = .key ∨ token = .value ∨ token = .blockEnd then
      giveMissing .indentlessEntry place
    else
      expectLater .indentlessEntry
      node true false
  | _ =>
    resume
    give .sequenceEnd place

/-- The key or value of a block mapping whose sign has been passed. -/
def blockPart (expected : Expectation) : GrammarM RawEvent := do
  let ⟨token, place⟩ ← peek
  if token = .key ∨ token = .value ∨ token = .blockEnd then
    giveMissing expected place
  else
    expectLater expected
    node true true

/-- A key or the end of a block mapping. -/
def blockKey : GrammarM RawEvent := do
  let ⟨token, place⟩ ← peek
  match token with
  | .key =>
    skip
    blockPart .blockValue
  | .value => giveNoKey .blockValue place
  | .blockEnd => giveEnd .mappingEnd place
  | _ => failure

/-- The value of a key of a block mapping. -/
def blockValue : GrammarM RawEvent := do
  let ⟨token, place⟩ ← peek
  match token with
  | .value =>
    skip
    blockPart .blockKey
  | _ => giveMissing .blockKey place

/-! ## Flow collections -/

/-- Passes the comma before all entries of a flow collection but the first. -/
def skipComma (first : Bool) : GrammarM Unit := do
  unless first do
    unless (← peek).token = .flowEntry do failure
    skip

/-- An entry or the end of a flow sequence. -/
def flowEntry (first : Bool) : GrammarM RawEvent := do
  let ⟨token, place⟩ ← peek
  if token = .flowSequenceEnd then
    giveEnd .sequenceEnd place
  else
    skipComma first
    let ⟨token, place⟩ ← peek
    match token with
    | .flowSequenceEnd => giveEnd .sequenceEnd place
    | .key =>
      skip
      expect .pairKey
      give (.mappingStart {}) place
    | _ =>
      expectLater (.flowEntry false)
      node false false

/-- The key of a mapping of one pair. Where it is missing, the sign that follows counts as its
end. -/
def pairKey : GrammarM RawEvent := do
  let ⟨token, place⟩ ← peek
  if token = .value ∨ token = .flowEntry ∨ token = .flowSequenceEnd then
    skip
    giveMissing .pairValue place
  else
    expectLater .pairValue
    node false false

/-- The value of a mapping of one pair. -/
def pairValue : GrammarM RawEvent := do
  let ⟨token, place⟩ ← peek
  if token = .value then
    skip
    let ⟨token, place⟩ ← peek
    if token = .flowEntry ∨ token = .flowSequenceEnd then
      giveMissing .pairEnd place
    else
      expectLater .pairEnd
      node false false
  else
    giveMissing .pairEnd place

/-- The end of a mapping of one pair. -/
def pairEnd : GrammarM RawEvent := do
  expect (.flowEntry false)
  give .mappingEnd (← get).horizon

/-- A key or the end of a flow mapping. After a last comma the end has the place of the comma. -/
def flowKey (first : Bool) : GrammarM RawEvent := do
  let ⟨token, start⟩ ← peek
  if token = .flowMappingEnd then
    giveEnd .mappingEnd start
  else
    skipComma first
    let ⟨token, place⟩ ← peek
    match token with
    | .key =>
      skip
      let ⟨token, place⟩ ← peek
      if token = .value ∨ token = .flowEntry ∨ token = .flowMappingEnd then
        giveMissing .flowValue place
      else
        expectLater .flowValue
        node false false
    | .value => giveNoKey .flowValue place
    | .flowMappingEnd => giveEnd .mappingEnd start
    | _ =>
      expectLater .noFlowValue
      node false false

/-- The value of a key of a flow mapping. One that is missing after its colon has the place of the
colon. -/
def flowValue : GrammarM RawEvent := do
  let ⟨token, place⟩ ← peek
  if token = .value then
    skip
    let next := (← peek).token
    if next = .flowEntry ∨ next = .flowMappingEnd then
      giveMissing (.flowKey false) place
    else
      expectLater (.flowKey false)
      node false false
  else
    giveMissing (.flowKey false) place

/-! ## The automaton -/

/-- One turn of the automaton. -/
def next : GrammarM RawEvent := do
  match (← get).expected with
  | .streamStart =>
    let ⟨token, place⟩ ← peek
    unless token = .streamStart do failure
    skip
    expect (.documentStart true)
    give .streamStart place
  | .documentStart bare => documentStart bare
  | .documentContent => documentContent
  | .blockNode => node true false
  | .documentEnd => documentEnd
  | .blockEntry => blockEntry
  | .indentlessEntry => indentlessEntry
  | .blockKey => blockKey
  | .blockValue => blockValue
  | .flowEntry first => flowEntry first
  | .pairKey => pairKey
  | .pairValue => pairValue
  | .pairEnd => pairEnd
  | .flowKey first => flowKey first
  | .flowValue => flowValue
  | .noFlowValue => giveMissing (.flowKey false) (← peek).place

/-- The events up to the end of the text, in at most `turns` turns. -/
def giveAll : Nat → Array RawEvent → GrammarM (Array RawEvent)
  | 0, _ => failure
  | turns + 1, all => do
    let e ← next
    let all := all.push e
    if e.kind = .streamEnd then return all
    else giveAll turns all

end GrammarM

/-- The events that tokens form. No more than three turns in a row take no token. -/
def RawEvent.ofTokens (version : Version) (tokens : List GivenToken) : Option (List RawEvent) :=
  let turns := 4 * (tokens.length + 1)
  (GrammarM.giveAll turns #[]).run' { version, tokens } |>.map Array.toList

/-- The events of a text that is well formed by the rules of a version. -/
def RawEvent.ofText (version : Version) (text : String) : Option (List RawEvent) :=
  (GivenToken.ofText version text).bind (RawEvent.ofTokens version)

end InfraModule.Yaml
