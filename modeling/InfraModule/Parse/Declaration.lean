import InfraModule.Parse.Value
import InfraModule.Schema.Dispatch

/-!
# Reading declarations

The first key of a declaration's mapping chooses its kind; each further key must be one of that
kind and is read as the schema table says. Every mistake is reported: a key that chooses no kind,
that the kind does not have or that occurred before, a mandatory key that is missing. Without a kind
or a keyword there is no declaration; with both there is one, however much else is wrong.

Declarations, lists of them and all other values of the table are read by one function on the shape
of the value, `valueWithin`, which recurses on the number of levels that may still be opened.
-/

namespace InfraModule.Parse

open ParseM

/-- A reader of the shapes in the schema table. -/
abbrev ValueReader := ValueKind → ParseM (Option NodeId)

/-! ## Entries -/

/-- A declaration whose kind is known and whose entries are being read. -/
structure Draft where
  /-- The kind that the first key chose. -/
  kind : Kind
  /-- The keyword's value. -/
  keyword : Option NodeId := none
  /-- The values of the other keys, in the order of the document. -/
  values : List (String × NodeId) := []
  /-- The keys read so far, those without a value included. -/
  seen : List String := []

/-- The mandatory keys that have not been read, sorted. -/
def Draft.missing (draft : Draft) : List String :=
  draft.kind.mandatoryKeys.filter (· ∉ draft.seen)

/-- The value of a key that belongs to the draft's kind. It gives up if that is the keyword and has
no value. -/
def property (value : ValueReader) (draft : Draft) (property : Property) :
    ParseM (Option (Option Draft)) := do
  let id ← value property.value
  let draft := { draft with seen := property.key :: draft.seen }
  if draft.kind.isKeyword property.key then
    match id with
    | some id => return some (some { draft with keyword := some id })
    | none => return none
  else
    return some (some { draft with values := draft.values ++ (id.map (property.key, ·)).toList })

/-- One entry of a declaration's mapping. It gives up if the first key chooses no kind. -/
def entry (type : DeclarationType) (value : ValueReader) (draft : Option Draft) :
    ParseM (Option (Option Draft)) := do
  let some key ← key | return some draft
  match draft <|> (type.resolveFirst key.text).map ({ kind := · }) with
  | none =>
    report s!"unexpected item keyword '{key.text}'" key.location
    skip
    return none
  | some draft =>
    match draft.kind.property? key.text with
    | none =>
      report s!"unexpected key '{key.text}'" key.location
      skip
      return some (some draft)
    | some known =>
      if known.key ∈ draft.seen then
        report s!"duplicate key '{key.text}'" key.location
        skip
        return some (some draft)
      else
        property value draft known

/-- Skips the entries up to the end of a mapping. -/
def skipEntries : ParseM Unit :=
  discard <| foldUntilClose .mapping
    (fun _ => do
      skip
      skip
      return some ()) ()

/-! ## One declaration -/

/-- Reports mandatory keys that are missing, if there are any. -/
def reportMissing (keys : List String) (location : Location) : ParseM Unit := do
  unless keys.isEmpty do
    report ("missing keys: " ++ ", ".intercalate keys) location

/-- The draft of a mapping without a single key. Only a kind without keyword has one. -/
def emptyDraft (type : DeclarationType) (start : Location) : ParseM (Option Draft) := do
  match type with
  | .concrete kind =>
    match kind.keyword with
    | none => return some { kind }
    | some _ =>
      reportMissing kind.mandatoryKeys start
      return none
  | .abstract _ =>
    report "expected a declaration keyword" start
    return none

/-- Binds keys of a declaration. -/
def bindAll (id : NodeId) (values : List (String × NodeId)) : ParseM Unit :=
  values.forM fun (key, value) => discard <| build (.onTree (.setProperty id key value))

/-- Gives a module that has no version the one chosen in the options. -/
def addDefaultVersion (draft : Draft) (id : NodeId) (location : Location) : ParseM Unit := do
  if draft.kind = .module ∧ "Version" ∉ draft.seen then
    let version ← add (.expression (.literal (.string (← read).options.defaultModuleVersion)))
      location
    bindAll id [("Version", version)]

/-- The declaration that a draft describes, which ends with its mapping. -/
def finish (draft : Draft) (start location : Location) : ParseM (Option NodeId) := do
  reportMissing draft.missing start
  match Declaration.new? draft.kind draft.keyword with
  | none => return none
  | some declaration =>
    let id ← add (.declaration declaration) location
    bindAll id draft.values
    addDefaultVersion draft id location
    return some id

/-- A declaration whose mapping has been opened. -/
def declarationBody (type : DeclarationType) (value : ValueReader) (start : Location) :
    ParseM (Option NodeId) := do
  match ← foldUntilClose .mapping (entry type value) none with
  | none =>
    skipEntries
    advance
    return none
  | some draft =>
    let location ← closeFrom start
    let draft ← match draft with
      | some draft => pure (some draft)
      | none => emptyDraft type start
    match draft with
    | some draft => finish draft start location
    | none => return none

/-! ## Lists of declarations -/

/-- Items of a list and the names that they took. -/
structure Items where
  /-- The items, in order. -/
  ids : List NodeId := []
  /-- The names of the items. -/
  names : List String := []

/-- The name that no two items of a list may share. -/
def uniqueName? (id : NodeId) : ParseM (Option String) := do
  let tree := (← get).build.tree
  if (← read).options.enforceUniqueNames ∧ tree.isItem id then
    return tree.declarationName? id
  else
    return none

/-- One element of a list of declarations. An element without a declaration is left out, and so is
an item whose name is taken. -/
def element (declaration : ParseM (Option NodeId)) (items : Items) : ParseM (Option Items) := do
  let some id ← declaration | return some items
  match ← uniqueName? id with
  | none => return some { items with ids := items.ids ++ [id] }
  | some name =>
    if name ∈ items.names then
      let location := ((← get).build.tree.location? id).getD default
      report s!"duplicate item name '{name}'" location
      return some items
    else
      return some { ids := items.ids ++ [id], names := name :: items.names }

/-- A list of declarations whose sequence has been opened, and its span. -/
def listBody (declaration : ParseM (Option NodeId)) (start : Location) :
    ParseM (List NodeId × Location) := do
  let items ← foldUntilClose .sequence (element declaration) {}
  return ((items.getD {}).ids, ← closeFrom start)

/-! ## All shapes -/

/-- A value of the schema table with at most `levels` containers and declarations nested in each
other. -/
def valueWithin (levels : Nat) : ValueReader
  | .string => string
  | .int => int
  | .bool => bool
  | .expression => expressionWithin levels
  | .condition => conditionWithin levels
  | .object => plain .mapping (expressionWithin levels)
  | .list => plain .sequence (expressionWithin levels)
  | .stringList => stringListWithin levels
  | .declaration type =>
    plain .mapping do
      let start ← here
      match levels with
      | 0 => tooDeep
      | levels + 1 => nested (declarationBody type (valueWithin levels) start)
  | .declarationList type =>
    plain .sequence do
      let start ← here
      match levels with
      | 0 => tooDeep
      | levels + 1 =>
        let (items, location) ← nested (listBody (valueWithin levels (.declaration type)) start)
        some <$> add (.collection items) location

/-- A value of the schema table. -/
def valueOf (kind : ValueKind) : ParseM (Option NodeId) := do
  valueWithin (← levels) kind

/-- A declaration of a type. -/
def declaration (type : DeclarationType) : ParseM (Option NodeId) :=
  valueOf (.declaration type)

/-- A list of declarations of a type. -/
def declarationList (type : DeclarationType) : ParseM (Option NodeId) :=
  valueOf (.declarationList type)

/-! ## The frame of a document -/

/-- Takes the start of the stream and of its first document. -/
def start : ParseM Unit := do
  expect .streamStart
  expect .documentStart

/-- Takes the end of the document and of the stream. -/
def finishDocument : ParseM Unit := do
  expect .documentEnd
  expect .streamEnd

end InfraModule.Parse
