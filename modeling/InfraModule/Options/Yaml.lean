import InfraModule.Error
import InfraModule.Options
import InfraModule.Text.Unsigned
import InfraModule.Yaml.RawEvent.OfTokens

/-!
# Options as a YAML document

Options are written as a mapping in which each of them may be a key, at most once; other keys are
passed over with their values. A document without content stands for the options as they are by
default. The text follows version 1.1.

A reference back to an anchor is read as the value that the anchor marks. Anchors go by number: one
gets as its number how many names are known when it is met, its own not counted as new if it is
known. Where two get the same number, references to either mean the value of the later one.
-/

namespace InfraModule.Options

open Yaml

/-! ## Anchors -/

/-- The anchors of a document, the last one first. Of a collection only the start is kept. -/
structure Anchors where
  /-- How many names there are. -/
  count : Nat := 0
  /-- The number of each name. -/
  numbers : List (String × Nat) := []
  /-- The value of each number. -/
  values : List (Nat × RawEventKind) := []

/-- The anchors with that of a value, if it has one. -/
def Anchors.note (anchors : Anchors) (value : RawEventKind) : Anchors :=
  match value.properties.anchor with
  | some name =>
    let known := (anchors.numbers.lookup name).isSome
    { count := if known then anchors.count else anchors.count + 1
      numbers := (name, anchors.count) :: anchors.numbers
      values := (anchors.count, value) :: anchors.values }
  | none => anchors

/-- A part of a value, which may be a reference to a number. -/
structure Part where
  /-- The part as it stands in the text. -/
  event : RawEventKind
  /-- The number that it refers to. -/
  reference : Option Nat

/-- The parts of a document, and all its anchors. -/
def Part.ofEvents (anchors : Anchors) : List RawEventKind → List Part × Anchors
  | [] => ([], anchors)
  | e :: events =>
    let reference := match e with
      | .alias name => anchors.numbers.lookup name
      | _ => none
    let (parts, all) := Part.ofEvents (anchors.note e) events
    (⟨e, reference⟩ :: parts, all)

/-- What a part means. -/
def Part.meaning (anchors : Anchors) (part : Part) : RawEventKind :=
  match part.reference with
  | some number => (anchors.values.lookup number).getD part.event
  | none => part.event

/-! ## The entries of a mapping -/

/-- How many collections are open after a part of a value, `depth` having been open before. -/
def depthAfter (depth : Nat) : RawEventKind → Nat
  | .sequenceStart _ => depth + 1
  | .mappingStart _ => depth + 1
  | .sequenceEnd => depth - 1
  | .mappingEnd => depth - 1
  | _ => depth

/-- The entries of a mapping that has been opened, up to its end, and what follows it. Inside a
value `depth` counts the open collections, and `key` is a key whose value is still to come. Keys
must be scalars; of a collection only the start is kept. -/
def entries (anchors : Anchors) (depth : Nat) (key : Option String) :
    List Part → Option (List (String × RawEventKind) × List Part)
  | [] => none
  | part :: parts =>
    match depth, key with
    | depth + 1, key => entries anchors (depthAfter (depth + 1) part.event) key parts
    | 0, some key => do
      let (found, rest) ← entries anchors (depthAfter 0 part.event) none parts
      return ((key, part.meaning anchors) :: found, rest)
    | 0, none =>
      if part.event = .mappingEnd then some ([], parts)
      else do entries anchors 0 (some (← (part.meaning anchors).text?)) parts

/-! ## Values -/

/-- The text of a scalar that is not quoted: a plain one, or a literal block with the given tag. -/
def unquotedText? (tag : String) : RawEventKind → Option String
  | .scalar .plain text _ => some text
  | .scalar .literal text properties => if properties.tag = some tag then some text else none
  | _ => none

/-- The number that a value denotes. -/
def number? (value : RawEventKind) : Option Nat :=
  (unquotedText? "tag:yaml.org,2002:int" value).bind Text.Unsigned.read?

/-- The truth value that a value denotes. Its name is written in small letters, with a capital, or
in capitals. -/
def truth? (value : RawEventKind) : Option Bool :=
  match unquotedText? "tag:yaml.org,2002:bool" value with
  | some name =>
    if name ∈ ["true", "True", "TRUE"] then some true
    else if name ∈ ["false", "False", "FALSE"] then some false
    else none
  | none => none

/-- The value of a key that may occur once at most, and `default` if it does not occur. -/
def entry {α : Type} (key : String) (read : RawEventKind → Option α) (default : α)
    (entries : List (String × RawEventKind)) : Option α :=
  match entries.filter (·.1 == key) with
  | [] => some default
  | [(_, value)] => read value
  | _ => none

/-- The options that a mapping describes. -/
def ofEntries (entries : List (String × RawEventKind)) : Option Options := do
  let base : Options := {}
  return {
    defaultModuleVersion :=
      ← entry "default_module_version" RawEventKind.text? base.defaultModuleVersion entries
    maxDepth := ← entry "max_depth" number? base.maxDepth entries
    linkReferences := ← entry "link_references" truth? base.linkReferences entries
    enforceUniqueNames := ← entry "enforce_unique_names" truth? base.enforceUniqueNames entries }

/-! ## Documents -/

/-- Whether a value has no content. -/
def isEmptyValue : RawEventKind → Bool
  | .missing => true
  | .scalar .plain "" _ => true
  | _ => false

/-- The options that the events of a text describe. -/
def ofEvents : List RawEventKind → Option Options
  | [.streamStart, .streamEnd] => some {}
  | .streamStart :: .documentStart :: .mappingStart properties :: events => do
    let (parts, anchors) := Part.ofEvents (Anchors.note {} (.mappingStart properties)) events
    let (found, rest) ← entries anchors 0 none parts
    if rest.map Part.event = [.documentEnd, .streamEnd] then ofEntries found else none
  | [.streamStart, .documentStart, value, .documentEnd, .streamEnd] =>
    if isEmptyValue value then some {} else none
  | _ => none

/-- The options that a text describes. -/
def ofText (text : String) : Except ParseError Options :=
  match (RawEvent.ofText .v11 text).bind fun raw => ofEvents (raw.map RawEvent.kind) with
  | some options => .ok options
  | none => .error .invalidOptions

end InfraModule.Options
