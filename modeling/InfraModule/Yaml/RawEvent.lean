import InfraModule.Yaml.Token

/-!
# Uninterpreted events

What the grammar of YAML makes of the tokens of a text: the starts and ends of documents and
collections, scalars, values that are missing, and references back to anchors. An event has one
place only.
-/

namespace InfraModule.Yaml

/-- What may stand before a value. -/
structure Properties where
  /-- The name by which the value can be referred to. -/
  anchor : Option String := none
  /-- The tag of the value. -/
  tag : Option String := none
  deriving DecidableEq, Inhabited

/-- What an event reports. -/
inductive RawEventKind where
  /-- Nothing that stands in the text. -/
  | nothing
  /-- The start of the text. -/
  | streamStart
  /-- The end of the text. -/
  | streamEnd
  /-- The start of a document. -/
  | documentStart
  /-- The end of a document. -/
  | documentEnd
  /-- A value that stands elsewhere. -/
  | alias (name : String)
  /-- A value that is missing in the text. -/
  | missing
  /-- A scalar. -/
  | scalar (style : ScalarStyle) (text : String) (properties : Properties)
  /-- The start of a sequence. -/
  | sequenceStart (properties : Properties)
  /-- The end of a sequence. -/
  | sequenceEnd
  /-- The start of a mapping. -/
  | mappingStart (properties : Properties)
  /-- The end of a mapping. -/
  | mappingEnd
  deriving DecidableEq, Inhabited

namespace RawEventKind

/-- The text of a scalar. A missing value has none. -/
def text? : RawEventKind → Option String
  | .scalar _ text _ => some text
  | .missing => some ""
  | _ => none

/-- What stands before a value. -/
def properties : RawEventKind → Properties
  | .scalar _ _ properties => properties
  | .sequenceStart properties => properties
  | .mappingStart properties => properties
  | _ => {}

end RawEventKind

/-- An event and its place. -/
structure RawEvent where
  /-- What the event reports. -/
  kind : RawEventKind
  /-- The place of the event. -/
  place : Place
  deriving DecidableEq, Inhabited

end InfraModule.Yaml
