import InfraModule.Source

/-!
# Structural events

A document as a flat sequence of events: scalars, and the starts and ends of mappings, sequences,
documents and the stream, each with its span.
-/

namespace InfraModule

/-- What an event reports. Scalars, mappings and sequences may carry a tag. -/
inductive EventKind where
  | streamStart
  | streamEnd
  | documentStart
  | documentEnd
  | mappingStart (tag : Option String)
  | mappingEnd
  | sequenceStart (tag : Option String)
  | sequenceEnd
  | scalar (value : String) (tag : Option String)
  deriving DecidableEq, Inhabited

/-- The part that an event plays in the nesting of a document. -/
inductive EventRole where
  /-- A value of its own. -/
  | leaf
  /-- The start of a container. -/
  | opening
  /-- The end of a container. -/
  | closing
  /-- The start or end of a document or of the stream. -/
  | framing
  deriving DecidableEq

namespace EventKind

/-- The kind of event in words. -/
def name : EventKind → String
  | .streamStart => "stream start"
  | .streamEnd => "stream end"
  | .documentStart => "document start"
  | .documentEnd => "document end"
  | .mappingStart _ => "map"
  | .mappingEnd => "map end"
  | .sequenceStart _ => "sequence"
  | .sequenceEnd => "sequence end"
  | .scalar .. => "scalar"

/-- The tag of a scalar, mapping or sequence. -/
def tag : EventKind → Option String
  | .mappingStart tag => tag
  | .sequenceStart tag => tag
  | .scalar _ tag => tag
  | _ => none

/-- The part that the event plays in the nesting of a document. -/
def role : EventKind → EventRole
  | .scalar .. => .leaf
  | .mappingStart _ => .opening
  | .sequenceStart _ => .opening
  | .mappingEnd => .closing
  | .sequenceEnd => .closing
  | .streamStart => .framing
  | .streamEnd => .framing
  | .documentStart => .framing
  | .documentEnd => .framing

end EventKind

/-- An event and its span. -/
structure Event where
  /-- What the event reports. -/
  kind : EventKind
  /-- Where the event starts. -/
  start : Mark
  /-- Where the event stops; for the start of a container, where the container's end starts. -/
  stop : Mark
  deriving DecidableEq, Inhabited

/-- The span of an event in a file. -/
def Event.location (e : Event) (file : String) : Location :=
  ⟨file, e.start, e.stop⟩

end InfraModule
