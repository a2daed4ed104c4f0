import InfraModule.Source

/-!
# Uninterpreted values

A value as it is read from a document, before its tags are given a meaning: a scalar, a sequence, or
a mapping in which keys may occur more than once. Every value has its span and may have a tag.
-/

namespace InfraModule

/-- A value whose tag has not been interpreted. -/
inductive RawValue where
  /-- A scalar. -/
  | scalar (tag : Option String) (location : Location) (text : String)
  /-- A sequence. -/
  | sequence (tag : Option String) (location : Location) (items : List RawValue)
  /-- A mapping, repeated keys included. -/
  | mapping (tag : Option String) (location : Location) (entries : List (Key × RawValue))
  deriving Inhabited

namespace RawValue

/-- The tag of the value. -/
def tag : RawValue → Option String
  | .scalar tag .. => tag
  | .sequence tag .. => tag
  | .mapping tag .. => tag

/-- The span of the value. -/
def location : RawValue → Location
  | .scalar _ location _ => location
  | .sequence _ location _ => location
  | .mapping _ location _ => location

/-- Whether the value has no tag. -/
def isUntagged (r : RawValue) : Bool :=
  r.tag.isNone

/-- Whether the value is a mapping without a tag. -/
def isPlainMapping : RawValue → Bool
  | .mapping none .. => true
  | _ => false

/-- The text of a scalar without a tag. -/
def plainScalar? : RawValue → Option String
  | .scalar none _ text => some text
  | _ => none

end RawValue

end InfraModule
