import InfraModule.Event
import InfraModule.Tree.Error

/-!
# Failures of reading a document

A failure leaves no place at which reading could go on: the text is not well formed, the events stop
too early, or one stands where the frame of the document does not allow it. A mistake inside a
well-framed document is a diagnostic and not a failure.
-/

namespace InfraModule

/-- Why a document could not be read. -/
inductive ParseError where
  /-- The text is not well-formed YAML. -/
  | malformedText
  /-- The text of the options does not describe any. -/
  | invalidOptions
  /-- The document refers back to an anchor. -/
  | unsupportedAlias (mark : Mark)
  /-- The events stop inside a construct. -/
  | unexpectedEnd
  /-- An event stands where only another one may. -/
  | unexpectedEvent (expected found : EventKind) (mark : Mark)
  /-- The syntax tree was misused. -/
  | tree (error : TreeError)
  deriving DecidableEq

/-- The failure in words. -/
def ParseError.message : ParseError → String
  | .malformedText => "YAML parsing error"
  | .invalidOptions => "Invalid parser options"
  | .unsupportedAlias mark => s!"YAML aliases are not supported {mark.display}"
  | .unexpectedEnd => "Unexpected end of event stream"
  | .unexpectedEvent expected found mark =>
    s!"Expected {expected.name}, found {found.name} {mark.display}"
  | .tree error => s!"Syntax tree error: {error.message}"

end InfraModule
