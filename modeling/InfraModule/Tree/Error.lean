import InfraModule.Schema
import InfraModule.Tree.Expression

/-!
# Misuse of a syntax tree

Errors say that an operation on a tree was called with arguments that do not fit it. A mistake in a
document is never one of these.
-/

namespace InfraModule

/-- Why an operation on a tree was refused. -/
inductive TreeError where
  /-- No node has this id. -/
  | unknownNode (id : NodeId)
  /-- The node already has an owner. -/
  | alreadyAttached (node parent : NodeId)
  /-- The node would become its own ancestor. -/
  | cyclicAttachment (node : NodeId)
  /-- The node's owner does not name it. -/
  | notAChild (node parent : NodeId)
  /-- The node's owner cannot do without it. -/
  | requiredChild (node parent : NodeId)
  /-- Declarations of the kind have no such key. -/
  | unknownProperty (kind : Kind) (key : String)
  /-- The node is not a declaration. -/
  | notADeclaration (id : NodeId)
  /-- The node is not a reference. -/
  | notReferenceBearing (id : NodeId)
  /-- The node has the wrong form. -/
  | unexpectedNode (node : NodeId) (expected found : String)
  deriving DecidableEq

/-- The error in words. -/
def TreeError.message : TreeError → String
  | .unknownNode id => s!"Unknown node: {id.display}"
  | .alreadyAttached node parent =>
    s!"Node {node.display} is already attached to {parent.display}"
  | .cyclicAttachment node => s!"Node {node.display} cannot be attached beneath itself"
  | .notAChild node parent => s!"Node {node.display} is not a child of {parent.display}"
  | .requiredChild node parent =>
    s!"Node {node.display} is a required operand of {parent.display} and cannot be detached"
  | .unknownProperty kind key => s!"{kind.name} declarations have no property '{key}'"
  | .notADeclaration id => s!"Node {id.display} is not a declaration"
  | .notReferenceBearing id => s!"Node {id.display} does not carry a reference"
  | .unexpectedNode node expected found =>
    s!"Node {node.display} is a {found}, expected {expected}"

end InfraModule
