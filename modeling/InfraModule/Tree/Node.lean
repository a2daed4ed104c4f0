import InfraModule.Tree.Declaration

/-!
# Nodes

Every element of a syntax tree is a declaration, an expression or a collection. A node owns its
children: it names them, in order, and no other node may.
-/

namespace InfraModule

/-- An element of a syntax tree. -/
inductive Node where
  /-- A declaration. -/
  | declaration (declaration : Declaration)
  /-- An expression. -/
  | expression (expression : Expression)
  /-- An ordered collection of declarations or literals. -/
  | collection (items : List NodeId)

namespace Node

/-- The short name of the node's form. -/
def kindName : Node → String
  | .declaration d => d.kind.name
  | .expression e => e.kindName
  | .collection _ => "Collection"

/-- The nodes that the node owns, in order. -/
def children : Node → List NodeId
  | .declaration d => d.children
  | .expression e => e.children
  | .collection items => items

/-- The same node with other children, put in place of the old ones in order. -/
def withChildren (n : Node) (ids : List NodeId) : Node :=
  match n with
  | .declaration d => .declaration (d.withChildren ids)
  | .expression e => .expression (e.withChildren ids)
  | .collection _ => .collection ids

/-- Takes a child out of the node. -/
def remove (n : Node) (child : NodeId) : Removal Node :=
  match n with
  | .declaration d => (d.remove child).map .declaration
  | .expression e => (e.remove child).map .expression
  | .collection items =>
    if child ∈ items then .removed (.collection (items.erase child)) else .notFound

/-- The declaration, if the node is one. -/
def declaration? : Node → Option Declaration
  | .declaration d => some d
  | _ => none

/-- The expression, if the node is one. -/
def expression? : Node → Option Expression
  | .expression e => some e
  | _ => none

/-- Whether the node refers to a declaration by name. -/
def isReference : Node → Bool
  | .expression e => e.isReference
  | _ => false

/-- The declaration that the node is bound to. -/
def target : Node → Option NodeId
  | .expression e => e.target
  | _ => none

/-- The same node bound to another declaration, if it is a reference. -/
def withTarget (n : Node) (target : Option NodeId) : Node :=
  match n with
  | .expression e => .expression (e.withTarget target)
  | n => n

/-- Whether the node declares a named item of a module. -/
def isItem : Node → Bool
  | .declaration d => d.kind.isItem
  | _ => false

end Node

end InfraModule
