import InfraModule.Tree.Dependency
import InfraModule.Tree.Node

/-!
# Syntax trees

A tree keeps every node ever created, in order of creation, each with its location and its owner;
a node's id is its place in that order. Nodes without an owner are roots: there may be many, since a
node is created before it is attached and stays when it is detached. Beside the nodes a tree keeps
an index of its bound references and the dependencies that these cause.

Questions about a whole chain or subtree walk at most as many steps as there are nodes. That is
enough, for no chain of owners is longer in a tree that the operations of `Tree.Edit` build.
-/

namespace InfraModule

/-- A node in its tree. -/
structure Entry where
  /-- The node itself. -/
  node : Node
  /-- The node's owner. -/
  parent : Option NodeId
  /-- The span of the document that the node stands for. -/
  location : Location

/-- A syntax tree. -/
structure Tree where
  /-- The nodes in order of creation. -/
  entries : Array Entry := #[]
  /-- The references that are bound to a declaration, in increasing order. -/
  bound : List NodeId := []
  /-- The dependencies that bound references cause. -/
  graph : DependencyGraph := {}

namespace Tree

/-- How many nodes were ever created. -/
def size (t : Tree) : Nat :=
  t.entries.size

/-- Whether no node was ever created. -/
def isEmpty (t : Tree) : Bool :=
  t.entries.isEmpty

/-- The entry of a node. -/
def entry? (t : Tree) (id : NodeId) : Option Entry :=
  t.entries[id]?

/-- The node of an id. -/
def node? (t : Tree) (id : NodeId) : Option Node :=
  (t.entry? id).map Entry.node

/-- The location of a node. -/
def location? (t : Tree) (id : NodeId) : Option Location :=
  (t.entry? id).map Entry.location

/-- The owner of a node. -/
def parent? (t : Tree) (id : NodeId) : Option NodeId :=
  (t.entry? id).bind Entry.parent

/-- The children of a node, in order. -/
def children (t : Tree) (id : NodeId) : List NodeId :=
  ((t.node? id).map Node.children).getD []

/-! ## Views of a node -/

/-- The declaration of an id. -/
def declaration? (t : Tree) (id : NodeId) : Option Declaration :=
  (t.node? id).bind Node.declaration?

/-- The kind of the declaration of an id. -/
def kind? (t : Tree) (id : NodeId) : Option Kind :=
  (t.declaration? id).map Declaration.kind

/-- The expression of an id. -/
def expression? (t : Tree) (id : NodeId) : Option Expression :=
  (t.node? id).bind Node.expression?

/-- The literal of an id. -/
def literal? (t : Tree) (id : NodeId) : Option Literal :=
  match t.expression? id with
  | some (.literal literal) => some literal
  | _ => none

/-- The text of the literal of an id. -/
def literalText? (t : Tree) (id : NodeId) : Option String :=
  (t.literal? id).map Literal.text

/-- The items of a list or a collection. -/
def listItems? (t : Tree) (id : NodeId) : Option (List NodeId) :=
  match t.node? id with
  | some (.expression (.list items)) => some items
  | some (.collection items) => some items
  | _ => none

/-- The entries of an object. -/
def objectEntries? (t : Tree) (id : NodeId) : Option Entries :=
  match t.expression? id with
  | some (.object entries) => some entries
  | _ => none

/-- Whether a node declares a named item of a module. -/
def isItem (t : Tree) (id : NodeId) : Bool :=
  ((t.node? id).map Node.isItem).getD false

/-- The text bound to the keyword of a declaration, if it is a literal. -/
def declarationName? (t : Tree) (id : NodeId) : Option String := do
  let declaration ← t.declaration? id
  let keyword ← declaration.keyword
  t.literalText? keyword

/-- The declaration that a reference is bound to. -/
def target? (t : Tree) (id : NodeId) : Option NodeId :=
  (t.node? id).bind Node.target

/-- The name that a reference refers to, if it is a literal. -/
def referenceName? (t : Tree) (id : NodeId) : Option String := do
  let expression ← t.expression? id
  let name ← expression.referenceName
  t.literalText? name

/-- Whether the `Pragmas` list of a module holds a literal with this text. -/
def hasPragma (t : Tree) (module : Declaration) (pragma : String) : Bool :=
  match (module.property? "Pragmas").bind t.listItems? with
  | some items => items.any fun item => t.literalText? item == some pragma
  | none => false

/-- Whether a module is to be registered when it is deployed. -/
def hasModuleRegistration (t : Tree) (module : Declaration) : Bool :=
  !t.hasPragma module "no-module-registration"

/-! ## Ancestors -/

/-- The first `steps` owners on the way up from a node. -/
def ancestorsWithin (t : Tree) : Nat → NodeId → List NodeId
  | 0, _ => []
  | steps + 1, id =>
    match t.parent? id with
    | none => []
    | some parent => parent :: t.ancestorsWithin steps parent

/-- The owners on the way up from a node, nearest first. -/
def ancestors (t : Tree) (id : NodeId) : List NodeId :=
  t.ancestorsWithin t.size id

/-- The nearest owner on the way up that declares a named item. -/
def enclosingItem? (t : Tree) (id : NodeId) : Option NodeId :=
  (t.ancestors id).find? t.isItem

end Tree

end InfraModule
