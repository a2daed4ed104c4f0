import InfraModule.Tree.Error
import InfraModule.Tree.Walk

/-!
# Building and changing a tree

A node takes its children over when it is added; later a child is attached to a declaration, list,
collection or object, and taken out again by `detach`. A node that has an owner must be detached
before it can be attached elsewhere, and no node can come to own an ancestor.

Whenever a subtree is attached or detached, or a reference is bound, the dependencies of the bound
references concerned are recorded anew: from the item that encloses the reference to its target,
unless the two are the same or there is none. The index of bound references says which nodes of a
subtree are concerned; while it is empty there is nothing to record.
-/

namespace InfraModule

/-- Operations that change a tree and may be refused. -/
abbrev TreeM := EStateM TreeError Tree

namespace Tree

/-! ## Single changes -/

/-- Replaces a node, and nothing else about its entry. -/
def setNode (t : Tree) (id : NodeId) (node : Node) : Tree :=
  { t with entries := t.entries.modify id fun entry => { entry with node } }

/-- Replaces the owner of a node. -/
def setParent (t : Tree) (id : NodeId) (parent : Option NodeId) : Tree :=
  { t with entries := t.entries.modify id fun entry => { entry with parent } }

/-- Notes in the index of bound references whether a reference is bound. -/
def setBound (t : Tree) (id : NodeId) (isBound : Bool) : Tree :=
  { t with bound := if isBound then Sorted.insert id t.bound else t.bound.filter (· ≠ id) }

/-- Creates a root that owns the children which the node names. -/
def append (t : Tree) (node : Node) (location : Location) : Tree :=
  let id := t.size
  let t := node.children.foldl (fun u child => u.setParent child (some id)) t
  let t := if node.target.isSome then t.setBound id true else t
  { t with entries := t.entries.push { node, parent := none, location } }

/-- The dependency that a reference causes: that of the item that encloses it on its target. There
is none unless both exist and differ. -/
def causedEdge? (t : Tree) (via : NodeId) : Option Edge :=
  match t.enclosingItem? via, t.target? via with
  | some dependent, some dependency =>
    if dependent = dependency then none else some { dependent, dependency, via }
  | _, _ => none

/-- Records the dependency that a reference causes, or that it causes none. -/
def refreshReference (t : Tree) (id : NodeId) : Tree :=
  match t.causedEdge? id with
  | some edge => { t with graph := t.graph.insert edge }
  | none => { t with graph := t.graph.erase id }

/-- Records the dependencies that the bound references in the subtree at `root` cause. -/
def refreshSubtree (t : Tree) (root : NodeId) : Tree :=
  if t.bound.isEmpty then t
  else ((t.inspect root).filter (·.1 ∈ t.bound)).foldl (fun u found => u.refreshReference found.1) t

/-- Makes `parent` the owner of a node that it already names. -/
def own (t : Tree) (parent child : NodeId) : Tree :=
  (t.setParent child (some parent)).refreshSubtree child

/-- Makes a node a root that its owner no longer names. -/
def disown (t : Tree) (child : NodeId) : Tree :=
  (t.setParent child none).refreshSubtree child

/-! ## Conditions of the operations -/

/-- The entry of a node that must exist. -/
def requireEntry (t : Tree) (id : NodeId) : Except TreeError Entry :=
  match t.entry? id with
  | some entry => .ok entry
  | none => .error (.unknownNode id)

/-- Refuses a node that is not a declaration. -/
def requireDeclaration (t : Tree) (id : NodeId) : Except TreeError Declaration := do
  match (← t.requireEntry id).node with
  | .declaration declaration => .ok declaration
  | _ => .error (.notADeclaration id)

/-- Refuses a child that has an owner, that stands above the parent, or is the parent. -/
def checkAttachable (t : Tree) (parent child : NodeId) : Except TreeError Unit := do
  let _ ← t.requireEntry parent
  match (← t.requireEntry child).parent with
  | some owner => .error (.alreadyAttached child owner)
  | none =>
    if parent = child ∨ child ∈ t.ancestors parent then .error (.cyclicAttachment child)
    else .ok ()

/-- Refuses children that do not exist, that have an owner, or that are named twice; `seen` holds
the children named before. -/
def checkAdoptable (t : Tree) (seen : List NodeId) : List NodeId → Except TreeError Unit
  | [] => .ok ()
  | child :: children => do
    match (← t.requireEntry child).parent with
    | some owner => .error (.alreadyAttached child owner)
    | none =>
      if child ∈ seen then .error (.alreadyAttached child t.size)
      else t.checkAdoptable (child :: seen) children

end Tree

namespace TreeM

/-- Asks a question about the tree that may be answered by an error. -/
def ask {α : Type} (question : Tree → Except TreeError α) : TreeM α := do
  match question (← get) with
  | .ok answer => return answer
  | .error error => throw error

/-- Creates a root without asking whether its children are free. -/
def append (node : Node) (location : Location) : TreeM NodeId := do
  let id := (← get).size
  modify (·.append node location)
  return id

/-- Makes `parent` the owner of a node that it already names and that must exist. -/
def own (parent child : NodeId) : TreeM Unit := do
  discard <| ask (·.requireEntry child)
  modify (·.own parent child)

/-- Makes a node that must exist a root that its owner no longer names. -/
def disown (child : NodeId) : TreeM Unit := do
  discard <| ask (·.requireEntry child)
  modify (·.disown child)

/-- Binds a key of a declaration anew without asking whether the value is free. The node bound
before becomes a root and is returned. -/
def rebind (id : NodeId) (declaration : Declaration) (key : String) (value : Option NodeId) :
    TreeM (Option NodeId) := do
  let previous := declaration.property? key
  modify (·.setNode id (.declaration (declaration.withProperty key value)))
  if let some previous := previous then
    disown previous
  if let some value := value then
    own id value
  return previous

/-! ## Operations -/

/-- Adds a node that takes over the children it names. They must exist and be roots, and a target
must be a declaration. -/
def add (node : Node) (location : Location) : TreeM NodeId := do
  ask (·.checkAdoptable [] node.children)
  if let some target := node.target then
    discard <| ask (·.requireDeclaration target)
  let id ← append node location
  modify (·.refreshSubtree id)
  return id

/-- Binds a key of a declaration other than the keyword to a root, or unbinds it. The node bound
before becomes a root and is returned. -/
def setProperty (id : NodeId) (key : String) (value : Option NodeId) :
    TreeM (Option NodeId) := do
  let declaration ← ask (·.requireDeclaration id)
  if let some value := value then
    ask (·.checkAttachable id value)
  unless declaration.hasProperty key do
    throw (.unknownProperty declaration.kind key)
  rebind id declaration key value

/-- Appends a root to a list or collection. -/
def pushChild (parent child : NodeId) : TreeM Unit := do
  ask (·.checkAttachable parent child)
  let node := (← ask (·.requireEntry parent)).node
  match node with
  | .expression (.list items) =>
    modify (·.setNode parent (.expression (.list (items ++ [child]))))
  | .collection items => modify (·.setNode parent (.collection (items ++ [child])))
  | _ => throw (.unexpectedNode parent "List or Collection" node.kindName)
  own parent child

/-- Adds a root to an object under a new key. If the key is there already, nothing changes and the
answer is `false`. -/
def insertEntry (object : NodeId) (key : Key) (value : NodeId) : TreeM Bool := do
  ask (·.checkAttachable object value)
  let node := (← ask (·.requireEntry object)).node
  match node with
  | .expression (.object entries) =>
    if entries.contains key.text then
      return false
    modify (·.setNode object (.expression (.object (entries ++ [(key, value)]))))
    own object value
    return true
  | _ => throw (.unexpectedNode object "Object" node.kindName)

/-- Takes a node out of its owner, so that it becomes a root. A root stays one. -/
def detach (child : NodeId) : TreeM Unit := do
  match (← ask (·.requireEntry child)).parent with
  | none => return ()
  | some parent =>
    match (← ask (·.requireEntry parent)).node.remove child with
    | .removed rest =>
      modify (·.setNode parent rest)
      disown child
    | .required => throw (.requiredChild child parent)
    | .notFound => throw (.notAChild child parent)

/-- Binds a reference to a declaration, or unbinds it. Binding it to the target it already has
changes nothing. -/
def setReference (id : NodeId) (target : Option NodeId) : TreeM Unit := do
  if let some target := target then
    discard <| ask (·.requireDeclaration target)
  let node := (← ask (·.requireEntry id)).node
  unless node.isReference do
    throw (.notReferenceBearing id)
  unless node.target = target do
    modify (·.setNode id (node.withTarget target))
    modify (·.setBound id target.isSome)
    modify (·.refreshReference id)

end TreeM

end InfraModule
