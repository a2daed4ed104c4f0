import InfraModule.Tree.Edit

/-!
# Binding references to declarations

A reference names an item. Items inside groups have full names: the names of the enclosing groups
and the item's own, joined by `::`. A reference is looked up first as seen from its innermost
group, then from the next one outward, and last from the module itself. Of items with one full name
the first in the order of the document counts. `!Condition` is bound to conditions only, and passes
over anything else of that name.
-/

namespace InfraModule

/-- A reference whose name no item has. -/
structure Unresolved where
  /-- The reference. -/
  expression : NodeId
  /-- The name that was looked up. -/
  name : String
  deriving DecidableEq

namespace Tree

/-- A name inside enclosing scopes, outermost first. -/
def qualified (scope : List String) (name : String) : String :=
  "::".intercalate (scope ++ [name])

/-- The names of the groups that enclose a node, outermost first; groups without a literal name are
passed over. -/
def scopePath (t : Tree) (id : NodeId) : List String :=
  (((t.ancestors id).filter fun owner => t.kind? owner == some .group).filterMap
    t.declarationName?).reverse

/-- The full name of a declaration whose own name is a literal. -/
def fullName? (t : Tree) (id : NodeId) : Option String :=
  (t.declarationName? id).map (qualified (t.scopePath id))

/-- The items of a subtree with their full names, in the order of the document. -/
def namedItems (t : Tree) (root : NodeId) : List (String × NodeId) :=
  (t.inspect root).filterMap fun (id, node) =>
    if node.isItem then (t.fullName? id).map (·, id) else none

/-- The references of a subtree, in the order of the document. -/
def references (t : Tree) (root : NodeId) : List NodeId :=
  ((t.inspect root).filter (·.2.isReference)).map Prod.fst

/-- Whether a reference is to be bound to conditions only. -/
def bindsConditionsOnly (t : Tree) (id : NodeId) : Bool :=
  match t.expression? id with
  | some (.condition (.reference ..)) => true
  | _ => false

/-- The scopes from which a name is looked up, innermost first: a path, the path without its last
name, and so on to the empty path. -/
def outwards (scope : List String) : List (List String) :=
  (List.range (scope.length + 1)).reverse.map scope.take

/-- The declaration that a reference called `name` is bound to, among the named items. -/
def lookUp (t : Tree) (items : List (String × NodeId)) (reference : NodeId) (name : String) :
    Option NodeId :=
  (outwards (t.scopePath reference)).findSome? fun scope =>
    (items.lookup (qualified scope name)).filter fun item =>
      !t.bindsConditionsOnly reference || t.kind? item == some .condition

end Tree

namespace TreeM

/-- Binds one reference, or unbinds it if its name cannot be found, which is then reported. A
reference whose name is no literal is left alone. -/
def link (items : List (String × NodeId)) (reference : NodeId) : TreeM (Option Unresolved) := do
  let t ← get
  match t.referenceName? reference with
  | none => return none
  | some name =>
    let target := t.lookUp items reference name
    setReference reference target
    return if target.isNone then some { expression := reference, name } else none

/-- Binds all references in the subtree at `root` to the items in it, and lists those that could
not be bound. -/
def linkReferences (root : NodeId) : TreeM (List Unresolved) := do
  let t ← get
  let outcomes ← (t.references root).mapM (link (t.namedItems root))
  return outcomes.filterMap id

end TreeM

end InfraModule
