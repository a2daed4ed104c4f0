import InfraModule.Tree.Basic

/-!
# Walking a tree

Both walks take a node before its children and the children in the order in which their owner names
them. `inspect` lists a subtree with a stack of the nodes still to come; `visit` descends, asks a
visitor at every node whether to go on, and tells it when a node's subtree is done.
-/

namespace InfraModule

/-- What a visitor answers at a node. -/
inductive VisitControl where
  /-- Go on with the children. -/
  | proceed
  /-- Leave the children out. -/
  | skipChildren
  /-- End the whole walk. -/
  | stop
  deriving DecidableEq

/-- What is done on a walk, with a state of type `σ`. -/
structure Visitor (σ : Type) where
  /-- Called when the walk comes to a node. -/
  start : σ → NodeId → Node → σ × VisitControl
  /-- Called when the walk is done with a node and what it took of the node's subtree. -/
  finish : σ → NodeId → Node → σ := fun state _ _ => state

/-- Visits nodes one after the other until one visit ends the walk. -/
def Visitor.each {σ : Type} (visit : NodeId → σ → σ × Bool) : List NodeId → σ → σ × Bool
  | [], state => (state, true)
  | id :: ids, state =>
    match visit id state with
    | (state, true) => each visit ids state
    | (state, false) => (state, false)

/-- Visits a node and, by `visit`, its children. -/
def Visitor.visitNode {σ : Type} (v : Visitor σ) (visit : NodeId → σ → σ × Bool) (id : NodeId)
    (node : Node) (state : σ) : σ × Bool :=
  match v.start state id node with
  | (state, .stop) => (state, false)
  | (state, .skipChildren) => (v.finish state id node, true)
  | (state, .proceed) =>
    match Visitor.each visit node.children state with
    | (state, true) => (v.finish state id node, true)
    | (state, false) => (state, false)

namespace Tree

/-- The first nodes that a walk finds whose stack of nodes to come is given, in at most `steps`
steps. -/
def inspectWithin (t : Tree) : Nat → List NodeId → List (NodeId × Node)
  | 0, _ => []
  | _ + 1, [] => []
  | steps + 1, id :: stack =>
    match t.node? id with
    | none => t.inspectWithin steps stack
    | some node => (id, node) :: t.inspectWithin steps (node.children ++ stack)

/-- The nodes of the subtree at `root`, each before its children. -/
def inspect (t : Tree) (root : NodeId) : List (NodeId × Node) :=
  t.inspectWithin (t.size + 1) [root]

/-- A visit of the subtree at a node, at most `levels` deep. -/
def visitWithin {σ : Type} (t : Tree) (v : Visitor σ) : Nat → NodeId → σ → σ × Bool
  | 0, _, state => (state, true)
  | levels + 1, id, state =>
    match t.node? id with
    | none => (state, true)
    | some node => v.visitNode (t.visitWithin v levels) id node state

/-- A visit of the subtree at `root`: the visitor's last state, and whether the walk came to its
end. -/
def visit {σ : Type} (t : Tree) (v : Visitor σ) (root : NodeId) (state : σ) : σ × Bool :=
  t.visitWithin v t.size root state

end Tree

end InfraModule
