import InfraModule.Tree.Edit

/-!
# Copies of subtrees

A copy consists of new nodes only: the children are copied first, in order, and then their owner is
created. A reference in the copy keeps the target that it was copied with, and causes no dependency
until the copy is attached.
-/

namespace InfraModule.TreeM

/-- Copies the subtree at a node that is at most `levels` deep. -/
def copyWithin : Nat → NodeId → TreeM NodeId
  | 0, id => throw (.unknownNode id)
  | levels + 1, id => do
    let entry ← ask (·.requireEntry id)
    let copies ← entry.node.children.mapM (copyWithin levels)
    append (entry.node.withChildren copies) entry.location

/-- Copies the subtree at a node; the copy is a root. -/
def copySubtree (root : NodeId) : TreeM NodeId := do
  copyWithin (← get).size root

end InfraModule.TreeM
