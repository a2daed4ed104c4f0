import InfraModule.Parse.Declaration
import InfraModule.Tree.Link

/-!
# Module documents

A document holds one module. Reading it gives a tree, what was reported, and the references that
found no target; the module itself is absent if the document's value does not declare one.
-/

namespace InfraModule

/-- A module document that has been read. -/
structure Document where
  /-- All nodes, those that ended up outside the module included. -/
  tree : Tree
  /-- The module, if the document declares one. -/
  root : Option NodeId
  /-- What was reported. -/
  diagnostics : Diagnostics
  /-- The references that found no target. -/
  unresolved : List Unresolved

namespace Document

/-- Reads the one module of a stream of events. -/
def readModule : ParseM (Option NodeId) := do
  Parse.start
  let root ← Parse.declaration (.concrete .module)
  Parse.finishDocument
  return root

/-- Binds the references of a module, if there is one and the options say so. -/
def link (options : Options) (root : Option NodeId) : TreeM (List Unresolved) :=
  match root with
  | some root => if options.linkReferences then TreeM.linkReferences root else return []
  | none => return []

/-- The document that a stream of events describes. -/
def ofEvents (setting : Setting) (events : List Event) : Except ParseError Document :=
  match (readModule.run setting).run { events } with
  | .error error _ => .error error
  | .ok root state =>
    match (link setting.options root).run state.build.tree with
    | .error error _ => .error (.tree error)
    | .ok unresolved tree =>
      .ok { tree, root, diagnostics := state.build.diagnostics, unresolved }

/-- Whether something is wrong with the document. -/
def hasErrors (d : Document) : Bool :=
  d.diagnostics.hasErrors

/-- The declaration of the module. -/
def module? (d : Document) : Option Declaration :=
  (d.root.bind d.tree.declaration?).filter (·.kind == .module)

end Document

end InfraModule
