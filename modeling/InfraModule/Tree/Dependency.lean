import InfraModule.Text.Sorted
import InfraModule.Tree.Expression

/-!
# Dependencies between declarations

An edge says that one item depends on a declaration because of a reference inside it. The reference
owns the edge, so two references to one declaration give two edges, and a reference has at most one.
The edges are kept in increasing order of the reference.
-/

namespace InfraModule

/-- A dependency and the reference that causes it. -/
structure Edge where
  /-- The item that depends. -/
  dependent : NodeId
  /-- The declaration that it depends on. -/
  dependency : NodeId
  /-- The reference that causes the dependency. -/
  via : NodeId
  deriving DecidableEq

/-- The dependencies of a tree. -/
structure DependencyGraph where
  /-- The edges, in increasing order of their references. -/
  edges : List Edge := []
  deriving DecidableEq

namespace DependencyGraph

/-- Puts an edge at its place, instead of any other edge of the same reference. -/
def insertEdge (edge : Edge) : List Edge → List Edge
  | [] => [edge]
  | e :: es =>
    if edge.via < e.via then edge :: e :: es
    else if edge.via = e.via then edge :: es
    else e :: insertEdge edge es

/-- Records an edge, instead of any other edge of the same reference. -/
def insert (g : DependencyGraph) (edge : Edge) : DependencyGraph :=
  ⟨insertEdge edge g.edges⟩

/-- Forgets the edge of a reference. -/
def erase (g : DependencyGraph) (via : NodeId) : DependencyGraph :=
  ⟨g.edges.filter (·.via ≠ via)⟩

/-- The edge of a reference. -/
def edgeFor? (g : DependencyGraph) (via : NodeId) : Option Edge :=
  g.edges.find? (·.via == via)

/-- The declarations that an item depends on, in increasing order. -/
def dependenciesOf (g : DependencyGraph) (id : NodeId) : List NodeId :=
  Sorted.ofList ((g.edges.filter (·.dependent == id)).map Edge.dependency)

/-- The items that depend on a declaration, in increasing order. -/
def dependentsOf (g : DependencyGraph) (id : NodeId) : List NodeId :=
  Sorted.ofList ((g.edges.filter (·.dependency == id)).map Edge.dependent)

/-- How many edges there are. -/
def size (g : DependencyGraph) : Nat :=
  g.edges.length

/-- Whether there is no edge. -/
def isEmpty (g : DependencyGraph) : Bool :=
  g.edges.isEmpty

/-- After recording an edge its reference has that edge, and the other references have theirs. -/
theorem edgeFor?_insert (g : DependencyGraph) (edge : Edge) (via : NodeId) :
    (g.insert edge).edgeFor? via = if edge.via = via then some edge else g.edgeFor? via := by
  simp only [insert, edgeFor?]
  induction g.edges with
  | nil => simp [insertEdge, List.find?_cons]; split <;> simp_all
  | cons e es ih =>
    unfold insertEdge
    split
    · simp only [List.find?_cons]; grind
    · split
      · next h => simp only [List.find?_cons]; grind
      · simp only [List.find?_cons]; grind

/-- After forgetting the edge of a reference it has none, and the other references have theirs. -/
theorem edgeFor?_erase (g : DependencyGraph) (id via : NodeId) :
    (g.erase id).edgeFor? via = if id = via then none else g.edgeFor? via := by
  simp only [erase, edgeFor?, List.find?_filter]
  split
  · next h => subst h; simp
  · next h =>
    congr 1
    funext e
    by_cases hv : e.via = via
    · simp [hv]; exact fun h' => h h'.symm
    · simp [hv]

/-- The dependencies of an item are the ends of the edges that start at it. -/
theorem mem_dependenciesOf {g : DependencyGraph} {a b : NodeId} :
    b ∈ g.dependenciesOf a ↔ ∃ e ∈ g.edges, e.dependent = a ∧ e.dependency = b := by
  simp [dependenciesOf, and_assoc]

/-- The dependents of a declaration are the starts of the edges that end at it. -/
theorem mem_dependentsOf {g : DependencyGraph} {a b : NodeId} :
    a ∈ g.dependentsOf b ↔ ∃ e ∈ g.edges, e.dependent = a ∧ e.dependency = b := by
  simp only [dependentsOf, Sorted.mem_ofList, List.mem_map, List.mem_filter, beq_iff_eq]
  grind

end DependencyGraph

end InfraModule
