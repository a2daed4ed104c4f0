import InfraModule.Proofs.Tree.Dependency
import InfraModule.Proofs.Tree.Node
import InfraModule.Tree.Edit
import Mathlib.Data.List.Find

/-!
# Single changes of a tree

What each of the changes that operations are made of does to what can be asked about a tree: the
node, owner and location of an id, the index of bound references, and the edge of each reference.
Recording dependencies touches edges only, so a tree with fresh edges answers every other question
as before. The edge that a reference has afterwards is the one that it causes, if the recording
reached it, and the one that it had, if not.
-/

namespace InfraModule.Tree

variable {t u : Tree} {id x : NodeId}

/-! ## Questions that depend on the entry of a node only -/

/-- The ids below the size are those with an entry. -/
theorem entry?_eq_some_iff_lt : (∃ e, t.entry? x = some e) ↔ x < t.size := by
  rw [← Option.isSome_iff_exists]
  simp [size, entry?]

/-- The ids below the size are those with a node. -/
theorem node?_eq_some_iff_lt : (∃ n, t.node? x = some n) ↔ x < t.size := by
  simp [node?, ← entry?_eq_some_iff_lt]

/-- An id with a node is below the size. -/
theorem lt_size_of_node? {n : Node} (h : t.node? x = some n) : x < t.size :=
  node?_eq_some_iff_lt.mp ⟨n, h⟩

/-- An id with an owner is below the size. -/
theorem lt_size_of_parent? {p : NodeId} (h : t.parent? x = some p) : x < t.size := by
  obtain ⟨e, he, -⟩ := Option.bind_eq_some_iff.mp h
  exact entry?_eq_some_iff_lt.mp ⟨e, he⟩

/-- From the size on no id has a node. -/
theorem node?_eq_none_iff : t.node? x = none ↔ t.size ≤ x := by
  simp [node?, entry?, size]

/-- From the size on no id has an owner. -/
theorem parent?_eq_none_of_le (h : t.size ≤ x) : t.parent? x = none := by
  cases hp : t.parent? x with
  | none => rfl
  | some p => exact absurd (lt_size_of_parent? hp) (Nat.not_lt.mpr h)

/-- The children of an id are those of its node. -/
theorem children_of_node? {n : Node} (h : t.node? x = some n) : t.children x = n.children := by
  simp [children, h]

/-- Where there is no node, there are no children. -/
theorem children_eq_nil_of_le (h : t.size ≤ x) : t.children x = [] := by
  simp [children, node?_eq_none_iff.mpr h]

/-- The target of an id is that of its node. -/
theorem target?_of_node? {n : Node} (h : t.node? x = some n) : t.target? x = n.target := by
  simp [target?, h]

/-- The same node has the same children. -/
theorem children_congr (h : u.node? x = t.node? x) : u.children x = t.children x := by
  rw [children, children, h]

/-- The same node has the same target. -/
theorem target?_congr (h : u.node? x = t.node? x) : u.target? x = t.target? x := by
  rw [target?, target?, h]

/-- The kind of a declaration is that of its node. -/
theorem kind?_eq (t : Tree) (x : NodeId) : t.kind? x = (t.node? x).bind Node.kind? := by
  rw [kind?, declaration?, Option.map_bind]
  rfl

/-- The kind of an id is that of its node. -/
theorem kind?_of_node? {n : Node} (h : t.node? x = some n) : t.kind? x = n.kind? := by
  rw [kind?_eq, h, Option.bind_some]

/-- The same node has the same kind. -/
theorem kind?_congr (h : u.node? x = t.node? x) : u.kind? x = t.kind? x := by
  rw [kind?_eq, kind?_eq, h]

/-- An id with a kind is below the size. -/
theorem lt_size_of_kind? (h : (t.kind? x).isSome = true) : x < t.size := by
  by_contra hle
  simp [kind?_eq, node?_eq_none_iff.mpr (Nat.not_lt.mp hle)] at h

/-- Whether a node is an item can be told from its kind. -/
theorem isItem_eq_kind? (t : Tree) (x : NodeId) :
    t.isItem x = ((t.kind? x).map Kind.isItem).getD false := by
  rw [kind?_eq, isItem]
  cases t.node? x with
  | none => rfl
  | some n => exact n.isItem_eq

/-- Nodes of the same kind are both items or neither of them is. -/
theorem isItem_congr (h : u.kind? x = t.kind? x) : u.isItem x = t.isItem x := by
  rw [isItem_eq_kind?, isItem_eq_kind?, h]

/-- The questions about a chain of owners look at owners only. -/
theorem ancestorsWithin_congr (h : u.parent? = t.parent?) (steps : Nat) (x : NodeId) :
    u.ancestorsWithin steps x = t.ancestorsWithin steps x := by
  induction steps generalizing x with
  | zero => rfl
  | succ steps ih =>
    rw [ancestorsWithin, ancestorsWithin, h]
    cases t.parent? x with
    | none => rfl
    | some p => exact congrArg (p :: ·) (ih p)

/-- The chains of owners depend on the size and on the owners only. -/
theorem ancestors_congr (hsize : u.size = t.size) (h : u.parent? = t.parent?) :
    u.ancestors = t.ancestors := by
  funext x
  rw [ancestors, ancestors, hsize, ancestorsWithin_congr h]

/-- The nearest item above a node depends on the chain of owners and on which of them are items. -/
theorem enclosingItem?_congr (hancestors : u.ancestors x = t.ancestors x)
    (hitem : ∀ a ∈ t.ancestors x, u.isItem a = t.isItem a) :
    u.enclosingItem? x = t.enclosingItem? x := by
  rw [enclosingItem?, enclosingItem?, hancestors]
  exact List.find?_congr hitem

/-! ## Replacing a node -/

/-- Replacing a node leaves the number of nodes. -/
@[simp] theorem size_setNode (n : Node) : (t.setNode id n).size = t.size := by
  simp [setNode, size]

/-- Replacing a node leaves the index of bound references. -/
@[simp] theorem bound_setNode (n : Node) : (t.setNode id n).bound = t.bound := rfl

/-- Replacing a node leaves the owners. -/
@[simp] theorem parent?_setNode (n : Node) : (t.setNode id n).parent? = t.parent? := by
  funext x
  simp only [parent?, entry?, setNode, Array.getElem?_modify]
  split
  · rw [Option.bind_map]
    rfl
  · rfl

/-- Replacing a node leaves the locations. -/
@[simp] theorem location?_setNode (n : Node) : (t.setNode id n).location? = t.location? := by
  funext x
  simp only [location?, entry?, setNode, Array.getElem?_modify]
  split <;> simp [Function.comp_def]

/-- After a node is replaced, its id has the new one. -/
theorem node?_setNode_self {n : Node} (h : id < t.size) : (t.setNode id n).node? id = some n := by
  obtain ⟨e, he⟩ := entry?_eq_some_iff_lt.mpr h
  unfold entry? at he
  simp [node?, entry?, setNode, Array.getElem?_modify, he]

/-- Replacing a node leaves the other nodes alone. -/
theorem node?_setNode_of_ne {n : Node} (h : x ≠ id) : (t.setNode id n).node? x = t.node? x := by
  simp [node?, entry?, setNode, Array.getElem?_modify, h.symm]

/-- Putting the node in place that is there changes nothing. -/
theorem setNode_of_node? {n : Node} (h : t.node? id = some n) : t.setNode id n = t := by
  obtain ⟨e, he, hn⟩ := Option.map_eq_some_iff.mp h
  unfold entry? at he
  rw [setNode]
  congr 1
  apply Array.ext_getElem?
  intro i
  rw [Array.getElem?_modify]
  split
  · next hi =>
    rw [← hi, he, ← hn]
    rfl
  · rfl

/-- Of two nodes put in the same place the second counts. -/
@[simp] theorem setNode_setNode (n m : Node) :
    (t.setNode id n).setNode id m = t.setNode id m := by
  simp only [setNode, mk.injEq, and_true]
  apply Array.ext_getElem?
  intro i
  simp only [Array.getElem?_modify]
  split <;> simp [Function.comp_def]

/-- Putting a node of the same kind in place of another changes no kind. -/
theorem kind?_setNode {n old : Node} (hold : t.node? id = some old) (h : n.kind? = old.kind?) :
    (t.setNode id n).kind? = t.kind? := by
  funext x
  by_cases hx : x = id
  · rw [hx, kind?_of_node? (node?_setNode_self (lt_size_of_node? hold)), kind?_of_node? hold, h]
  · exact kind?_congr (node?_setNode_of_ne hx)

/-- Putting a node with the same target in place of another changes no target. -/
theorem target?_setNode {n old : Node} (hold : t.node? id = some old)
    (h : n.target = old.target) : (t.setNode id n).target? = t.target? := by
  funext x
  by_cases hx : x = id
  · rw [hx, target?_of_node? (node?_setNode_self (lt_size_of_node? hold)), target?_of_node? hold, h]
  · exact target?_congr (node?_setNode_of_ne hx)

/-- Replacing a node leaves the chains of owners alone. -/
theorem ancestors_setNode (n : Node) : (t.setNode id n).ancestors = t.ancestors :=
  ancestors_congr (size_setNode n) (parent?_setNode n)

/-! ## Replacing an owner -/

/-- Giving a node an owner leaves the number of nodes. -/
@[simp] theorem size_setParent (p : Option NodeId) : (t.setParent id p).size = t.size := by
  simp [setParent, size]

/-- Giving a node an owner leaves the index of bound references. -/
@[simp] theorem bound_setParent (p : Option NodeId) : (t.setParent id p).bound = t.bound := rfl

/-- Giving a node an owner leaves the edges. -/
@[simp] theorem graph_setParent (p : Option NodeId) : (t.setParent id p).graph = t.graph := rfl

/-- Giving a node an owner leaves the nodes. -/
@[simp] theorem node?_setParent (p : Option NodeId) : (t.setParent id p).node? = t.node? := by
  funext x
  simp only [node?, entry?, setParent, Array.getElem?_modify]
  split <;> simp [Function.comp_def]

/-- Giving a node an owner leaves the locations. -/
@[simp] theorem location?_setParent (p : Option NodeId) :
    (t.setParent id p).location? = t.location? := by
  funext x
  simp only [location?, entry?, setParent, Array.getElem?_modify]
  split <;> simp [Function.comp_def]

/-- After an owner is replaced, the id has the new one. -/
theorem parent?_setParent_self {p : Option NodeId} (h : id < t.size) :
    (t.setParent id p).parent? id = p := by
  obtain ⟨e, he⟩ := entry?_eq_some_iff_lt.mpr h
  unfold entry? at he
  simp [parent?, entry?, setParent, Array.getElem?_modify, he]

/-- Replacing an owner leaves the owners of other ids alone. -/
theorem parent?_setParent_of_ne {p : Option NodeId} (h : x ≠ id) :
    (t.setParent id p).parent? x = t.parent? x := by
  simp [parent?, entry?, setParent, Array.getElem?_modify, h.symm]

/-- Replacing a node and replacing an owner can be done in either order. -/
theorem setParent_setNode {n : Node} {c : NodeId} {p : Option NodeId} :
    (t.setNode id n).setParent c p = (t.setParent c p).setNode id n := by
  simp only [setParent, setNode, mk.injEq, and_true]
  apply Array.ext_getElem?
  intro i
  simp only [Array.getElem?_modify]
  split <;> split <;> simp [Function.comp_def]

/-! ## Creating a node -/

/-- The tree in which children of a node to be created already have it as their owner. -/
theorem parent?_foldl_setParent {p : NodeId} {cs : List NodeId} (hcs : ∀ c ∈ cs, c < t.size) :
    (cs.foldl (fun u c => u.setParent c (some p)) t).parent? x
      = if x ∈ cs then some p else t.parent? x := by
  induction cs generalizing t with
  | nil => simp
  | cons c cs ih =>
    rw [List.foldl_cons, ih fun d hd => by simpa using hcs d (List.mem_cons_of_mem c hd)]
    by_cases hx : x = c
    · subst hx
      rw [parent?_setParent_self (hcs x List.mem_cons_self)]
      simp
    · simp [parent?_setParent_of_ne hx, hx]

/-- Giving an owner to several ids changes nothing but owners. -/
theorem foldl_setParent_frame (p : NodeId) (cs : List NodeId) :
    let u := cs.foldl (fun u c => u.setParent c (some p)) t
    u.size = t.size ∧ u.bound = t.bound ∧ u.graph = t.graph ∧ u.node? = t.node? ∧
      u.location? = t.location? := by
  induction cs generalizing t with
  | nil => simp
  | cons c cs ih => simpa using ih (t := t.setParent c (some p))

section Append

variable {n : Node} {l : Location}

/-- The entries of a tree in which a node was created. -/
theorem entry?_append :
    entry? (t.append n l) x = if x = t.size then some ⟨n, none, l⟩
      else entry? (n.children.foldl (fun u c => u.setParent c (some t.size)) t) x := by
  have hsize := (foldl_setParent_frame (t := t) t.size n.children).1
  rw [size] at hsize
  simp only [append, entry?]
  split <;> simp only [setBound, Array.getElem?_push, hsize]

/-- An appended node is one more. -/
@[simp] theorem size_append : (t.append n l).size = t.size + 1 := by
  have hsize := (foldl_setParent_frame (t := t) t.size n.children).1
  simp only [append]
  split <;> simpa [setBound, size] using hsize

/-- Appending a node leaves the edges. -/
@[simp] theorem graph_append : (t.append n l).graph = t.graph := by
  have hgraph := (foldl_setParent_frame (t := t) t.size n.children).2.2.1
  simp only [append]
  split <;> simpa [setBound] using hgraph

/-- Creating a node adds it to the index if it has a target. -/
theorem mem_bound_append :
    x ∈ (t.append n l).bound ↔ (x = t.size ∧ n.target.isSome = true) ∨ x ∈ t.bound := by
  have hbound := (foldl_setParent_frame (t := t) t.size n.children).2.1
  simp only [append]
  split
  · next h => simp [setBound, hbound, h]
  · next h => simp [hbound, h]

/-- The appended node is the last one. -/
@[simp] theorem node?_append_self : (t.append n l).node? t.size = some n := by
  simp [node?, entry?_append]

/-- Creating a node leaves the others alone. -/
theorem node?_append_of_ne (h : x ≠ t.size) : (t.append n l).node? x = t.node? x := by
  have hnode := (foldl_setParent_frame (t := t) t.size n.children).2.2.2.1
  rw [node?, entry?_append, if_neg h, ← node?, hnode]

/-- The appended node stands at its location. -/
@[simp] theorem location?_append_self : (t.append n l).location? t.size = some l := by
  simp [location?, entry?_append]

/-- Creating a node leaves the locations of others alone. -/
theorem location?_append_of_ne (h : x ≠ t.size) :
    (t.append n l).location? x = t.location? x := by
  have hlocation := (foldl_setParent_frame (t := t) t.size n.children).2.2.2.2
  rw [location?, entry?_append, if_neg h, ← location?, hlocation]

/-- The appended node has no owner. -/
@[simp] theorem parent?_append_self : (t.append n l).parent? t.size = none := by
  simp [parent?, entry?_append]

/-- A created node owns the children that it names, and no other owner changes. -/
theorem parent?_append_of_ne (hcs : ∀ c ∈ n.children, c < t.size) (h : x ≠ t.size) :
    (t.append n l).parent? x = if x ∈ n.children then some t.size else t.parent? x := by
  rw [parent?, entry?_append, if_neg h, ← parent?, parent?_foldl_setParent hcs]

end Append

/-! ## Index of bound references -/

/-- The index holds a node after a note exactly if the note says so, and the others as before. -/
theorem mem_bound_setBound {isBound : Bool} :
    x ∈ (t.setBound id isBound).bound ↔ if x = id then isBound = true else x ∈ t.bound := by
  cases isBound with
  | true => by_cases hx : x = id <;> simp [setBound, hx]
  | false => by_cases hx : x = id <;> simp [setBound, hx]

/-! ## Recording dependencies -/

/-- The same tree with other dependencies. -/
def withGraph (t : Tree) (g : DependencyGraph) : Tree :=
  { t with graph := g }

section WithGraph

variable {g : DependencyGraph}

/-- Replacing the edges leaves the number of nodes. -/
@[simp] theorem size_withGraph : (t.withGraph g).size = t.size := rfl

/-- Replacing the edges leaves the index of bound references. -/
@[simp] theorem bound_withGraph : (t.withGraph g).bound = t.bound := rfl

/-- The edges are those that replace them. -/
@[simp] theorem graph_withGraph : (t.withGraph g).graph = g := rfl

/-- Replacing the edges leaves the nodes. -/
@[simp] theorem node?_withGraph : (t.withGraph g).node? = t.node? := rfl

/-- Replacing the edges leaves the owners. -/
@[simp] theorem parent?_withGraph : (t.withGraph g).parent? = t.parent? := rfl

/-- Replacing the edges leaves the locations. -/
@[simp] theorem location?_withGraph : (t.withGraph g).location? = t.location? := rfl

/-- Replacing the edges leaves the children. -/
@[simp] theorem children_withGraph : (t.withGraph g).children = t.children := rfl

/-- Replacing the edges leaves the targets. -/
@[simp] theorem target?_withGraph : (t.withGraph g).target? = t.target? := rfl

/-- Replacing the edges leaves which nodes are items. -/
@[simp] theorem isItem_withGraph : (t.withGraph g).isItem = t.isItem := rfl

/-- Replacing the edges leaves the kinds. -/
@[simp] theorem kind?_withGraph : (t.withGraph g).kind? = t.kind? := rfl

/-- Replacing the edges leaves the chains of owners. -/
@[simp] theorem ancestors_withGraph : (t.withGraph g).ancestors = t.ancestors :=
  ancestors_congr rfl rfl

end WithGraph

/-- An edge is recorded for the reference that causes it. -/
theorem causedEdge?_via {e : Edge} (h : t.causedEdge? x = some e) : e.via = x := by
  unfold causedEdge? at h
  split at h
  · split at h
    · simp at h
    · cases h; rfl
  · simp at h

/-- What a reference causes depends on the owners above it, on which of them are items, and on its
target. -/
theorem causedEdge?_congr (hancestors : u.ancestors x = t.ancestors x)
    (hitem : ∀ a ∈ t.ancestors x, u.isItem a = t.isItem a) (htarget : u.target? x = t.target? x) :
    u.causedEdge? x = t.causedEdge? x := by
  rw [causedEdge?, causedEdge?, enclosingItem?_congr hancestors hitem, htarget]

/-- Replacing the edges leaves the edges that references cause. -/
@[simp] theorem causedEdge?_withGraph {g : DependencyGraph} :
    (t.withGraph g).causedEdge? = t.causedEdge? := by
  funext x
  exact causedEdge?_congr (by simp) (by simp) (by simp)

/-- A reference without target causes nothing. -/
theorem causedEdge?_of_target?_eq_none (h : t.target? x = none) : t.causedEdge? x = none := by
  unfold causedEdge?
  split <;> simp_all

/-- Refreshing a reference gives it the edge that it causes, or none, and changes nothing else. -/
theorem refreshReference_eq_withGraph (t : Tree) (id : NodeId) :
    ∃ g, t.refreshReference id = t.withGraph g ∧ (t.graph.Sorted → g.Sorted) ∧
      ∀ x, g.edgeFor? x = if x = id then t.causedEdge? x else t.graph.edgeFor? x := by
  unfold refreshReference
  -- A reference that causes nothing loses its edge.
  cases h : t.causedEdge? id with
  | none =>
    refine ⟨_, rfl, fun hsorted => hsorted.erase id, fun x => ?_⟩
    rw [DependencyGraph.edgeFor?_erase]
    by_cases hx : x = id
    · simp [hx, h]
    · simp [hx, Ne.symm hx]
  | some e =>
    refine ⟨_, rfl, fun hsorted => hsorted.insert e, fun x => ?_⟩
    rw [DependencyGraph.edgeFor?_insert, causedEdge?_via h]
    by_cases hx : x = id
    · simp [hx, h]
    · simp [hx, Ne.symm hx]

/-- Recording the dependencies of several references gives each of them the edge that it causes. -/
theorem foldl_refreshReference_eq_withGraph {α : Type} (t : Tree) (ids : List α) (f : α → NodeId) :
    ∃ g, ids.foldl (fun u a => u.refreshReference (f a)) t = t.withGraph g ∧
      (t.graph.Sorted → g.Sorted) ∧
      ∀ x, g.edgeFor? x = if x ∈ ids.map f then t.causedEdge? x else t.graph.edgeFor? x := by
  induction ids generalizing t with
  | nil => exact ⟨t.graph, rfl, id, fun x => by simp⟩
  | cons a ids ih =>
    obtain ⟨g, hg, hsorted, hedge⟩ := refreshReference_eq_withGraph t (f a)
    obtain ⟨g', hg', hsorted', hedge'⟩ := ih (t.withGraph g)
    refine ⟨g', by rw [List.foldl_cons, hg, hg']; rfl, hsorted' ∘ hsorted, fun x => ?_⟩
    rw [hedge', causedEdge?_withGraph, graph_withGraph, hedge, List.map_cons]
    by_cases hx : x = f a <;> simp [hx]

/-- Recording the dependencies of a subtree gives each bound reference in it the edge that it
causes, and changes nothing else. -/
theorem refreshSubtree_eq_withGraph (t : Tree) (root : NodeId) :
    ∃ g, t.refreshSubtree root = t.withGraph g ∧ (t.graph.Sorted → g.Sorted) ∧
      ∀ x, g.edgeFor? x = if x ∈ (t.inspect root).map Prod.fst ∧ x ∈ t.bound
        then t.causedEdge? x else t.graph.edgeFor? x := by
  unfold refreshSubtree
  -- Without bound references in the tree the walk is left out.
  split
  · next h =>
    refine ⟨t.graph, rfl, id, fun x => ?_⟩
    simp [List.isEmpty_iff.mp h]
  · obtain ⟨g, hg, hsorted, hedge⟩ :=
      foldl_refreshReference_eq_withGraph t ((t.inspect root).filter (·.1 ∈ t.bound)) Prod.fst
    refine ⟨g, hg, hsorted, fun x => ?_⟩
    rw [hedge]
    congr 1
    simp only [List.mem_map, List.mem_filter, decide_eq_true_eq, eq_iff_iff]
    constructor
    · rintro ⟨found, ⟨hmem, hbound⟩, rfl⟩
      exact ⟨⟨found, hmem, rfl⟩, hbound⟩
    · rintro ⟨⟨found, hmem, rfl⟩, hbound⟩
      exact ⟨found, ⟨hmem, hbound⟩, rfl⟩

section RefreshSubtree

variable (root : NodeId)

/-- Refreshing the edges of a subtree leaves the number of nodes. -/
@[simp] theorem size_refreshSubtree : (t.refreshSubtree root).size = t.size := by
  obtain ⟨g, hg, -⟩ := refreshSubtree_eq_withGraph t root
  rw [hg, size_withGraph]

/-- Refreshing the edges of a subtree leaves the nodes. -/
@[simp] theorem node?_refreshSubtree : (t.refreshSubtree root).node? = t.node? := by
  obtain ⟨g, hg, -⟩ := refreshSubtree_eq_withGraph t root
  rw [hg, node?_withGraph]

/-- Refreshing the edges of a subtree leaves the owners. -/
@[simp] theorem parent?_refreshSubtree : (t.refreshSubtree root).parent? = t.parent? := by
  obtain ⟨g, hg, -⟩ := refreshSubtree_eq_withGraph t root
  rw [hg, parent?_withGraph]

/-- Refreshing the edges of a subtree leaves the locations. -/
@[simp] theorem location?_refreshSubtree :
    (t.refreshSubtree root).location? = t.location? := by
  obtain ⟨g, hg, -⟩ := refreshSubtree_eq_withGraph t root
  rw [hg, location?_withGraph]

/-- Refreshing the edges of a subtree leaves the targets. -/
@[simp] theorem target?_refreshSubtree : (t.refreshSubtree root).target? = t.target? := by
  obtain ⟨g, hg, -⟩ := refreshSubtree_eq_withGraph t root
  rw [hg, target?_withGraph]

/-- Refreshing the edges of a subtree leaves the kinds. -/
@[simp] theorem kind?_refreshSubtree : (t.refreshSubtree root).kind? = t.kind? := by
  obtain ⟨g, hg, -⟩ := refreshSubtree_eq_withGraph t root
  rw [hg, kind?_withGraph]

/-- Refreshing the edges of a subtree leaves the chains of owners. -/
@[simp] theorem ancestors_refreshSubtree : (t.refreshSubtree root).ancestors = t.ancestors :=
  ancestors_congr (size_refreshSubtree root) (parent?_refreshSubtree root)

/-- Refreshing the edges of a subtree leaves the edges that references cause. -/
@[simp] theorem causedEdge?_refreshSubtree :
    (t.refreshSubtree root).causedEdge? = t.causedEdge? := by
  obtain ⟨g, hg, -⟩ := refreshSubtree_eq_withGraph t root
  rw [hg, causedEdge?_withGraph]

end RefreshSubtree

end InfraModule.Tree
