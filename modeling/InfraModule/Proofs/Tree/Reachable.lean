import InfraModule.Proofs.Tree.Link
import InfraModule.Proofs.Tree.Recursion

/-!
# Trees that operations build

A tree is reachable if a sequence of operations builds it from the empty tree, whatever their
arguments; an operation that is refused counts as one that changes nothing. Each operation keeps the
tree sound and refreshes the edges that its changes concern (`Recorded`), so every reachable tree is
sound. What soundness means for ownership, and for the walks that rest on it, is
`single_ownership`.
-/

namespace InfraModule

open Result

/-! ## Operations -/

/-- A call of one of the operations that change a tree. -/
inductive Operation where
  | add (node : Node) (location : Location)
  | setProperty (id : NodeId) (key : String) (value : Option NodeId)
  | pushChild (parent child : NodeId)
  | insertEntry (object : NodeId) (key : Key) (value : NodeId)
  | detach (child : NodeId)
  | setReference (id : NodeId) (target : Option NodeId)
  | copySubtree (root : NodeId)
  | linkReferences (root : NodeId)

namespace Operation

/-- Performs the call and passes over what it returns. -/
def perform : Operation → TreeM Unit
  | .add node location => discard <| TreeM.add node location
  | .setProperty id key value => discard <| TreeM.setProperty id key value
  | .pushChild parent child => TreeM.pushChild parent child
  | .insertEntry object key value => discard <| TreeM.insertEntry object key value
  | .detach child => TreeM.detach child
  | .setReference id target => TreeM.setReference id target
  | .copySubtree root => discard <| TreeM.copySubtree root
  | .linkReferences root => discard <| TreeM.linkReferences root

/-- The tree after the call, whether or not it was refused. -/
def apply (op : Operation) (t : Tree) : Tree :=
  final (op.perform t)

/-- Whether the call copies a subtree. -/
def isCopy : Operation → Bool
  | .copySubtree _ => true
  | _ => false

end Operation

namespace Tree

/-- The tree that a sequence of operations builds. -/
def after (ops : List Operation) : Tree :=
  ops.foldl (fun t op => op.apply t) {}

/-- Some sequence of operations builds the tree. -/
def Reachable (t : Tree) : Prop :=
  ∃ ops, t = after ops

variable {t u : Tree} {x : NodeId}

/-- One more operation is applied to the tree that those before it build. -/
theorem after_concat (ops : List Operation) (op : Operation) :
    after (ops ++ [op]) = op.apply (after ops) :=
  List.foldl_append

/-! ## One operation -/

/-- What an operation does to a tree and its edges: those that were there are up to date where
something changed, and nodes that are created have the edges that they cause, unless they are
copies. -/
structure Recorded (t u : Tree) (isCopy : Bool) : Prop where
  /-- The tree is sound. -/
  sound : u.Sound
  /-- Edges of nodes that were there are refreshed where something changed. -/
  updates : t.Updates u
  /-- Created nodes have the edges that they cause, and copies have none. -/
  created : ∀ x, t.size ≤ x → x < u.size →
    u.graph.edgeFor? x = if isCopy then none else u.causedEdge? x

/-- Where there is no node, there is no target. -/
theorem target?_eq_none_of_le (hx : t.size ≤ x) : t.target? x = none := by
  simp [target?, node?_eq_none_iff.mpr hx]

/-- An operation that creates no node has no edges of new nodes to record. -/
theorem Recorded.of_size_eq (hu : u.Sound) (hupdates : t.Updates u) (hsize : u.size = t.size)
    (isCopy : Bool) : t.Recorded u isCopy :=
  ⟨hu, hupdates, fun _ hle hlt => absurd hle (Nat.not_le.mpr (hsize ▸ hlt))⟩

/-- An operation that changes nothing leaves all edges up to date. -/
theorem Recorded.refl (ht : t.Sound) (isCopy : Bool) : t.Recorded t isCopy :=
  .of_size_eq ht (Updates.refl t) rfl isCopy

/-- Adding records the edge of the new node, the only one that is created. -/
theorem Sound.recorded_add (ht : t.Sound) (n : Node) (l : Location) :
    t.Recorded ((Operation.add n l).apply t) false := by
  rw [Operation.apply, Operation.perform, final_discard]
  rcases TreeM.adoptable_or_error t n l with ha | ⟨e, he⟩
  · rw [TreeM.add_of_adoptable ha]
    have hs := ht.append (l := l) ha
    refine ⟨hs.refreshSubtree t.size, ht.updates_append ha, fun x hle hlt => ?_⟩
    have hx : x = t.size := by
      have : x < t.size + 1 := by simpa [final] using hlt
      omega
    rw [hx]
    exact hs.edgeFor?_append
  · rw [he]
    exact .refl ht _

/-- Inserting an entry records what it does, also where the key is taken. -/
theorem Sound.recorded_insertEntry (ht : t.Sound) (p : NodeId) (k : Key) (c : NodeId) :
    t.Recorded ((Operation.insertEntry p k c).apply t) false := by
  rw [Operation.apply, Operation.perform, final_discard]
  rcases TreeM.insertEntry_cases t p k c with ⟨ha, es, hp⟩ | ⟨e, he⟩
  · cases hk : es.contains k.text with
    | true =>
      rw [TreeM.insertEntry_of_contains ha hp hk]
      exact .refl ht _
    | false =>
      rw [TreeM.insertEntry_of_attachable ha hp hk]
      have hn := Node.without_entry es k c
      exact .of_size_eq (ht.move_some hp hn ha) (ht.updates_move_some hp hn ha) (by simp) _
  · rw [he]
    exact .refl ht _

/-- Detaching records what it does, also where there is nothing to detach or its owner cannot do
without it. -/
theorem Sound.recorded_detach (ht : t.Sound) (c : NodeId) :
    t.Recorded ((Operation.detach c).apply t) false := by
  rw [Operation.apply, Operation.perform]
  rcases TreeM.detach_cases ht c with ⟨p, n, n', hc, hp, hremove⟩ | ⟨-, -, hok⟩ | ⟨-, he⟩ |
    ⟨p, -, he⟩
  · rw [TreeM.detach_of_removed hc hp hremove]
    have hn := Node.without_of_remove hremove
    exact .of_size_eq (ht.move_none hp hn hc) (ht.updates_move_none hp hn hc) (by simp) _
  · rw [hok]
    exact .refl ht _
  · rw [he]
    exact .refl ht _
  · rw [he]
    exact .refl ht _

/-- Copying records no edge for what is copied. -/
theorem Sound.recorded_copySubtree (ht : t.Sound) (root : NodeId) :
    t.Recorded ((Operation.copySubtree root).apply t) true := by
  rw [Operation.apply, Operation.perform, final_discard]
  by_cases hroot : root < t.size
  · obtain ⟨d, u, hok, hu, htu, -⟩ := TreeM.copySubtree_ok ht hroot
    rw [hok]
    refine ⟨hu, htu.updates ht, fun x hle _ => ?_⟩
    rw [final, htu.graph, ht.edge (target?_eq_none_of_le hle)]
    rfl
  · rw [TreeM.copySubtree_of_le (Nat.not_lt.mp hroot)]
    exact .refl ht _

/-- Every operation records what it does, whether or not it is refused. -/
theorem Sound.recorded (ht : t.Sound) (op : Operation) : t.Recorded (op.apply t) op.isCopy := by
  cases op with
  | add n l => exact ht.recorded_add n l
  | setProperty id key value =>
    rw [Operation.apply, Operation.perform, final_discard]
    rcases TreeM.setProperty_cases t id key value with ⟨d, hid, hkey, ha⟩ | ⟨e, he⟩
    · rw [TreeM.setProperty_of_attachable ht hid hkey ha]
      refine .of_size_eq (ht.rebind hid hkey ha) (ht.updates_rebind hid hkey ha) ?_ _
      simp
    · rw [he]
      exact .refl ht _
  | pushChild p c =>
    rw [Operation.apply, Operation.perform]
    rcases TreeM.pushChild_cases t p c with ⟨ha, n, n', hp, hpush⟩ | ⟨e, he⟩
    · rw [TreeM.pushChild_of_attachable ha hp hpush]
      have hn := Node.without_of_push? hpush
      exact .of_size_eq (ht.move_some hp hn ha) (ht.updates_move_some hp hn ha) (by simp) _
    · rw [he]
      exact .refl ht _
  | insertEntry p k c => exact ht.recorded_insertEntry p k c
  | detach c => exact ht.recorded_detach c
  | setReference id target =>
    have hrebinds := TreeM.rebinds_setReference ht id target
    exact .of_size_eq hrebinds.sound hrebinds.updates hrebinds.size _
  | copySubtree root => exact ht.recorded_copySubtree root
  | linkReferences root =>
    rw [Operation.apply, Operation.perform, final_discard]
    have hrebinds := TreeM.rebinds_linkReferences ht root
    exact .of_size_eq hrebinds.sound hrebinds.updates hrebinds.size _

/-! ## Runs -/

/-- The empty tree is sound. -/
theorem sound_empty : Sound {} where
  owner := by simp [children, node?, parent?, entry?]
  nodup := by simp [children, node?, entry?]
  finite := ⟨fun x => Acc.intro x fun p hp => by simp [parent?, entry?] at hp⟩
  target := by simp [target?, node?, entry?]
  bound := by simp [target?, node?, entry?]
  edge := fun _ => rfl
  sorted := List.Pairwise.nil

/-- Every reachable tree is sound. -/
theorem sound_after (ops : List Operation) : (after ops).Sound := by
  have hrun (t : Tree) (ht : t.Sound) : (ops.foldl (fun t op => op.apply t) t).Sound := by
    induction ops generalizing t with
    | nil => exact ht
    | cons op ops ih => exact ih (op.apply t) (ht.recorded op).sound
  exact hrun {} sound_empty

/-- A tree that operations build is sound. -/
theorem Reachable.sound (h : t.Reachable) : t.Sound := by
  obtain ⟨ops, rfl⟩ := h
  exact sound_after ops

/-- Every walk down a sound tree ends. -/
theorem Sound.finite_children (h : t.Sound) : WellFounded fun c p => c ∈ t.children p := by
  have hfits (levels : Nat) (id : NodeId) (hid : t.Fits levels id) :
      Acc (fun c p => c ∈ t.children p) id := by
    induction levels generalizing id with
    | zero => exact hid.elim
    | succ levels ih => exact Acc.intro id fun c hc => ih c (hid c hc)
  refine ⟨fun id => ?_⟩
  by_cases hid : id < t.size
  · exact hfits t.size id (h.fits hid)
  · refine Acc.intro id fun c hc => ?_
    rw [children_eq_nil_of_le (Nat.not_lt.mp hid)] at hc
    simp at hc

/-- Whatever operations build a tree, children and owners agree, no child is named twice, children
and targets exist, targets are declarations, and there is no way up or down without end. So the
walks over chains and subtrees need no bound on their steps: each is given by what it does at a node
and the same walk from the owner or the children. And a node that is to be detached is always found
in its owner. -/
theorem single_ownership (ops : List Operation) :
    let t := after ops
    (∀ p c, c ∈ t.children p ↔ t.parent? c = some p) ∧
    (∀ p, (t.children p).Nodup) ∧
    (∀ p c, c ∈ t.children p → ∃ n, t.node? c = some n) ∧
    (∀ e d, t.target? e = some d → ∃ declaration, t.node? d = some (.declaration declaration)) ∧
    (WellFounded fun p c => t.parent? c = some p) ∧
    (WellFounded fun c p => c ∈ t.children p) ∧
    (∀ id, t.ancestors id = (t.parent? id).elim [] fun p => p :: t.ancestors p) ∧
    (∀ id, t.inspect id
      = (t.node? id).elim [] fun n => (id, n) :: n.children.flatMap t.inspect) ∧
    (∀ (σ : Type) (v : Visitor σ) id, t.visit v id
      = (t.node? id).elim (·, true) fun n => v.visitNode (t.visit v) id n) ∧
    (∀ id, t.write id
      = (t.node? id).elim (.error (.unknownNode id)) fun n => t.writeNode t.write id n) ∧
    (∀ id, TreeM.copySubtree id t
      = (t.entry? id).elim (.error (.unknownNode id) t) fun e => (do
          let copies ← e.node.children.mapM TreeM.copySubtree
          TreeM.append (e.node.withChildren copies) e.location : TreeM NodeId) t) ∧
    (∀ c p d u, TreeM.detach c t ≠ .error (.notAChild p d) u) := by
  intro t
  have ht : t.Sound := sound_after ops
  refine ⟨fun p c => ht.owner, ht.nodup, fun p c hc => ?_, fun e d hd => ?_, ht.finite,
    ht.finite_children, ht.ancestors_eq, ht.inspect_eq_elim, fun σ v id => ht.visit_eq_elim,
    ht.write_eq_elim, TreeM.copySubtree_eq_elim ht, fun c p d u he => ?_⟩
  · exact node?_eq_some_iff_lt.mpr (ht.lt_size_of_child hc)
  · obtain ⟨declaration, h⟩ := requireDeclaration_of_kind? (ht.target hd)
    exact ⟨declaration, requireDeclaration_eq_ok.mp h⟩
  -- Detaching succeeds, or fails in other ways than that the owner does not list the node.
  · rcases TreeM.detach_cases ht c with ⟨q, n, n', hc, hq, hremove⟩ | ⟨-, -, hok⟩ | ⟨-, herror⟩ |
      ⟨q, -, herror⟩
    · simp [TreeM.detach_of_removed hc hq hremove] at he
    · simp [hok] at he
    · simp [herror] at he
    · simp [herror] at he

end Tree

end InfraModule
