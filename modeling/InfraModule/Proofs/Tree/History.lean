import InfraModule.Proofs.Tree.Reachable
import Mathlib.Data.List.Sort

/-!
# Dependencies along a run

A reference causes a dependency of the nearest item above it on its target, if the two differ. The
edges that a tree keeps are exactly those that its references cause, except that a copied reference
is dormant, and has no edge, until it is bound anew or a subtree that holds it is attached or
detached. `History` follows which references are dormant; that the edges are exact is an invariant
of every run (`Exact`), since each operation refreshes the edges of the references that it disturbs
and leaves all others as they are.
-/

namespace InfraModule

namespace Tree

variable {t : Tree} {x a : NodeId}

/-- The nearest of the owners above a node that declares an item. -/
inductive NearestItem (t : Tree) : NodeId → NodeId → Prop
  | owner {x a : NodeId} (h : t.parent? x = some a) (ha : t.isItem a = true) : NearestItem t x a
  | above {x p a : NodeId} (h : t.parent? x = some p) (hp : t.isItem p = false)
      (ha : NearestItem t p a) : NearestItem t x a

/-- Going up from a node finds the nearest item above it. -/
theorem Sound.enclosingItem?_eq_some (h : t.Sound) :
    t.enclosingItem? x = some a ↔ t.NearestItem x a := by
  induction x using h.finite.induction with
  | _ x ih =>
    rw [enclosingItem?, h.ancestors_eq]
    cases hp : t.parent? x with
    | none =>
      refine iff_of_false (by simp) fun hnearest => ?_
      cases hnearest with
      | owner h' | above h' => simp [hp] at h'
    | some p =>
      -- The search ends at the owner if that is an item, and goes on from there if not.
      have hfind : (p :: t.ancestors p).find? t.isItem
          = if t.isItem p = true then some p else t.enclosingItem? p := by
        rw [List.find?_cons, enclosingItem?]
        cases t.isItem p <;> rfl
      rw [Option.elim_some, hfind]
      split
      · next hitem =>
        constructor
        · rintro ⟨⟩
          exact .owner hp hitem
        · intro hnearest
          cases hnearest with
          | owner h' => rw [← hp, h']
          | above h' hnot => simp_all
      · next hitem =>
        rw [ih p hp]
        constructor
        · exact .above hp (by simpa using hitem)
        · intro hnearest
          cases hnearest with
          | owner h' => simp_all
          | above h' hnot ha =>
            rw [hp, Option.some_inj] at h'
            exact h' ▸ ha

/-- A reference causes the dependency of the nearest item above it on its target, if they differ. -/
theorem Sound.causedEdge?_eq_some (h : t.Sound) {e : Edge} :
    t.causedEdge? x = some e ↔ e.via = x ∧ t.target? x = some e.dependency ∧
      t.NearestItem x e.dependent ∧ e.dependent ≠ e.dependency := by
  obtain ⟨dependent, dependency, via⟩ := e
  rw [← h.enclosingItem?_eq_some]
  unfold causedEdge?
  split
  · next a b ha hb =>
    rw [ha, hb]
    simp only [Option.some_inj]
    split
    · next heq => simp_all
    · next hne =>
      simp only [Option.some_inj, Edge.mk.injEq]
      constructor
      · rintro ⟨rfl, rfl, rfl⟩
        exact ⟨rfl, rfl, rfl, hne⟩
      · rintro ⟨rfl, rfl, rfl, -⟩
        exact ⟨rfl, rfl, rfl⟩
  · next hnone =>
    refine iff_of_false (by simp) ?_
    rintro ⟨-, htarget, henclosing, -⟩
    exact hnone _ _ henclosing htarget

instance {u : Tree} : Decidable (t.Undisturbed u x) :=
  inferInstanceAs (Decidable (_ ∧ _))

end Tree

/-! ## Dormant references -/

/-- A tree and which of its references are dormant. -/
structure History where
  /-- The tree. -/
  tree : Tree := {}
  /-- The references that have been copied and not been disturbed since. -/
  dormant : NodeId → Bool := fun _ => false

namespace History

variable {h : History} {op : Operation}

/-- After an operation a reference is dormant if it was and has not been disturbed, or if the
operation has created it as a part of a copy. -/
def step (h : History) (op : Operation) : History where
  tree := op.apply h.tree
  dormant := fun x =>
    if x < h.tree.size then h.dormant x && decide (h.tree.Undisturbed (op.apply h.tree) x)
    else op.isCopy

/-- What a sequence of operations leads to. -/
def after (ops : List Operation) : History :=
  ops.foldl step {}

/-- A sound tree whose references have the edges that they cause, unless they are dormant. -/
structure Exact (h : History) : Prop where
  /-- The tree is sound. -/
  sound : h.tree.Sound
  /-- Dormant references have no edge, and other references have the one that they cause. -/
  edge : ∀ x, h.tree.graph.edgeFor? x = if h.dormant x then none else h.tree.causedEdge? x

/-- Every operation keeps the edges exact. -/
theorem Exact.step (hexact : h.Exact) (op : Operation) : (h.step op).Exact := by
  have ht := hexact.sound
  have hrecorded := ht.recorded op
  refine ⟨hrecorded.sound, fun x => ?_⟩
  by_cases hx : x < h.tree.size
  · by_cases hundisturbed : h.tree.Undisturbed (op.apply h.tree) x
    · -- The edge stays, and what the reference causes does too.
      have hcaused := hrecorded.updates.causedEdge?_of_undisturbed ht hrecorded.sound hundisturbed
      simp only [History.step, hx, hundisturbed, hcaused]
      rw [hrecorded.updates.kept x hx hundisturbed, hexact.edge]
      simp
    · -- A reference that is disturbed wakes up and has the edge that it causes.
      simp only [History.step, hx, hundisturbed]
      rw [hrecorded.updates.caused x hx hundisturbed]
      simp
  · simp only [History.step, hx]
    by_cases hnew : x < (op.apply h.tree).size
    · simpa using hrecorded.created x (Nat.not_lt.mp hx) hnew
    · -- Where there is no node, nothing is caused and nothing kept.
      have hnone := Tree.target?_eq_none_of_le (Nat.not_lt.mp hnew)
      rw [hrecorded.sound.edge hnone, Tree.causedEdge?_of_target?_eq_none hnone]
      simp

/-- The edges are exact along every run. -/
theorem exact_after (ops : List Operation) : (after ops).Exact := by
  have hrun (h : History) (hexact : h.Exact) : (ops.foldl History.step h).Exact := by
    induction ops generalizing h with
    | nil => exact hexact
    | cons op ops ih => exact ih (h.step op) (hexact.step op)
  refine hrun {} ⟨Tree.sound_empty, fun x => ?_⟩
  simp [Tree.causedEdge?_of_target?_eq_none (Tree.target?_eq_none_of_le (t := {}) (Nat.zero_le x)),
    DependencyGraph.edgeFor?]

/-- The tree of a history is the one that the operations build. -/
theorem tree_after (ops : List Operation) : (after ops).tree = Tree.after ops := by
  have hrun (h : History) :
      (ops.foldl History.step h).tree = ops.foldl (fun t op => op.apply t) h.tree := by
    induction ops generalizing h with
    | nil => rfl
    | cons op ops ih => exact ih (h.step op)
  exact hrun {}

/-- The edges are those that references cause which are not dormant. -/
theorem Exact.mem_edges (hexact : h.Exact) {e : Edge} : e ∈ h.tree.graph.edges ↔
    h.dormant e.via = false ∧ h.tree.causedEdge? e.via = some e := by
  have hedge : h.tree.graph.edgeFor? e.via = some e ↔ e ∈ h.tree.graph.edges ∧ e.via = e.via :=
    hexact.sound.sorted.edgeFor?_eq_some
  rw [hexact.edge] at hedge
  rw [← and_iff_left_of_imp (a := e ∈ h.tree.graph.edges) fun _ => rfl, ← hedge]
  cases h.dormant e.via <;> simp

/-- The edges are those that the references cause which are not dormant, in the order of the
references. -/
theorem Exact.edges_eq (hexact : h.Exact) : h.tree.graph.edges
    = ((List.range h.tree.size).filter fun x => !h.dormant x).filterMap h.tree.causedEdge? := by
  have hirrefl : Std.Irrefl fun e f : Edge => e.via < f.via := ⟨fun e => Nat.lt_irrefl e.via⟩
  have hantisymm : Std.Antisymm fun e f : Edge => e.via < f.via :=
    ⟨fun e f hef hfe => absurd hfe (Nat.lt_asymm hef)⟩
  have hpairwise : (((List.range h.tree.size).filter fun x => !h.dormant x).filterMap
      h.tree.causedEdge?).Pairwise fun e f => e.via < f.via := by
    refine (List.pairwise_lt_range.filter _).filterMap _ fun x y hxy e he f hf => ?_
    rwa [Tree.causedEdge?_via he, Tree.causedEdge?_via hf]
  -- Both lists are in order, so they are equal if they have the same members.
  refine hexact.sound.sorted.eq_of_mem_iff hpairwise fun e => ?_
  rw [hexact.mem_edges]
  simp only [List.mem_filterMap, List.mem_filter, List.mem_range, Bool.not_eq_true']
  constructor
  · rintro ⟨hdormant, hcaused⟩
    have hlt : e.via < h.tree.size := by
      by_contra hle
      have hnone := Tree.target?_eq_none_of_le (Nat.not_lt.mp hle)
      simp [Tree.causedEdge?_of_target?_eq_none hnone] at hcaused
    exact ⟨e.via, ⟨hlt, hdormant⟩, hcaused⟩
  · rintro ⟨x, ⟨-, hdormant⟩, hcaused⟩
    rw [Tree.causedEdge?_via hcaused]
    exact ⟨hdormant, hcaused⟩

/-- Along every run an edge is kept exactly if its reference is not dormant, has the target to which
the edge leads, and lies nearest below the item from which it starts, where the two differ. So the
edges are those that would be recorded from scratch, leaving dormant references aside, and an item
depends on a declaration exactly if such a reference to the one lies nearest below the other. -/
theorem dependencies_exact (ops : List Operation) :
    let h := after ops
    let t := Tree.after ops
    (∀ e, e ∈ t.graph.edges ↔ h.dormant e.via = false ∧ t.target? e.via = some e.dependency ∧
      t.NearestItem e.via e.dependent ∧ e.dependent ≠ e.dependency) ∧
    t.graph.edges
      = ((List.range t.size).filter fun x => !h.dormant x).filterMap t.causedEdge? ∧
    (∀ a b, b ∈ t.graph.dependenciesOf a ↔ a ∈ t.graph.dependentsOf b) ∧
    (∀ a b, b ∈ t.graph.dependenciesOf a ↔ a ≠ b ∧
      ∃ x, h.dormant x = false ∧ t.target? x = some b ∧ t.NearestItem x a) := by
  intro h t
  have hexact : h.Exact := exact_after ops
  have htree : h.tree = t := tree_after ops
  have hmem (e : Edge) : e ∈ t.graph.edges ↔ h.dormant e.via = false ∧
      t.target? e.via = some e.dependency ∧ t.NearestItem e.via e.dependent ∧
      e.dependent ≠ e.dependency := by
    rw [← htree, hexact.mem_edges, hexact.sound.causedEdge?_eq_some]
    simp
  refine ⟨hmem, htree ▸ hexact.edges_eq, fun a b => ?_, fun a b => ?_⟩
  · rw [DependencyGraph.mem_dependenciesOf, DependencyGraph.mem_dependentsOf]
  · rw [DependencyGraph.mem_dependenciesOf]
    constructor
    · rintro ⟨e, he, rfl, rfl⟩
      obtain ⟨hdormant, htarget, hnearest, hne⟩ := (hmem e).mp he
      exact ⟨hne, e.via, hdormant, htarget, hnearest⟩
    · rintro ⟨hne, x, hdormant, htarget, hnearest⟩
      exact ⟨⟨a, b, x⟩, (hmem ⟨a, b, x⟩).mpr ⟨hdormant, htarget, hnearest, hne⟩, rfl, rfl⟩

end History

end InfraModule
