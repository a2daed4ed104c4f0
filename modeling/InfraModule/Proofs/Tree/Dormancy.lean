import InfraModule.Proofs.Tree.Binding
import InfraModule.Proofs.Tree.Clone
import InfraModule.Proofs.Tree.History

/-!
# Dependencies after linking

Linking records the edge of a reference when it binds the reference anew, and passes over one that
is bound already to what its name is found as. For most references that makes no difference, since
they have the edges that they cause. A copied reference that nothing has disturbed has none: it
shares the target of the original, and if linking finds this very target, its edge is still missing
afterwards (`edge_missing_after_linking`).

That is the only way in which edges are missing, and it takes more than copying to come about. The
copy shares targets that lie outside it, older than all its nodes (`Elder`); what linking finds lies
below the root that is linked. So the target must have been moved there after the copy was made
(`edges_exact_of_linked`).
-/

namespace InfraModule

open Result

namespace Tree

variable {t u : Tree} {x a : NodeId}

/-- What is above a node that was created later was created later too. -/
theorem Extends.size_le_of_mem_ancestors (h : t.Extends u) (ht : t.Sound) (hu : u.Sound)
    (hx : t.size ≤ x) (ha : a ∈ u.ancestors x) : t.size ≤ a := by
  induction x using hu.finite.induction with
  | _ x ih =>
    cases hp : u.parent? x with
    | none =>
      rw [hu.ancestors_eq, hp] at ha
      simp at ha
    | some p =>
      -- An older node owns older nodes only.
      have hnew : t.size ≤ p := by
        by_contra hlt
        have hold := Nat.not_le.mp hlt
        have hchild : x ∈ t.children p := by
          rw [← h.children hold]
          exact hu.owner.mpr hp
        exact Nat.not_lt.mpr hx (ht.lt_size_of_child hchild)
      rw [hu.ancestors_of_parent? hp] at ha
      rcases List.mem_cons.mp ha with rfl | ha
      · exact hnew
      · exact ih p hp hnew ha

/-- Linking disturbs the references that get another target, and no others. -/
theorem SameButTargets.undisturbed_iff (h : t.SameButTargets u) :
    t.Undisturbed u x ↔ u.target? x = t.target? x :=
  ⟨fun hx => hx.1, fun hx => ⟨hx, fun a _ => congrFun h.parent a⟩⟩

/-- A name is settled by items below the root only. -/
theorem Sound.within_of_settles (ht : t.Sound) {root e d : NodeId} {name : String}
    (h : t.Settles root e name d) : t.Within root d := by
  obtain ⟨j, -, ⟨⟨n, before, after, hinspect, -⟩, -⟩, -⟩ := h
  have hmem : (d, n) ∈ t.inspect root := by
    rw [hinspect]
    exact List.mem_append_right before List.mem_cons_self
  exact (ht.mem_inspect.mp hmem).2

end Tree

namespace History

variable {h : History}

/-- Dormant references are bound to declarations that are older than they are, and older than all
nodes above them. -/
def Elder (h : History) : Prop :=
  ∀ x d, h.dormant x = true → h.tree.target? x = some d → ∀ a ∈ x :: h.tree.ancestors x, d < a

/-- The targets of copied references are older than the copy. -/
theorem elder_of_copied {t u : Tree} {f : NodeId → NodeId} {root copy x d : NodeId}
    (ht : t.Sound) (hu : u.Sound) (htu : t.Extends u) (hcopies : t.Copies u f root copy)
    (hx : t.size ≤ x) (hd : u.target? x = some d) : ∀ a ∈ x :: u.ancestors x, d < a := by
  have hlt : x < u.size := by
    by_contra hle
    rw [Tree.target?_eq_none_of_le (Nat.not_lt.mp hle)] at hd
    cases hd
  -- The reference shares its target with the one that it is a copy of.
  obtain ⟨y, hy, rfl⟩ := (hcopies.onto x).mp ((hcopies.new x).mpr ⟨hx, hlt⟩)
  rw [hcopies.target y hy] at hd
  have hold : d < t.size := Tree.lt_size_of_kind? (ht.target hd)
  intro a ha
  refine hold.trans_le ?_
  rcases List.mem_cons.mp ha with rfl | ha
  · exact hx
  · exact htu.size_le_of_mem_ancestors ht hu hx ha

/-- After an operation dormant references still have older targets. -/
theorem Elder.step (h' : h.Elder) (hexact : h.Exact) (op : Operation) : (h.step op).Elder := by
  intro x d hdormant hd
  have ht := hexact.sound
  by_cases hx : x < h.tree.size
  · -- An undisturbed reference has the target and the owners that it had.
    simp only [History.step, hx, if_true, Bool.and_eq_true, decide_eq_true_eq] at hdormant
    obtain ⟨hbefore, hundisturbed⟩ := hdormant
    have hancestors := hundisturbed.ancestors ht (ht.recorded op).sound
    rw [History.step, hundisturbed.1] at hd
    rw [History.step, hancestors]
    exact h' x d hbefore hd
  · -- A reference that is created dormant is a part of a copy.
    simp only [History.step, hx, if_false] at hdormant
    cases op with
    | copySubtree root =>
      rw [History.step, Operation.apply, Operation.perform, final_discard] at hd ⊢
      by_cases hroot : root < h.tree.size
      · obtain ⟨copy, u, f, hok, hu, htu, hcopies, -⟩ := TreeM.copySubtree_faithful ht hroot
        rw [hok] at hd ⊢
        exact elder_of_copied ht hu htu hcopies (Nat.not_lt.mp hx) hd
      · rw [TreeM.copySubtree_of_le (Nat.not_lt.mp hroot), final,
          Tree.target?_eq_none_of_le (Nat.not_lt.mp hx)] at hd
        cases hd
    | _ => cases hdormant

/-- Along every run dormant references have older targets. -/
theorem elder_after (ops : List Operation) : (after ops).Elder := by
  have hrun (h : History) (hexact : h.Exact) (helder : h.Elder) :
      (ops.foldl History.step h).Elder := by
    induction ops generalizing h with
    | nil => exact helder
    | cons op ops ih => exact ih (h.step op) (hexact.step op) (helder.step hexact op)
  exact hrun {} (exact_after []) (fun x d hdormant => by cases hdormant)

/-- A dormant reference whose target is the same in `u`, so that nothing has been recorded. -/
def Overlooked (h : History) (u : Tree) (x : NodeId) : Prop :=
  h.dormant x = true ∧ u.target? x = h.tree.target? x

section Linked

variable {root e : NodeId} {unresolved : List Unresolved} {u : Tree}
  (hok : TreeM.linkReferences root h.tree = .ok unresolved u)

include hok

/-- Linking as an operation leaves the tree that linking leaves. -/
theorem tree_step_of_linked : (h.step (.linkReferences root)).tree = u := by
  rw [History.step, Operation.apply, Operation.perform, final_discard, hok, final]

/-- After linking those references are dormant that it has overlooked. -/
theorem dormant_step_of_linked (htu : h.tree.SameButTargets u) (he : e < h.tree.size) :
    (h.step (.linkReferences root)).dormant e = true ↔ h.Overlooked u e := by
  have happly : (Operation.linkReferences root).apply h.tree = u := tree_step_of_linked hok
  simp only [History.step, happly, he, if_true, Bool.and_eq_true, decide_eq_true_eq, Overlooked,
    htu.undisturbed_iff]

/-- After linking a reference that was overlooked has no edge, and any other has the one that it
causes. -/
theorem edgeFor?_of_linked (hexact : h.Exact) (htu : h.tree.SameButTargets u)
    (he : e < h.tree.size) :
    (h.Overlooked u e → u.graph.edgeFor? e = none) ∧
      (¬ h.Overlooked u e → u.graph.edgeFor? e = u.causedEdge? e) := by
  have hedge := (hexact.step (.linkReferences root)).edge e
  have hdormant := dormant_step_of_linked hok htu he
  rw [tree_step_of_linked hok] at hedge
  refine ⟨fun hmissed => ?_, fun hseen => ?_⟩
  · rw [hedge, if_pos (hdormant.mpr hmissed)]
  · rw [hedge, if_neg fun hasleep => hseen (hdormant.mp hasleep)]

/-- After linking a reference has the edge that it causes unless it was overlooked. -/
theorem mem_edges_of_linked (hexact : h.Exact) (htu : h.tree.SameButTargets u)
    (he : e < h.tree.size) {edge : Edge} (hvia : edge.via = e) :
    edge ∈ u.graph.edges ↔ ¬ h.Overlooked u e ∧ u.target? e = some edge.dependency ∧
      u.NearestItem e edge.dependent ∧ edge.dependent ≠ edge.dependency := by
  have hnext := hexact.step (.linkReferences root)
  have hedge := hnext.mem_edges (e := edge)
  rw [hnext.sound.causedEdge?_eq_some, tree_step_of_linked hok, hvia, ← Bool.not_eq_true,
    dormant_step_of_linked hok htu he] at hedge
  rw [hedge]
  simp only [true_and]

end Linked

/-- Along every run linking succeeds, whatever the root. Afterwards a reference below the root whose
name is a literal has the edge that it causes, from the nearest item above it to its target if the
two differ, and no other; unless it is a copy that nothing has disturbed and that linking finds to
be bound already to what it is to be bound to. Such a reference has no edge. If it has a target,
this is a declaration below the root that is older than the reference and all nodes above it, the
root among them, and so has been moved there since the copy was made. -/
theorem edges_exact_of_linked (ops : List Operation) (root : NodeId) :
    let h := after ops
    let t := Tree.after ops
    ∃ unresolved u, TreeM.linkReferences root t = .ok unresolved u ∧
      ∀ e ∈ t.references root, ∀ name, t.referenceName? e = some name →
        (¬ h.Overlooked u e → ∀ edge, edge ∈ u.graph.edges ∧ edge.via = e ↔
          edge.via = e ∧ u.target? e = some edge.dependency ∧
            u.NearestItem e edge.dependent ∧ edge.dependent ≠ edge.dependency) ∧
        (h.Overlooked u e → (∀ edge ∈ u.graph.edges, edge.via ≠ e) ∧
          ∀ d, u.target? e = some d → u.Within root d ∧ ∀ a ∈ e :: u.ancestors e, d < a) := by
  intro h t
  have htree : h.tree = t := tree_after ops
  have hexact : h.Exact := exact_after ops
  have ht : t.Sound := htree ▸ hexact.sound
  obtain ⟨u, hok, htu, hu, htarget, -⟩ :=
    TreeM.linkReferences_ok root ht (Tree.SameButTargets.refl t) ht
  refine ⟨_, u, hok, fun e he name hname => ?_⟩
  have hlt : e < t.size := by
    obtain ⟨n, hn, -⟩ := ht.node?_of_mem_references he
    exact Tree.lt_size_of_node? hn
  have hmem (edge : Edge) (hvia : edge.via = e) :=
    mem_edges_of_linked (htree ▸ hok) hexact (htree ▸ htu) (htree ▸ hlt) hvia
  -- The four goals: the edges if it is seen; and if it is overlooked, that there is none, that its
  -- target lies below the root, and that it is older than all around the reference.
  refine ⟨fun hseen edge => ?_, fun hmissed => ⟨fun edge hedge hvia => ?_, fun d hd => ⟨?_, ?_⟩⟩⟩
  · constructor
    · rintro ⟨hedge, hvia⟩
      exact ⟨hvia, ((hmem edge hvia).mp hedge).2⟩
    · rintro ⟨hvia, hcaused⟩
      exact ⟨(hmem edge hvia).mpr ⟨hseen, hcaused⟩, hvia⟩
  · exact ((hmem edge hvia).mp hedge).1 hmissed
  · -- What a name is found as lies below the root.
    rw [htarget, if_pos he, Tree.boundTo?_of_name hname] at hd
    rw [Tree.Within, htu.ancestors]
    exact ht.within_of_settles (Tree.lookUp_eq_some_iff.mp hd)
  · rw [htu.ancestors, ← htree]
    exact elder_after ops e d hmissed.1 (hmissed.2.symm.trans hd)

/-- The list of items `6` holds a variable `3` with a reference `5` to the variable `1`. Once the
variable `1` has been moved into the copy `11` of the list, linking the copy finds it as the target
of the copied reference `9`, which has this target already. So the item `10` that encloses the
reference does not come to depend on it. -/
theorem edge_missing_after_linking :
    let l : Location := default
    let text (s : String) := Operation.add (.expression (.literal (.string s))) l
    let declare (keyword : NodeId) :=
      ((Declaration.new? .variable (some keyword)).map Node.declaration).toList.map (.add · l)
    let ops := [text "Bucket"] ++ declare 0 ++ [text "Name"] ++ declare 2 ++ [text "Bucket",
      .add (.expression (.call (.ref 4 (some 1)))) l, .setProperty 3 "Value" (some 5),
      .add (.collection [3]) l, .copySubtree 6, .pushChild 11 1]
    ∃ u, TreeM.linkReferences 11 (Tree.after ops) = .ok [] u ∧
      9 ∈ u.references 11 ∧ u.referenceName? 9 = some "Bucket" ∧ u.target? 9 = some 1 ∧
      u.NearestItem 9 10 ∧ ∀ edge ∈ u.graph.edges, edge.via ≠ 9 := by
  intro l text declare ops
  have ht : (Tree.after ops).Sound := Tree.sound_after ops
  obtain ⟨u, hok, -, hu, -⟩ :=
    TreeM.linkReferences_ok 11 ht (Tree.SameButTargets.refl (Tree.after ops)) ht
  have hfinal : u = final (TreeM.linkReferences 11 (Tree.after ops)) := by rw [hok, final]
  have hresolved : (Tree.after ops).unresolved? 11 9 = none := by decide +kernel
  have hreferences : (Tree.after ops).references 11 = [9] := by decide +kernel
  rw [hreferences, List.filterMap_cons_none hresolved] at hok
  refine ⟨u, hok, ?_, ?_, ?_, hu.enclosingItem?_eq_some.mp ?_, ?_⟩
  all_goals
    rw [hfinal]
    decide +kernel

end History

end InfraModule
