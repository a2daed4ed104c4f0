import InfraModule.Proofs.Tree.Move

/-!
# Creating nodes and binding references

A root is created over roots that it takes over, and a reference is bound anew. Both keep a sound
tree sound. Creating a root refreshes the edges of the references in the subtrees that it takes over
and of the root itself; binding a reference refreshes its edge.
-/

namespace InfraModule.Tree

variable {t : Tree} {e x : NodeId} {n : Node} {l : Location}

/-! ## Creating -/

/-- A node can be created over its children: they are distinct roots, and its target is declared. -/
structure Adoptable (t : Tree) (n : Node) : Prop where
  /-- The children are roots. -/
  children : ∀ d ∈ n.children, d < t.size ∧ t.parent? d = none
  /-- The children are distinct. -/
  nodup : n.children.Nodup
  /-- The target is a declaration. -/
  target : ∀ d, n.target = some d → (t.kind? d).isSome = true

section Append

variable (hchildren : ∀ d ∈ n.children, d < t.size ∧ t.parent? d = none)

include hchildren in
/-- A created node owns the roots that it names, and no other owner changes. -/
theorem parent?_append : (t.append n l).parent? x
    = if x ∈ n.children then some t.size else t.parent? x := by
  by_cases hx : x = t.size
  · have hnot : t.size ∉ n.children := fun hmem => (hchildren _ hmem).1.ne rfl
    rw [hx, parent?_append_self, if_neg hnot, parent?_eq_none_of_le (le_refl _)]
  · exact parent?_append_of_ne (fun d hd => (hchildren d hd).1) hx

/-- A node that is created has its children, and others keep theirs. -/
theorem children_append : (t.append n l).children x
    = if x = t.size then n.children else t.children x := by
  by_cases hx : x = t.size
  · rw [hx, if_pos rfl, children_of_node? node?_append_self]
  · rw [if_neg hx, children_congr (node?_append_of_ne hx)]

/-- A node that is created has its target, and others keep theirs. -/
theorem target?_append : (t.append n l).target? x
    = if x = t.size then n.target else t.target? x := by
  by_cases hx : x = t.size
  · rw [hx, if_pos rfl, target?_of_node? node?_append_self]
  · rw [if_neg hx, target?_congr (node?_append_of_ne hx)]

/-- A node that is created has its kind, and others keep theirs. -/
theorem kind?_append : (t.append n l).kind? x
    = if x = t.size then n.kind? else t.kind? x := by
  by_cases hx : x = t.size
  · rw [hx, if_pos rfl, kind?_of_node? node?_append_self]
  · rw [if_neg hx, kind?_congr (node?_append_of_ne hx)]

/-- Creating a root over distinct roots keeps the tree sound. -/
theorem Sound.append (h : t.Sound) (ha : t.Adoptable n) : (t.append n l).Sound := by
  obtain ⟨hchildren, hnodup, htarget⟩ := ha
  constructor
  case owner =>
    intro p c
    rw [children_append, parent?_append hchildren]
    split
    · next hp =>
      split
      · next hc => simp [hc, hp]
      · next hc =>
        refine iff_of_false hc fun howner => ?_
        exact (h.lt_size_of_owner howner).ne hp
    · next hp =>
      rw [h.owner]
      split
      · next hc => simp [(hchildren c hc).2, Ne.symm hp]
      · rfl
  case nodup =>
    intro p
    rw [children_append]
    split
    · exact hnodup
    · exact h.nodup p
  case finite =>
    -- The new node is a root, so chains end there or where they ended.
    have hnew : Acc (fun p c => (t.append n l).parent? c = some p) t.size :=
      Acc.intro t.size fun q hq => by simp at hq
    refine ⟨fun y => ?_⟩
    induction y using h.finite.induction with
    | _ y ih =>
      refine Acc.intro y fun q hq => ?_
      rw [parent?_append hchildren] at hq
      split at hq
      · cases hq
        exact hnew
      · exact ih q hq
  case target =>
    intro e d he
    rw [target?_append] at he
    have hd : (t.kind? d).isSome = true := by
      split at he
      · exact htarget d he
      · exact h.target he
    -- A target is a declaration that was there, so it is not the new node.
    have hne : d ≠ t.size := by
      rintro rfl
      simp [kind?_eq, node?_eq_none_iff.mpr (le_refl _)] at hd
    rwa [kind?_append, if_neg hne]
  case bound =>
    intro e
    rw [mem_bound_append, target?_append, h.bound]
    by_cases he : e = t.size
    · simp [he, target?, node?_eq_none_iff.mpr (le_refl t.size)]
    · simp [he]
  case edge =>
    intro e he
    rw [target?_append] at he
    rw [graph_append]
    refine h.edge ?_
    split at he
    · next hsize => simp [hsize, target?, node?_eq_none_iff.mpr (le_refl t.size)]
    · exact he
  case sorted =>
    rw [graph_append]
    exact h.sorted

/-- The subtree at a created node is that node and the subtrees at its children. -/
theorem within_append_size (h : t.Sound) (hs : (t.append n l).Sound)
    (hchildren : ∀ d ∈ n.children, d < t.size ∧ t.parent? d = none) (hx : x < t.size) :
    (t.append n l).Within t.size x ↔ ∃ d ∈ n.children, t.Within d x := by
  induction x using h.finite.induction with
  | _ x ih =>
    have hxp : (t.append n l).parent? x = _ := parent?_append hchildren
    have hne : t.size ≠ x := hx.ne'
    -- The chain of a child of the new node now ends there; any other chain goes on as before.
    by_cases hmem : x ∈ n.children
    · rw [if_pos hmem] at hxp
      rw [within_iff_of_parent? hs hxp]
      exact iff_of_true (Or.inr (within_refl _ _)) ⟨x, hmem, within_refl t x⟩
    · rw [if_neg hmem] at hxp
      have hnotChild {d : NodeId} (hd : d ∈ n.children) : d ≠ x := fun he => hmem (he ▸ hd)
      cases hp : t.parent? x with
      | none =>
        rw [within_iff_of_root hs (hxp.trans hp)]
        refine iff_of_false hne ?_
        rintro ⟨d, hd, hwithin⟩
        exact hnotChild hd ((within_iff_of_root h hp).mp hwithin)
      | some p =>
        rw [within_iff_of_parent? hs (hxp.trans hp), ih p hp (h.lt_size_of_owner hp)]
        constructor
        · rintro (he | ⟨d, hd, hwithin⟩)
          · exact (hne he).elim
          · exact ⟨d, hd, (within_iff_of_parent? h hp).mpr (Or.inr hwithin)⟩
        · rintro ⟨d, hd, hwithin⟩
          rcases (within_iff_of_parent? h hp).mp hwithin with he | hwithin
          · exact (hnotChild hd he).elim
          · exact Or.inr ⟨d, hd, hwithin⟩

/-- Creating a root disturbs the subtrees that it takes over. -/
theorem undisturbed_append (hchildren : ∀ d ∈ n.children, d < t.size ∧ t.parent? d = none)
    (hx : x < t.size) : t.Undisturbed (t.append n l) x ↔ ¬ ∃ d ∈ n.children, t.Within d x := by
  constructor
  · rintro h ⟨d, hd, hwithin⟩
    have hparent := h.2 d hwithin
    rw [parent?_append hchildren, if_pos hd, (hchildren d hd).2] at hparent
    simp at hparent
  · intro h
    refine ⟨by rw [target?_append, if_neg hx.ne], fun a ha => ?_⟩
    rw [parent?_append hchildren, if_neg fun hmem => h ⟨a, hmem, ha⟩]

/-- Creating a root and recording the dependencies of its subtree refreshes the edges of the
references in the subtrees that it takes over. -/
theorem Sound.updates_append (h : t.Sound) (ha : t.Adoptable n) :
    t.Updates ((t.append n l).refreshSubtree t.size) := by
  have hs : (t.append n l).Sound := h.append ha
  have hundisturbed {x : NodeId} (hx : x < t.size) :
      t.Undisturbed ((t.append n l).refreshSubtree t.size) x
        ↔ ¬ (t.append n l).Within t.size x := by
    rw [within_append_size h hs ha.children hx, ← undisturbed_append ha.children hx, Undisturbed,
      target?_refreshSubtree, parent?_refreshSubtree]
    rfl
  constructor
  case size_le => simp
  case kind =>
    intro x hx
    rw [kind?_refreshSubtree, kind?_append, if_neg hx.ne]
  case kept =>
    intro x hx hkept
    rw [hundisturbed hx] at hkept
    rw [hs.edgeFor?_refreshSubtree, if_neg (by tauto), graph_append]
  case caused =>
    intro x hx hcaused
    rw [hundisturbed hx, not_not] at hcaused
    have hx' : x < (t.append n l).size := by simp; omega
    rw [hs.edgeFor?_refreshSubtree, if_pos ⟨hx', hcaused⟩, causedEdge?_refreshSubtree]

/-- A created root has the edge that it causes. -/
theorem Sound.edgeFor?_append (hs : (t.append n l).Sound) :
    ((t.append n l).refreshSubtree t.size).graph.edgeFor? t.size
      = ((t.append n l).refreshSubtree t.size).causedEdge? t.size := by
  rw [hs.edgeFor?_refreshSubtree, if_pos ⟨by simp, within_refl _ _⟩, causedEdge?_refreshSubtree]

end Append

/-! ## Binding a reference -/

/-- Binds a reference and indexes it, before its dependency is recorded. -/
def bindTo (t : Tree) (e : NodeId) (n : Node) (target : Option NodeId) : Tree :=
  (t.setNode e (n.withTarget target)).setBound e target.isSome

section BindTo

variable {target : Option NodeId}

/-- Binding a reference leaves the number of nodes. -/
@[simp] theorem size_bindTo : (t.bindTo e n target).size = t.size :=
  size_setNode (n.withTarget target)

/-- Binding a reference leaves the owners. -/
@[simp] theorem parent?_bindTo : (t.bindTo e n target).parent? = t.parent? :=
  parent?_setNode (n.withTarget target)

/-- Binding a reference replaces its node by one with the new target. -/
theorem node?_bindTo (he : e < t.size) :
    (t.bindTo e n target).node? x = if x = e then some (n.withTarget target) else t.node? x := by
  have hnode : (t.bindTo e n target).node? x = (t.setNode e (n.withTarget target)).node? x := rfl
  by_cases hx : x = e
  · rw [hnode, hx, node?_setNode_self he, if_pos rfl]
  · rw [hnode, node?_setNode_of_ne hx, if_neg hx]

/-- Binding a reference leaves the locations. -/
@[simp] theorem location?_bindTo : (t.bindTo e n target).location? = t.location? :=
  location?_setNode (n.withTarget target)

/-- Binding a reference changes no children. -/
theorem children_bindTo (he : t.node? e = some n) :
    (t.bindTo e n target).children = t.children := by
  funext x
  rw [children, node?_bindTo (lt_size_of_node? he), children]
  split
  · next hx => simp [hx, he]
  · rfl

/-- Binding a reference changes no kind. -/
theorem kind?_bindTo (he : t.node? e = some n) : (t.bindTo e n target).kind? = t.kind? := by
  funext x
  rw [kind?_eq, node?_bindTo (lt_size_of_node? he), kind?_eq]
  split
  · next hx => simp [hx, he]
  · rfl

/-- Binding a reference changes its target and no other. -/
theorem target?_bindTo (he : t.node? e = some n) (href : n.isReference = true) :
    (t.bindTo e n target).target? x = if x = e then target else t.target? x := by
  rw [target?, node?_bindTo (lt_size_of_node? he)]
  split
  · exact Node.target_withTarget href target
  · rfl

/-- Binds a reference, indexes it and records its dependency. -/
def retarget (t : Tree) (e : NodeId) (n : Node) (target : Option NodeId) : Tree :=
  (t.bindTo e n target).refreshReference e

/-- Binding a reference and recording its dependency gives it the edge that it causes, and leaves
the other edges. -/
theorem retarget_eq_withGraph (t : Tree) (e : NodeId) (n : Node) (target : Option NodeId) :
    ∃ g, t.retarget e n target = (t.bindTo e n target).withGraph g ∧ (t.graph.Sorted → g.Sorted) ∧
      ∀ x, g.edgeFor? x = if x = e then (t.bindTo e n target).causedEdge? x
        else t.graph.edgeFor? x :=
  refreshReference_eq_withGraph (t.bindTo e n target) e

/-- Retargeting a reference leaves the number of nodes. -/
@[simp] theorem size_retarget : (t.retarget e n target).size = t.size := by
  obtain ⟨g, hg, -⟩ := t.retarget_eq_withGraph e n target
  rw [hg, size_withGraph, size_bindTo]

/-- Retargeting a reference leaves the owners. -/
@[simp] theorem parent?_retarget : (t.retarget e n target).parent? = t.parent? := by
  obtain ⟨g, hg, -⟩ := t.retarget_eq_withGraph e n target
  rw [hg, parent?_withGraph, parent?_bindTo]

/-- Retargeting a reference leaves the locations. -/
@[simp] theorem location?_retarget : (t.retarget e n target).location? = t.location? := by
  obtain ⟨g, hg, -⟩ := t.retarget_eq_withGraph e n target
  rw [hg, location?_withGraph, location?_bindTo]

/-- After a reference is bound its node has the new target. -/
theorem node?_retarget (he : e < t.size) :
    (t.retarget e n target).node? x = if x = e then some (n.withTarget target) else t.node? x := by
  obtain ⟨g, hg, -⟩ := t.retarget_eq_withGraph e n target
  rw [hg, node?_withGraph, node?_bindTo he]

/-- After a reference is bound it has the new target, and others keep theirs. -/
theorem target?_retarget (he : t.node? e = some n) (href : n.isReference = true) :
    (t.retarget e n target).target? x = if x = e then target else t.target? x := by
  obtain ⟨g, hg, -⟩ := t.retarget_eq_withGraph e n target
  rw [hg, target?_withGraph, target?_bindTo he href]

/-- Binding a reference to a declaration, or unbinding it, keeps the tree sound. -/
theorem Sound.retarget (h : t.Sound) (he : t.node? e = some n)
    (href : n.isReference = true) (htarget : ∀ d, target = some d → (t.kind? d).isSome = true) :
    (t.retarget e n target).Sound := by
  obtain ⟨g, hg, hsorted, hedge⟩ := t.retarget_eq_withGraph e n target
  rw [hg]
  constructor
  case owner =>
    intro p c
    rw [children_withGraph, parent?_withGraph, children_bindTo he, parent?_bindTo]
    exact h.owner
  case nodup =>
    intro p
    rw [children_withGraph, children_bindTo he]
    exact h.nodup p
  case finite =>
    rw [parent?_withGraph, parent?_bindTo]
    exact h.finite
  case target =>
    intro x d hx
    rw [kind?_withGraph, kind?_bindTo he]
    rw [target?_withGraph, target?_bindTo he href] at hx
    split at hx
    · exact htarget d hx
    · exact h.target hx
  case bound =>
    intro x
    rw [target?_withGraph, target?_bindTo he href, bound_withGraph, bindTo, mem_bound_setBound]
    split
    · rfl
    · exact h.bound
  case edge =>
    intro x hx
    rw [target?_withGraph] at hx
    rw [graph_withGraph, hedge, causedEdge?_of_target?_eq_none hx]
    rw [target?_bindTo he href] at hx
    split
    · rfl
    · next hne =>
      rw [if_neg hne] at hx
      exact h.edge hx
  case sorted => exact hsorted h.sorted

/-- Binding a reference to another declaration than before refreshes its edge and no other. -/
theorem updates_retarget (he : t.node? e = some n) (href : n.isReference = true)
    (hne : n.target ≠ target) : t.Updates (t.retarget e n target) := by
  obtain ⟨g, hg, -, hedge⟩ := t.retarget_eq_withGraph e n target
  -- No owner changes, so only the reference itself is disturbed.
  have hundisturbed {x : NodeId} : t.Undisturbed (t.retarget e n target) x ↔ x ≠ e := by
    constructor
    · rintro h rfl
      have hsame := h.1
      rw [target?_retarget he href, if_pos rfl, target?_of_node? he] at hsame
      exact hne hsame.symm
    · intro hx
      refine ⟨?_, fun a _ => by rw [parent?_retarget]⟩
      rw [target?_retarget he href, if_neg hx]
  constructor
  case size_le => rw [hg]; simp
  case kind =>
    intro x _
    rw [hg, kind?_withGraph, kind?_bindTo he]
  case kept =>
    intro x _ hx
    rw [hundisturbed] at hx
    rw [hg, graph_withGraph, hedge, if_neg hx]
  case caused =>
    intro x _ hx
    rw [hundisturbed, not_not] at hx
    rw [hg, graph_withGraph, hedge, if_pos hx, causedEdge?_withGraph]

end BindTo

end InfraModule.Tree
