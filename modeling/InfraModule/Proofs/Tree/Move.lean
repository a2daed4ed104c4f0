import InfraModule.Proofs.Tree.Ownership

/-!
# Attaching and detaching

A root is attached to a node that now names it, and a child is detached from a node that no longer
names it. Both keep a sound tree sound.

As with every change of a tree, it is said exactly which edges are fresh afterwards. A reference is
`Undisturbed` by a change if it has the target that it had and every node from it upwards has the
owner that it had. An undisturbed reference keeps the edge that it had, whatever that was; any other
reference has the edge that it causes (`Updates`).
-/

namespace InfraModule.Tree

variable {t s u : Tree} {p c x : NodeId} {n n' : Node}

/-! ## Fresh edges -/

/-- Neither the target of a reference nor an owner above it has changed. -/
def Undisturbed (t u : Tree) (x : NodeId) : Prop :=
  u.target? x = t.target? x ∧ ∀ a ∈ x :: t.ancestors x, u.parent? a = t.parent? a

/-- What a change of a tree does to the nodes and edges that were there: kinds stay, and a reference
has the edge that it had, if it is undisturbed, and the edge that it causes, if not. -/
structure Updates (t u : Tree) : Prop where
  /-- No node is lost. -/
  size_le : t.size ≤ u.size
  /-- Kinds of declarations stay. -/
  kind : ∀ x < t.size, u.kind? x = t.kind? x
  /-- An undisturbed reference has the edge that it had. -/
  kept : ∀ x < t.size, t.Undisturbed u x → u.graph.edgeFor? x = t.graph.edgeFor? x
  /-- Any other reference has the edge that it causes. -/
  caused : ∀ x < t.size, ¬ t.Undisturbed u x → u.graph.edgeFor? x = u.causedEdge? x

/-- Above an undisturbed reference there are the same owners as before. -/
theorem Undisturbed.ancestors (ht : t.Sound) (hu : u.Sound) (h : t.Undisturbed u x) :
    u.ancestors x = t.ancestors x :=
  ht.ancestors_congr hu h.2

/-- What an undisturbed reference causes is what it caused. -/
theorem Updates.causedEdge?_of_undisturbed (ht : t.Sound) (hu : u.Sound) (h : t.Updates u)
    (hx : t.Undisturbed u x) : u.causedEdge? x = t.causedEdge? x := by
  refine causedEdge?_congr (hx.ancestors ht hu) (fun a ha => ?_) hx.1
  exact isItem_congr (h.kind a (ht.lt_size_of_chain (ht.chain_ancestors x) a ha))

/-- Where nothing is changed, all edges stay. -/
theorem Updates.refl (t : Tree) : t.Updates t where
  size_le := le_refl _
  kind := fun _ _ => rfl
  kept := fun _ _ _ => rfl
  caused := fun _ _ h => (h ⟨rfl, fun _ _ => rfl⟩).elim

/-- Two changes in a row act on edges as one, unless the second undoes a part of the first. -/
theorem Updates.trans (ht : t.Sound) (hs : s.Sound) (hu : u.Sound) (hts : t.Updates s)
    (hsu : s.Updates u)
    (hparent : ∀ a < t.size, u.parent? a = t.parent? a → s.parent? a = t.parent? a)
    (htarget : ∀ x < t.size, u.target? x = t.target? x → s.target? x = t.target? x) :
    t.Updates u where
  size_le := hts.size_le.trans hsu.size_le
  kind := fun x hx => (hsu.kind x (hx.trans_le hts.size_le)).trans (hts.kind x hx)
  kept := by
    intro x hx h
    have hchain : ∀ a ∈ x :: t.ancestors x, a < t.size :=
      List.forall_mem_cons.mpr ⟨hx, ht.lt_size_of_chain (ht.chain_ancestors x)⟩
    -- Nothing is undone, so what is undisturbed in the end was so in between.
    have hfirst : t.Undisturbed s x :=
      ⟨htarget x hx h.1, fun a ha => hparent a (hchain a ha) (h.2 a ha)⟩
    have hsecond : s.Undisturbed u x := by
      refine ⟨h.1.trans hfirst.1.symm, fun a ha => ?_⟩
      rw [hfirst.ancestors ht hs] at ha
      exact (h.2 a ha).trans (hfirst.2 a ha).symm
    rw [hsu.kept x (hx.trans_le hts.size_le) hsecond, hts.kept x hx hfirst]
  caused := by
    intro x hx h
    -- If the second change did not disturb the reference, the first did.
    by_cases hsecond : s.Undisturbed u x
    · have hfirst : ¬ t.Undisturbed s x := by
        intro hfirst
        refine h ⟨hsecond.1.trans hfirst.1, fun a ha => ?_⟩
        have ha' := ha
        rw [← hfirst.ancestors ht hs] at ha'
        exact (hsecond.2 a ha').trans (hfirst.2 a ha)
      rw [hsu.kept x (hx.trans_le hts.size_le) hsecond, hts.caused x hx hfirst,
        hsu.causedEdge?_of_undisturbed hs hu hsecond]
    · exact hsu.caused x (hx.trans_le hts.size_le) hsecond

/-- Other dependencies leave a tree sound if only bound references cause them. -/
theorem Sound.withGraph (h : t.Sound) {g : DependencyGraph} (hsorted : g.Sorted)
    (hedge : ∀ e, t.target? e = none → g.edgeFor? e = none) : (t.withGraph g).Sound where
  owner := h.owner
  nodup := h.nodup
  finite := h.finite
  target := h.target
  bound := h.bound
  edge := fun {e} => hedge e
  sorted := hsorted

/-- Recording the dependencies of a subtree keeps the tree sound. -/
theorem Sound.refreshSubtree (h : t.Sound) (root : NodeId) : (t.refreshSubtree root).Sound := by
  obtain ⟨g, hg, hsorted, hedge⟩ := refreshSubtree_eq_withGraph t root
  rw [hg]
  refine h.withGraph (hsorted h.sorted) fun e he => ?_
  rw [hedge, causedEdge?_of_target?_eq_none he, h.edge he, ite_self]

/-- The edges after the dependencies of a subtree were recorded. -/
theorem Sound.edgeFor?_refreshSubtree (h : t.Sound) (root : NodeId) {x : NodeId} :
    (t.refreshSubtree root).graph.edgeFor? x
      = if x < t.size ∧ t.Within root x then t.causedEdge? x else t.graph.edgeFor? x := by
  obtain ⟨g, hg, -, hedge⟩ := refreshSubtree_eq_withGraph t root
  rw [hg, graph_withGraph, hedge]
  -- What is not indexed has no target, so it neither has nor causes an edge.
  by_cases hbound : x ∈ t.bound
  · simp only [hbound, and_true, h.mem_map_fst_inspect]
  · have hnone : t.target? x = none := by simpa [h.bound] using hbound
    rw [causedEdge?_of_target?_eq_none hnone, h.edge hnone, ite_self, ite_self]

/-! ## Attaching and detaching -/

/-- A node that is the only one whose owner changes has the same subtree before and after. -/
theorem within_congr_of_parent? (ht : t.Sound) (hu : u.Sound)
    (hparent : ∀ a, a ≠ c → u.parent? a = t.parent? a) : u.Within c x ↔ t.Within c x := by
  induction x using ht.finite.induction with
  | _ x ih =>
    by_cases hxc : x = c
    · subst hxc
      exact iff_of_true (within_refl u x) (within_refl t x)
    · have hx := hparent x hxc
      cases hp : t.parent? x with
      | none => rw [within_iff_of_root ht hp, within_iff_of_root hu (hx.trans hp)]
      | some p =>
        rw [within_iff_of_parent? ht hp, within_iff_of_parent? hu (hx.trans hp), ih p hp]

/-- Changing the owner of a single node disturbs its subtree. -/
theorem undisturbed_iff_of_parent? (htarget : u.target? = t.target?)
    (hparent : ∀ a, a ≠ c → u.parent? a = t.parent? a) (hc : u.parent? c ≠ t.parent? c) :
    t.Undisturbed u x ↔ ¬ t.Within c x := by
  constructor
  · exact fun h hmem => hc (h.2 c hmem)
  · exact fun h => ⟨by rw [htarget], fun a ha => hparent a fun hac => h (hac ▸ ha)⟩

/-- Where the owner of a single node changes and the dependencies of its subtree are recorded, the
disturbed references are those that are recorded. -/
theorem Sound.updates_refreshSubtree (ht : t.Sound) (hs : s.Sound) (hsize : s.size = t.size)
    (hgraph : s.graph = t.graph) (hkind : s.kind? = t.kind?) (htarget : s.target? = t.target?)
    (hparent : ∀ a, a ≠ c → s.parent? a = t.parent? a) (hc : s.parent? c ≠ t.parent? c) :
    t.Updates (s.refreshSubtree c) := by
  -- The subtree that moves is the same in both trees.
  have hundisturbed {x : NodeId} :
      t.Undisturbed (s.refreshSubtree c) x ↔ ¬ s.Within c x := by
    rw [within_congr_of_parent? ht hs hparent]
    exact undisturbed_iff_of_parent? (by simpa using htarget) (by simpa using hparent)
      (by simpa using hc)
  refine ⟨by simp [hsize], fun x _ => by simp [hkind], ?_, ?_⟩
  · intro x hx h
    rw [hundisturbed] at h
    rw [hs.edgeFor?_refreshSubtree, if_neg (by tauto), hgraph]
  · intro x hx h
    rw [hundisturbed, not_not] at h
    rw [hs.edgeFor?_refreshSubtree, if_pos ⟨hsize ▸ hx, h⟩, causedEdge?_refreshSubtree]

/-- Puts another node in place of `p` and makes `q` the owner of `c`: what attaching and detaching
do before they record dependencies. -/
def relink (t : Tree) (p : NodeId) (n : Node) (c : NodeId) (q : Option NodeId) : Tree :=
  (t.setNode p n).setParent c q

section Relink

variable {q : Option NodeId}

/-- Relinking a node leaves the number of nodes. -/
@[simp] theorem size_relink : (t.relink p n' c q).size = t.size := by
  simp [relink]

/-- Relinking a node leaves the edges. -/
@[simp] theorem graph_relink : (t.relink p n' c q).graph = t.graph := rfl

/-- Relinking a node leaves the locations. -/
@[simp] theorem location?_relink : (t.relink p n' c q).location? = t.location? := by
  rw [relink, location?_setParent, location?_setNode]

/-- Relinking gives an owner to the one child. -/
theorem parent?_relink (hc : c < t.size) :
    (t.relink p n' c q).parent? x = if x = c then q else t.parent? x := by
  by_cases hx : x = c
  · rw [hx, relink, parent?_setParent_self (by simpa using hc), if_pos rfl]
  · rw [relink, parent?_setParent_of_ne hx, parent?_setNode, if_neg hx]

/-- Relinking replaces the one node. -/
theorem node?_relink (hp : p < t.size) :
    (t.relink p n' c q).node? x = if x = p then some n' else t.node? x := by
  by_cases hx : x = p
  · rw [hx, relink, node?_setParent, node?_setNode_self hp, if_pos rfl]
  · rw [relink, node?_setParent, node?_setNode_of_ne hx, if_neg hx]

/-- Relinking changes the children of the one node. -/
theorem children_relink (hp : p < t.size) :
    (t.relink p n' c q).children x = if x = p then n'.children else t.children x := by
  rw [children, node?_relink hp]
  split <;> rfl

/-- Relinking changes no target if the new node has that of the old one. -/
theorem target?_relink (hp : t.node? p = some n) (h : n'.target = n.target) :
    (t.relink p n' c q).target? = t.target? := by
  rw [← target?_setNode hp h]
  funext x
  exact target?_congr (by rw [relink, node?_setParent])

/-- Relinking changes no kind if the new node has that of the old one. -/
theorem kind?_relink (hp : t.node? p = some n) (h : n'.kind? = n.kind?) :
    (t.relink p n' c q).kind? = t.kind? := by
  rw [← kind?_setNode hp h]
  funext x
  exact kind?_congr (by rw [relink, node?_setParent])

/-- Of what makes a tree sound, relinking can upset only ownership. -/
theorem Sound.relink (h : t.Sound) (hp : t.node? p = some n) (htarget : n'.target = n.target)
    (hkind : n'.kind? = n.kind?)
    (howner : ∀ {d b}, b ∈ (t.relink p n' c q).children d ↔ (t.relink p n' c q).parent? b = some d)
    (hnodup : ∀ d, ((t.relink p n' c q).children d).Nodup)
    (hfinite : WellFounded fun d b => (t.relink p n' c q).parent? b = some d) :
    (t.relink p n' c q).Sound where
  owner := howner
  nodup := hnodup
  finite := hfinite
  target := by
    intro e d he
    rw [target?_relink hp htarget] at he
    rw [kind?_relink hp hkind]
    exact h.target he
  bound := by
    intro e
    rw [target?_relink hp htarget]
    exact h.bound
  edge := by
    intro e he
    rw [target?_relink hp htarget] at he
    exact h.edge he
  sorted := h.sorted

end Relink

/-- A root can be attached to a node outside its subtree. -/
structure Attachable (t : Tree) (p c : NodeId) : Prop where
  /-- The owner-to-be exists. -/
  owner : p < t.size
  /-- The child-to-be exists. -/
  child : c < t.size
  /-- The child-to-be is a root. -/
  root : t.parent? c = none
  /-- The owner-to-be is no node below the child-to-be. -/
  cycle : ¬ t.Within c p

/-- Attaching a root to a node outside its subtree, which then names it, keeps both records of
ownership in agreement. -/
theorem Sound.relink_some (h : t.Sound) (hp : t.node? p = some n) (hn : n'.Without c n)
    (ha : t.Attachable p c) : (t.relink p n' c (some p)).Sound := by
  obtain ⟨-, hc, hroot, hcycle⟩ := ha
  have hplt := lt_size_of_node? hp
  have hchildren : t.children p = n.children := children_of_node? hp
  refine h.relink hp hn.target.symm hn.kind.symm ?owner ?nodup ?finite
  case owner =>
    intro q d
    rw [children_relink hplt, parent?_relink hc]
    split
    · next hq =>
      rw [hn.children.mem_iff, List.mem_cons, ← hchildren, h.owner, hq]
      split <;> simp_all
    · next hq =>
      rw [h.owner]
      split
      · next hd => simp [hd, hroot, Ne.symm hq]
      · rfl
  case nodup =>
    intro q
    rw [children_relink hplt]
    split
    · refine hn.children.nodup_iff.mpr (List.nodup_cons.mpr ⟨?_, hchildren ▸ h.nodup p⟩)
      rw [← hchildren, h.owner, hroot]
      simp
    · exact h.nodup q
  case finite =>
    -- Outside the subtree at `c` chains are as before, and the new owner of `c` is outside.
    have houtside (y : NodeId) (hy : ¬ t.Within c y) :
        Acc (fun d b => (t.relink p n' c (some p)).parent? b = some d) y := by
      induction y using h.finite.induction with
      | _ y ih =>
        refine Acc.intro y fun q hq => ?_
        have hyc : y ≠ c := fun he => hy (he ▸ within_refl t c)
        rw [parent?_relink hc, if_neg hyc] at hq
        exact ih q hq fun hwithin => hy ((within_iff_of_parent? h hq).mpr (Or.inr hwithin))
    refine ⟨fun y => ?_⟩
    induction y using h.finite.induction with
    | _ y ih =>
      refine Acc.intro y fun q hq => ?_
      rw [parent?_relink hc] at hq
      split at hq
      · cases hq
        exact houtside p hcycle
      · exact ih q hq

/-- Detaching a child from its owner, which then no longer names it, keeps both records of ownership
in agreement. -/
theorem Sound.relink_none (h : t.Sound) (hp : t.node? p = some n) (hn : n.Without c n')
    (hc : t.parent? c = some p) : (t.relink p n' c none).Sound := by
  have hplt := lt_size_of_node? hp
  have hclt := lt_size_of_parent? hc
  have hchildren : t.children p = n.children := children_of_node? hp
  have hnodup : (c :: n'.children).Nodup := hn.children.nodup_iff.mp (hchildren ▸ h.nodup p)
  -- What remains in the node are its children other than `c`.
  have hmem {d : NodeId} : d ∈ n'.children ↔ d ≠ c ∧ t.parent? d = some p := by
    rw [← h.owner, hchildren, hn.children.mem_iff, List.mem_cons]
    have hnotMem := (List.nodup_cons.mp hnodup).1
    constructor
    · exact fun hd => ⟨fun hdc => hnotMem (hdc ▸ hd), Or.inr hd⟩
    · exact fun hd => hd.2.resolve_left hd.1
  refine h.relink hp hn.target hn.kind ?owner ?nodup ?finite
  case owner =>
    intro q d
    rw [children_relink hplt, parent?_relink hclt]
    split
    · next hq =>
      rw [hmem, hq]
      split <;> simp_all
    · next hq =>
      rw [h.owner]
      split
      · next hd => simp [hd, hc, Ne.symm hq]
      · rfl
  case nodup =>
    intro q
    rw [children_relink hplt]
    split
    · exact (List.nodup_cons.mp hnodup).2
    · exact h.nodup q
  case finite =>
    refine Subrelation.wf (fun {q d} hd => ?_) h.finite
    rw [parent?_relink hclt] at hd
    split at hd
    · simp at hd
    · exact hd

/-- Nothing comes to lie in a subtree by detaching a node. -/
theorem Sound.within_of_relink_none {a : NodeId} (h : t.Sound) (hs : (t.relink p n' c none).Sound)
    (hc : c < t.size) (hwithin : (t.relink p n' c none).Within a x) : t.Within a x := by
  induction x using h.finite.induction with
  | _ x ih =>
    by_cases hx : (t.relink p n' c none).parent? x = none
    · rw [(within_iff_of_root hs hx).mp hwithin]
      exact within_refl t x
    · obtain ⟨q, hq⟩ := Option.ne_none_iff_exists'.mp hx
      have hparent : t.parent? x = some q := by
        rw [parent?_relink hc] at hq
        split at hq
        · simp at hq
        · exact hq
      rcases (within_iff_of_parent? hs hq).mp hwithin with rfl | hwithin
      · exact within_refl t a
      · exact (within_iff_of_parent? h hparent).mpr (Or.inr (ih q hparent hwithin))

/-- Relinks and records the dependencies of the moved subtree. -/
def move (t : Tree) (p : NodeId) (n : Node) (c : NodeId) (q : Option NodeId) : Tree :=
  (t.relink p n c q).refreshSubtree c

section Move

variable {q : Option NodeId}

/-- Moving a node leaves the number of nodes. -/
@[simp] theorem size_move : (t.move p n' c q).size = t.size := by
  simp [move]

/-- Moving a node leaves the locations. -/
@[simp] theorem location?_move : (t.move p n' c q).location? = t.location? := by
  rw [move, location?_refreshSubtree, location?_relink]

/-- A move gives an owner to the child that is moved. -/
theorem parent?_move (hc : c < t.size) :
    (t.move p n' c q).parent? x = if x = c then q else t.parent? x := by
  rw [move, parent?_refreshSubtree, parent?_relink hc]

/-- A move replaces the node that takes over or gives up the child. -/
theorem node?_move (hp : p < t.size) :
    (t.move p n' c q).node? x = if x = p then some n' else t.node? x := by
  rw [move, node?_refreshSubtree, node?_relink hp]

/-- A move changes no target if the new node has that of the old one. -/
theorem target?_move (hp : t.node? p = some n) (h : n'.target = n.target) :
    (t.move p n' c q).target? = t.target? := by
  rw [move, target?_refreshSubtree, target?_relink hp h]

/-- Attaching a root to a node outside its subtree, which then names it, keeps the tree sound. -/
theorem Sound.move_some (h : t.Sound) (hp : t.node? p = some n) (hn : n'.Without c n)
    (ha : t.Attachable p c) : (t.move p n' c (some p)).Sound :=
  (h.relink_some hp hn ha).refreshSubtree c

/-- Detaching a child from its owner, which then no longer names it, keeps the tree sound. -/
theorem Sound.move_none (h : t.Sound) (hp : t.node? p = some n) (hn : n.Without c n')
    (hc : t.parent? c = some p) : (t.move p n' c none).Sound :=
  (h.relink_none hp hn hc).refreshSubtree c

/-- A move refreshes the edges in the subtree that is moved, for no others are disturbed. -/
theorem Sound.updates_move {q : Option NodeId} (h : t.Sound)
    (hs : (t.relink p n' c q).Sound) (hp : t.node? p = some n) (htarget : n'.target = n.target)
    (hkind : n'.kind? = n.kind?) (hc : c < t.size) (hq : q ≠ t.parent? c) :
    t.Updates (t.move p n' c q) := by
  refine h.updates_refreshSubtree hs size_relink graph_relink (kind?_relink hp hkind)
    (target?_relink hp htarget) (fun a ha => ?_) ?_
  · rw [parent?_relink hc, if_neg ha]
  · rwa [parent?_relink hc, if_pos rfl]

/-- Attaching a root refreshes the edges of the references in its subtree. -/
theorem Sound.updates_move_some (h : t.Sound) (hp : t.node? p = some n) (hn : n'.Without c n)
    (ha : t.Attachable p c) : t.Updates (t.move p n' c (some p)) :=
  h.updates_move (h.relink_some hp hn ha) hp hn.target.symm hn.kind.symm ha.child
    (by simp [ha.root])

/-- Detaching a child refreshes the edges of the references in its subtree. -/
theorem Sound.updates_move_none (h : t.Sound) (hp : t.node? p = some n) (hn : n.Without c n')
    (hc : t.parent? c = some p) : t.Updates (t.move p n' c none) :=
  h.updates_move (h.relink_none hp hn hc) hp hn.target hn.kind (lt_size_of_parent? hc)
    (by simp [hc])

end Move

/-! ## Putting another node in place outside a subtree -/

section SetNode

/-- A walk does not meet a node outside the subtrees that it is about to take. -/
theorem Sound.inspectWithin_setNode (h : t.Sound) (steps : Nat) {stack : List NodeId}
    (houtside : ∀ y ∈ stack, ¬ t.Within y p) :
    (t.setNode p n').inspectWithin steps stack = t.inspectWithin steps stack := by
  induction steps generalizing stack with
  | zero => rfl
  | succ steps ih =>
    cases stack with
    | nil => rfl
    | cons y stack =>
      obtain ⟨hy, hstack⟩ := List.forall_mem_cons.mp houtside
      have hne : y ≠ p := fun he => hy (he ▸ within_refl t y)
      rw [inspectWithin, inspectWithin, node?_setNode_of_ne hne]
      cases hn : t.node? y with
      | none => exact ih hstack
      | some m =>
        refine congrArg ((y, m) :: ·) (ih fun z hz => ?_)
        rcases List.mem_append.mp hz with hz | hz
        · rw [← children_of_node? hn] at hz
          exact fun hwithin => hy ((within_iff_exists_child h).mpr (Or.inr ⟨z, hz, hwithin⟩))
        · exact hstack z hz

/-- References cause the same when a node is replaced by one with its target and its kind. -/
theorem causedEdge?_setNode (hp : t.node? p = some n) (htarget : n'.target = n.target)
    (hkind : n'.kind? = n.kind?) : (t.setNode p n').causedEdge? = t.causedEdge? := by
  funext x
  refine causedEdge?_congr (by rw [ancestors_setNode]) (fun a _ => isItem_congr ?_) ?_
  · rw [kind?_setNode hp hkind]
  · rw [target?_setNode hp htarget]

/-- A reference may be refreshed before or after such a node is put in place. -/
theorem refreshReference_setNode (hp : t.node? p = some n) (htarget : n'.target = n.target)
    (hkind : n'.kind? = n.kind?) (e : NodeId) :
    (t.setNode p n').refreshReference e = (t.refreshReference e).setNode p n' := by
  rw [refreshReference, refreshReference, causedEdge?_setNode hp htarget hkind]
  cases t.causedEdge? e <;> rfl

/-- What is recorded for a subtree does not depend on a node outside it. -/
theorem Sound.refreshSubtree_setNode (h : t.Sound) (hp : t.node? p = some n)
    (htarget : n'.target = n.target) (hkind : n'.kind? = n.kind?) (houtside : ¬ t.Within c p) :
    (t.setNode p n').refreshSubtree c = (t.refreshSubtree c).setNode p n' := by
  -- Each single edge that is recorded is the same with the other node in place.
  have hfold (found : List (NodeId × Node)) (u : Tree) (hu : u.node? p = some n) :
      found.foldl (fun u a => u.refreshReference a.1) (u.setNode p n')
        = (found.foldl (fun u a => u.refreshReference a.1) u).setNode p n' := by
    induction found generalizing u with
    | nil => rfl
    | cons a found ih =>
      obtain ⟨g, hg, -⟩ := refreshReference_eq_withGraph u a.1
      rw [List.foldl_cons, List.foldl_cons, refreshReference_setNode hu htarget hkind]
      exact ih (u.refreshReference a.1) (by rwa [hg, node?_withGraph])
  have hinspect : (t.setNode p n').inspect c = t.inspect c := by
    rw [inspect, inspect, size_setNode]
    exact h.inspectWithin_setNode (t.size + 1) (by simpa using houtside)
  rw [Tree.refreshSubtree, Tree.refreshSubtree, hinspect, bound_setNode]
  split
  · rfl
  · exact hfold _ t hp

end SetNode

/-- Where a child was detached, putting yet another node in place of its owner comes to the same as
putting that node in place at once. -/
theorem Sound.setNode_move_none {m : Node} (h : t.Sound) (hp : t.node? p = some n)
    (hn : n.Without c n') (hc : t.parent? c = some p) (htarget : m.target = n'.target)
    (hkind : m.kind? = n'.kind?) : (t.move p n' c none).setNode p m = t.move p m c none := by
  have hs := h.relink_none hp hn hc
  have hclt := lt_size_of_parent? hc
  have hnode : (t.relink p n' c none).node? p = some n' := by
    rw [node?_relink (lt_size_of_node? hp), if_pos rfl]
  -- Once `c` is detached its old owner is not below it.
  have houtside : ¬ (t.relink p n' c none).Within c p := by
    intro hwithin
    have habove : c ∈ p :: t.ancestors p := h.within_of_relink_none hs hclt hwithin
    exact h.notMem_ancestors c (h.ancestors_of_parent? hc ▸ habove)
  calc (t.move p n' c none).setNode p m
      = ((t.relink p n' c none).setNode p m).refreshSubtree c :=
        (hs.refreshSubtree_setNode hnode htarget hkind houtside).symm
    _ = t.move p m c none := by
      rw [Tree.relink, ← setParent_setNode, setNode_setNode]
      rfl

end InfraModule.Tree
