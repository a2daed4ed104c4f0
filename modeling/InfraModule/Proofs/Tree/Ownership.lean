import InfraModule.Proofs.Tree.Change
import Mathlib.Data.List.Nodup
import Mathlib.Data.List.Perm.Subperm

/-!
# Ownership

A tree records ownership twice: an owner names its children, and a child names its owner. `Sound`
says that the two records agree, that no node is named twice, that no chain of owners goes on for
ever, that targets are declarations and are indexed, and that only bound references cause
dependencies. Its consequences free the questions about chains and subtrees from the bound on their
steps: the owners above a node are its owner and the owners above that
(`Sound.ancestors_of_parent?`), and a subtree is its root and the subtrees at the children
(`Sound.inspect_eq`).

`Within root x` says that `x` lies in the subtree at `root`. In a sound tree the chain above `x` and
the walk down from `root` find the same nodes (`Sound.mem_inspect`).
-/

namespace InfraModule.Tree

variable {t : Tree} {id p c x a : NodeId}

/-- A tree whose records of ownership agree, and whose targets are declarations and indexed. -/
structure Sound (t : Tree) : Prop where
  /-- A node is a child of another exactly if that is its owner. -/
  owner : ∀ {p c}, c ∈ t.children p ↔ t.parent? c = some p
  /-- No node names a child twice. -/
  nodup : ∀ p, (t.children p).Nodup
  /-- Every chain of owners ends. -/
  finite : WellFounded fun p c => t.parent? c = some p
  /-- Every target is a declaration. -/
  target : ∀ {e d}, t.target? e = some d → (t.kind? d).isSome = true
  /-- The index holds the nodes with a target. -/
  bound : ∀ {e}, e ∈ t.bound ↔ (t.target? e).isSome = true
  /-- A node without a target causes no dependency. -/
  edge : ∀ {e}, t.target? e = none → t.graph.edgeFor? e = none
  /-- The edges are in order. -/
  sorted : t.graph.Sorted

/-! ## Chains of owners -/

/-- All owners above a node, nearest first. -/
inductive Chain (t : Tree) : NodeId → List NodeId → Prop
  | root {x : NodeId} (h : t.parent? x = none) : Chain t x []
  | step {x p : NodeId} {l : List NodeId} (h : t.parent? x = some p) (hl : Chain t p l) :
    Chain t x (p :: l)

namespace Chain

variable {l m : List NodeId}

/-- There is one chain of owners above a node. -/
theorem unique (hl : Chain t x l) (hm : Chain t x m) : l = m := by
  induction hl generalizing m with
  | root h =>
    cases hm with
    | root => rfl
    | step h' => simp [h] at h'
  | step h hl ih =>
    cases hm with
    | root h' => simp [h] at h'
    | step h' hm' =>
      rw [h, Option.some_inj] at h'
      subst h'
      rw [ih hm']

/-- Above an owner stands what follows it in the chain. -/
theorem suffix (hl : Chain t x l) (ha : a ∈ l) : ∃ l₁ l₂, l = l₁ ++ a :: l₂ ∧ Chain t a l₂ := by
  induction hl with
  | root h => simp at ha
  | @step x p l h hl ih =>
    rcases List.mem_cons.mp ha with rfl | ha
    · exact ⟨[], l, rfl, hl⟩
    · obtain ⟨l₁, l₂, rfl, hchain⟩ := ih ha
      exact ⟨p :: l₁, l₂, rfl, hchain⟩

/-- No node stands above itself. -/
theorem notMem (hl : Chain t x l) : x ∉ l := by
  intro hx
  obtain ⟨l₁, l₂, hsplit, hchain⟩ := hl.suffix hx
  -- The chain above the node would be a proper part of itself.
  have hlength := congrArg List.length (hl.unique hchain)
  rw [hsplit] at hlength
  simp at hlength
  omega

/-- No owner comes twice in a chain. -/
theorem nodup (hl : Chain t x l) : l.Nodup := by
  induction hl with
  | root h => exact List.nodup_nil
  | step h hl ih => exact List.nodup_cons.mpr ⟨hl.notMem, ih⟩

/-- A walk up in a bounded number of steps finds the start of the chain. -/
theorem ancestorsWithin (hl : Chain t x l) (steps : Nat) :
    t.ancestorsWithin steps x = l.take steps := by
  induction hl generalizing steps with
  | root h => cases steps <;> simp [Tree.ancestorsWithin, h]
  | step h hl ih => cases steps <;> simp [Tree.ancestorsWithin, h, ih]

end Chain

/-- A tree with a node has at least one. -/
theorem exists_size_eq (h : id < t.size) : ∃ levels, t.size = levels + 1 :=
  Nat.exists_eq_add_one.mpr (Nat.zero_lt_of_lt h)

/-- Distinct nodes of a tree are no more than the tree has. -/
theorem length_le_size {l : List NodeId} (hnodup : l.Nodup) (hlt : ∀ x ∈ l, x < t.size) :
    l.length ≤ t.size := by
  have hsubset : l ⊆ List.range t.size := fun x hx => List.mem_range.mpr (hlt x hx)
  simpa using (List.subperm_of_subset hnodup hsubset).length_le

namespace Sound

/-- Every node has a chain of owners. -/
theorem exists_chain (h : t.Sound) (x : NodeId) : ∃ l, Chain t x l := by
  induction x using h.finite.induction with
  | _ x ih =>
    cases hp : t.parent? x with
    | none => exact ⟨[], .root hp⟩
    | some p =>
      obtain ⟨l, hl⟩ := ih p hp
      exact ⟨p :: l, .step hp hl⟩

/-- An owner exists. -/
theorem lt_size_of_owner (h : t.Sound) (hp : t.parent? c = some p) : p < t.size := by
  by_contra hlt
  have hmem := h.owner.mpr hp
  rw [children_eq_nil_of_le (Nat.not_lt.mp hlt)] at hmem
  simp at hmem

/-- A child exists. -/
theorem lt_size_of_child (h : t.Sound) (hc : c ∈ t.children p) : c < t.size :=
  lt_size_of_parent? (h.owner.mp hc)

/-- Owners exist. -/
theorem lt_size_of_chain (h : t.Sound) {l : List NodeId} (hl : Chain t x l) :
    ∀ a ∈ l, a < t.size := by
  induction hl with
  | root => simp
  | step hp hl ih => exact List.forall_mem_cons.mpr ⟨h.lt_size_of_owner hp, ih⟩

/-- The walk up has steps enough to find the whole chain. -/
theorem chain_ancestors (h : t.Sound) (x : NodeId) : Chain t x (t.ancestors x) := by
  obtain ⟨l, hl⟩ := h.exists_chain x
  have hlength : l.length ≤ t.size := length_le_size hl.nodup (h.lt_size_of_chain hl)
  rwa [ancestors, hl.ancestorsWithin, List.take_of_length_le hlength]

/-- A root has no owners above it. -/
theorem ancestors_of_root (h : t.Sound) (hx : t.parent? x = none) : t.ancestors x = [] :=
  (h.chain_ancestors x).unique (.root hx)

/-- The owners above a node are its owner and those above that. -/
theorem ancestors_of_parent? (h : t.Sound) (hx : t.parent? x = some p) :
    t.ancestors x = p :: t.ancestors p :=
  (h.chain_ancestors x).unique (.step hx (h.chain_ancestors p))

/-- The owners above a node are its owner and the owners above that, if it has an owner. -/
theorem ancestors_eq (h : t.Sound) (x : NodeId) :
    t.ancestors x = (t.parent? x).elim [] fun p => p :: t.ancestors p := by
  cases hp : t.parent? x with
  | none => exact h.ancestors_of_root hp
  | some p => exact h.ancestors_of_parent? hp

/-- No node is above itself. -/
theorem notMem_ancestors (h : t.Sound) (x : NodeId) : x ∉ t.ancestors x :=
  (h.chain_ancestors x).notMem

/-- Above an owner stands the rest of the chain. -/
theorem ancestors_suffix (h : t.Sound) (ha : a ∈ t.ancestors x) :
    ∃ l, t.ancestors x = l ++ a :: t.ancestors a := by
  obtain ⟨l₁, l₂, hsplit, hchain⟩ := (h.chain_ancestors x).suffix ha
  exact ⟨l₁, by rw [hsplit, hchain.unique (h.chain_ancestors a)]⟩

/-- Fewer owners are above a node than there are nodes. -/
theorem length_ancestors_lt (h : t.Sound) (hx : x < t.size) : (t.ancestors x).length < t.size := by
  have hnodup : (x :: t.ancestors x).Nodup :=
    List.nodup_cons.mpr ⟨h.notMem_ancestors x, (h.chain_ancestors x).nodup⟩
  have hlt : ∀ a ∈ x :: t.ancestors x, a < t.size :=
    List.forall_mem_cons.mpr ⟨hx, h.lt_size_of_chain (h.chain_ancestors x)⟩
  exact length_le_size hnodup hlt

/-- Sound trees with the same owners have the same chains. -/
theorem ancestors_congr {u : Tree} (h : t.Sound) (hu : u.Sound)
    (hparent : ∀ a ∈ x :: t.ancestors x, u.parent? a = t.parent? a) :
    u.ancestors x = t.ancestors x := by
  induction x using h.finite.induction with
  | _ x ih =>
    have hx := hparent x List.mem_cons_self
    cases hp : t.parent? x with
    | none => rw [h.ancestors_of_root hp, hu.ancestors_of_root (hx.trans hp)]
    | some p =>
      have hall : ∀ a ∈ p :: t.ancestors p, u.parent? a = t.parent? a := fun a ha =>
        hparent a (List.mem_cons_of_mem x (h.ancestors_of_parent? hp ▸ ha))
      rw [h.ancestors_of_parent? hp, hu.ancestors_of_parent? (hx.trans hp), ih p hp hall]

end Sound

/-! ## Subtrees -/

/-- A node lies in the subtree at `root`. -/
def Within (t : Tree) (root x : NodeId) : Prop :=
  root ∈ x :: t.ancestors x

instance {root : NodeId} : Decidable (t.Within root x) :=
  inferInstanceAs (Decidable (root ∈ x :: t.ancestors x))

/-- A node lies in the subtree at itself. -/
theorem within_refl (t : Tree) (x : NodeId) : t.Within x x :=
  List.mem_cons_self

/-- A root lies in no subtree but its own. -/
theorem within_iff_of_root {root : NodeId} (h : t.Sound) (hx : t.parent? x = none) :
    t.Within root x ↔ root = x := by
  simp [Within, h.ancestors_of_root hx]

/-- A node that is not the root of a subtree lies in it exactly if its owner does. -/
theorem within_iff_of_parent? {root : NodeId} (h : t.Sound) (hx : t.parent? x = some p) :
    t.Within root x ↔ root = x ∨ t.Within root p := by
  simp [Within, h.ancestors_of_parent? hx]

/-- What lies in a subtree of a subtree lies in the subtree. -/
theorem Within.trans {b : NodeId} (h : t.Sound) (hab : t.Within a b) (hbx : t.Within b x) :
    t.Within a x := by
  rcases List.mem_cons.mp hbx with rfl | hb
  · exact hab
  · obtain ⟨l, hl⟩ := h.ancestors_suffix hb
    rw [Within, hl]
    exact List.mem_cons_of_mem x (List.mem_append_right l hab)

/-- A subtree is its root and the subtrees at the children. -/
theorem within_iff_exists_child (h : t.Sound) :
    t.Within id x ↔ x = id ∨ ∃ c ∈ t.children id, t.Within c x := by
  constructor
  · intro hx
    induction x using h.finite.induction with
    | _ x ih =>
      cases hp : t.parent? x with
      | none => exact Or.inl ((within_iff_of_root h hp).mp hx).symm
      | some p =>
        rcases (within_iff_of_parent? h hp).mp hx with rfl | hwithin
        · exact Or.inl rfl
        · rcases ih p hp hwithin with rfl | ⟨c, hc, hcp⟩
          · exact Or.inr ⟨x, h.owner.mpr hp, within_refl t x⟩
          · exact Or.inr ⟨c, hc, (within_iff_of_parent? h hp).mpr (Or.inr hcp)⟩
  · rintro (rfl | ⟨c, hc, hcx⟩)
    · exact within_refl t x
    · exact Within.trans h ((within_iff_of_parent? h (h.owner.mp hc)).mpr
        (Or.inr (within_refl t id))) hcx

/-- Two children of one node whose subtrees meet are the same. -/
theorem child_unique {d : NodeId} (h : t.Sound) (hc : t.parent? c = some p)
    (hd : t.parent? d = some p) (hcx : t.Within c x) (hdx : t.Within d x) : c = d := by
  induction x using h.finite.induction with
  | _ x ih =>
    -- Were one of them `x` itself, the other would be their owner or stand above it.
    have habove {e : NodeId} (he : t.parent? e = some p) : ¬ t.Within e p := by
      intro hmem
      have hchain := h.ancestors_of_parent? he
      exact h.notMem_ancestors e (hchain ▸ hmem)
    cases hp : t.parent? x with
    | none =>
      rw [(within_iff_of_root h hp).mp hcx, (within_iff_of_root h hp).mp hdx]
    | some q =>
      rcases (within_iff_of_parent? h hp).mp hcx with rfl | hcq
      · rcases (within_iff_of_parent? h hp).mp hdx with rfl | hdq
        · rfl
        · rw [hc, Option.some_inj] at hp
          exact (habove hd (hp ▸ hdq)).elim
      · rcases (within_iff_of_parent? h hp).mp hdx with rfl | hdq
        · rw [hd, Option.some_inj] at hp
          exact (habove hc (hp ▸ hcq)).elim
        · exact ih q hp hcq hdq

/-! ## Walks over subtrees -/

/-- The subtree at a node is at most `levels` deep. -/
def Fits (t : Tree) : Nat → NodeId → Prop
  | 0, _ => False
  | levels + 1, id => ∀ c ∈ t.children id, t.Fits levels c

/-- Every subtree of a sound tree has at most as many levels as the tree has nodes. -/
theorem Sound.fits (h : t.Sound) (hid : id < t.size) : t.Fits t.size id := by
  -- Each step down makes the chain above longer, and no chain is longer than the tree.
  have hlevels (levels : Nat) (id : NodeId) (hid : id < t.size)
      (hle : t.size ≤ (t.ancestors id).length + levels) : t.Fits levels id := by
    induction levels generalizing id with
    | zero => exact absurd (h.length_ancestors_lt hid) (by omega)
    | succ levels ih =>
      intro c hc
      refine ih c (h.lt_size_of_child hc) ?_
      rw [h.ancestors_of_parent? (h.owner.mp hc), List.length_cons]
      omega
  exact hlevels t.size id hid (Nat.le_add_left ..)

/-- A subtree at most `levels` deep, each node before its children. -/
def preorder (t : Tree) : Nat → NodeId → List (NodeId × Node)
  | 0, _ => []
  | levels + 1, id =>
    match t.node? id with
    | none => []
    | some node => (id, node) :: node.children.flatMap (t.preorder levels)

/-- The subtree at a node is the node and the subtrees at its children. -/
theorem preorder_succ {n : Node} {levels : Nat} (h : t.node? id = some n) :
    t.preorder (levels + 1) id = (id, n) :: n.children.flatMap (t.preorder levels) := by
  simp [preorder, h]

/-- Two bounds that a subtree fits in give the same walk. -/
theorem preorder_congr {k l : Nat} (hk : t.Fits k id) (hl : t.Fits l id) :
    t.preorder k id = t.preorder l id := by
  induction k generalizing l id with
  | zero => exact hk.elim
  | succ k ih =>
    cases l with
    | zero => exact hl.elim
    | succ l =>
      cases hn : t.node? id with
      | none => simp [preorder, hn]
      | some n =>
        rw [preorder_succ hn, preorder_succ hn]
        congr 1
        refine List.flatMap_congr fun c hc => ih (hk c ?_) (hl c ?_)
        · rwa [children_of_node? hn]
        · rwa [children_of_node? hn]

namespace Sound

/-- The walk down finds the nodes whose chain of owners leads to its root. -/
theorem mem_preorder (h : t.Sound) {levels : Nat} {n : Node} (hfits : t.Fits levels id) :
    (x, n) ∈ t.preorder levels id ↔ t.node? x = some n ∧ t.Within id x := by
  induction levels generalizing id with
  | zero => exact hfits.elim
  | succ levels ih =>
    rw [within_iff_exists_child h]
    cases hid : t.node? id with
    | none =>
      have hnil : t.children id = [] := children_eq_nil_of_le (node?_eq_none_iff.mp hid)
      simp only [preorder, hid, hnil, List.not_mem_nil, false_and, exists_false, or_false,
        false_iff, not_and]
      rintro hx rfl
      simp [hid] at hx
    | some m =>
      rw [preorder_succ hid, List.mem_cons, List.mem_flatMap, Prod.mk.injEq,
        ← children_of_node? hid]
      constructor
      · rintro (⟨rfl, rfl⟩ | ⟨c, hc, hx⟩)
        · exact ⟨hid, Or.inl rfl⟩
        · obtain ⟨hnode, hwithin⟩ := (ih (hfits c hc)).mp hx
          exact ⟨hnode, Or.inr ⟨c, hc, hwithin⟩⟩
      · rintro ⟨hnode, rfl | ⟨c, hc, hwithin⟩⟩
        · exact Or.inl ⟨rfl, by simpa [hid] using hnode.symm⟩
        · exact Or.inr ⟨c, hc, (ih (hfits c hc)).mpr ⟨hnode, hwithin⟩⟩

/-- The walk down comes to no node twice. -/
theorem nodup_preorder (h : t.Sound) {levels : Nat} (hfits : t.Fits levels id) :
    ((t.preorder levels id).map Prod.fst).Nodup := by
  induction levels generalizing id with
  | zero => exact hfits.elim
  | succ levels ih =>
    cases hid : t.node? id with
    | none => simp [preorder, hid]
    | some n =>
      have hchildren : n.children = t.children id := (children_of_node? hid).symm
      rw [preorder_succ hid, List.map_cons, List.map_flatMap, hchildren, List.nodup_cons,
        List.nodup_flatMap]
      refine ⟨?_, fun c hc => ih (hfits c hc), ?_⟩
      · -- The root lies below none of its children.
        simp only [List.mem_flatMap, List.mem_map, Prod.exists, exists_and_right, exists_eq_right,
          not_exists, not_and]
        intro c hc m hm
        have hwithin := ((h.mem_preorder (hfits c hc)).mp hm).2
        have hchain := h.ancestors_of_parent? (h.owner.mp hc)
        exact h.notMem_ancestors c (hchain ▸ hwithin)
      · -- No node lies below two of them.
        refine (h.nodup id).imp_of_mem fun {c d} hc hd hne x hxc hxd => hne ?_
        simp only [List.mem_map, Prod.exists, exists_and_right, exists_eq_right] at hxc hxd
        obtain ⟨m, hm⟩ := hxc
        obtain ⟨m', hm'⟩ := hxd
        exact child_unique h (h.owner.mp hc) (h.owner.mp hd)
          ((h.mem_preorder (hfits c hc)).mp hm).2 ((h.mem_preorder (hfits d hd)).mp hm').2

/-- A subtree has at most as many nodes as the tree. -/
theorem length_preorder_le (h : t.Sound) {levels : Nat} (hfits : t.Fits levels id) :
    (t.preorder levels id).length ≤ t.size := by
  have hlt : ∀ x ∈ (t.preorder levels id).map Prod.fst, x < t.size := by
    intro x hx
    obtain ⟨⟨y, n⟩, hmem, rfl⟩ := List.mem_map.mp hx
    exact lt_size_of_node? ((h.mem_preorder hfits).mp hmem).1
  simpa using length_le_size (h.nodup_preorder hfits) hlt

/-- The walk with a stack takes the subtree at the top of the stack first, in one step for each of
its nodes. -/
theorem inspectWithin_cons (h : t.Sound) {levels : Nat} (hid : id < t.size)
    (hfits : t.Fits levels id) (steps : Nat) (stack : List NodeId) :
    t.inspectWithin ((t.preorder levels id).length + steps) (id :: stack)
      = t.preorder levels id ++ t.inspectWithin steps stack := by
  induction levels generalizing id steps stack with
  | zero => exact hfits.elim
  | succ levels ih =>
    obtain ⟨n, hn⟩ := node?_eq_some_iff_lt.mpr hid
    -- The children are taken one subtree after the other.
    have hchildren (cs : List NodeId) (hcs : ∀ c ∈ cs, c ∈ t.children id) :
        t.inspectWithin ((cs.flatMap (t.preorder levels)).length + steps) (cs ++ stack)
          = cs.flatMap (t.preorder levels) ++ t.inspectWithin steps stack := by
      induction cs with
      | nil => simp
      | cons c cs ihcs =>
        have hc := hcs c List.mem_cons_self
        rw [List.flatMap_cons, List.length_append, Nat.add_assoc, List.cons_append,
          ih (h.lt_size_of_child hc) (hfits c hc), List.append_assoc,
          ihcs fun d hd => hcs d (List.mem_cons_of_mem c hd)]
    have hsteps : (t.preorder (levels + 1) id).length + steps
        = (n.children.flatMap (t.preorder levels)).length + steps + 1 := by
      rw [preorder_succ hn, List.length_cons]
      omega
    rw [hsteps, preorder_succ hn, inspectWithin]
    simp only [hn, List.cons_append, List.cons.injEq, true_and]
    exact hchildren n.children fun c hc => by rwa [children_of_node? hn]

/-- The walk with a stack has steps enough for the whole subtree. -/
theorem inspectWithin_eq_preorder (h : t.Sound) (hid : id < t.size) (more : Nat) :
    t.inspectWithin (t.size + more) [id] = t.preorder t.size id := by
  have hle := h.length_preorder_le (h.fits hid)
  obtain ⟨steps, hsteps⟩ := Nat.exists_eq_add_of_le hle
  rw [hsteps, Nat.add_assoc]
  rw [← hsteps, h.inspectWithin_cons hid (h.fits hid)]
  cases steps + more <;> simp [inspectWithin]

/-- The walk over a subtree comes to its nodes before their children. -/
theorem inspect_eq_preorder (h : t.Sound) (hid : id < t.size) :
    t.inspect id = t.preorder t.size id :=
  h.inspectWithin_eq_preorder hid 1

/-- Where there is no node, there is nothing to walk over. -/
theorem inspect_eq_nil (hid : t.size ≤ id) : t.inspect id = [] := by
  have hnone := node?_eq_none_iff.mpr hid
  rw [inspect, inspectWithin]
  simp only [hnone]
  cases t.size <;> rfl

/-- The walk over a subtree takes the root and then, in order, the subtrees at its children. -/
theorem inspect_eq (h : t.Sound) {n : Node} (hn : t.node? id = some n) :
    t.inspect id = (id, n) :: n.children.flatMap t.inspect := by
  have hid := lt_size_of_node? hn
  have hfits := h.fits hid
  -- At a child there is a level less, which is still enough.
  rw [h.inspect_eq_preorder hid]
  obtain ⟨levels, hlevels⟩ := exists_size_eq hid
  rw [hlevels] at hfits ⊢
  rw [preorder_succ hn]
  congr 1
  refine List.flatMap_congr fun c hc => ?_
  rw [← children_of_node? hn] at hc
  rw [h.inspect_eq_preorder (h.lt_size_of_child hc)]
  exact preorder_congr (hfits c hc) (h.fits (h.lt_size_of_child hc))

/-- A walk comes to the node, if there is one, and then walks over the subtrees at its children. -/
theorem inspect_eq_elim (h : t.Sound) (id : NodeId) :
    t.inspect id = (t.node? id).elim [] fun n => (id, n) :: n.children.flatMap t.inspect := by
  cases hn : t.node? id with
  | none => exact inspect_eq_nil (node?_eq_none_iff.mp hn)
  | some n => exact h.inspect_eq hn

/-- The walk over a subtree finds the nodes whose chain of owners leads to its root. -/
theorem mem_inspect (h : t.Sound) {n : Node} :
    (x, n) ∈ t.inspect id ↔ t.node? x = some n ∧ t.Within id x := by
  by_cases hid : id < t.size
  · rw [h.inspect_eq_preorder hid, h.mem_preorder (h.fits hid)]
  · have hnil := children_eq_nil_of_le (Nat.not_lt.mp hid)
    rw [inspect_eq_nil (Nat.not_lt.mp hid), within_iff_exists_child h]
    simp only [hnil, List.not_mem_nil, false_and, exists_false, or_false, false_iff, not_and]
    rintro hx rfl
    exact hid (lt_size_of_node? hx)

/-- A walk comes to the nodes that exist and lie in the subtree. -/
theorem mem_map_fst_inspect (h : t.Sound) :
    x ∈ (t.inspect id).map Prod.fst ↔ x < t.size ∧ t.Within id x := by
  rw [← node?_eq_some_iff_lt]
  simp only [List.mem_map, Prod.exists, exists_and_right, exists_eq_right, h.mem_inspect]

end Sound

end InfraModule.Tree
