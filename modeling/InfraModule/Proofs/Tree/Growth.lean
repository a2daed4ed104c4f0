import InfraModule.Proofs.Tree.Typing

/-!
# Trees under construction

While a tree is built it grows by nodes that are typed and not yet bound to anything: what was there
stays, and no dependency is recorded (`Grown`). `Made t u ids` says that `t` has grown to `u` and
that `ids` are roots among the new nodes, which can be taken over. They are taken over by a node
that is added over them (`Made.add`) or one by one (`Made.attach`).
-/

namespace InfraModule.Tree

variable {t s u : Tree} {p c x : NodeId} {ids new rest : List NodeId} {n n' : Node} {l : Location}

/-- A sound tree that has grown by typed nodes without targets. -/
structure Grown (t u : Tree) : Prop extends t.Extends u where
  /-- The tree was sound. -/
  sound_before : t.Sound
  /-- The tree is sound. -/
  sound : u.Sound
  /-- New nodes are typed. -/
  typed : ∀ x n, t.size ≤ x → u.node? x = some n → u.WellTyped n
  /-- New nodes have no targets. -/
  unbound : ∀ x, t.size ≤ x → u.target? x = none

namespace Grown

/-- A sound tree has grown from itself by nothing. -/
theorem refl (h : t.Sound) : t.Grown t where
  toExtends := Extends.refl t
  sound_before := h
  sound := h
  typed := fun x n hx hn => (Nat.not_le.mpr (lt_size_of_node? hn) hx).elim
  unbound := fun x hx => by simp [target?, node?_eq_none_iff.mpr hx]

/-- Growth goes on from what has grown. -/
theorem trans (hts : t.Grown s) (hsu : s.Grown u) : t.Grown u where
  toExtends := hts.toExtends.trans hsu.toExtends
  sound_before := hts.sound_before
  sound := hsu.sound
  typed := by
    intro x n hx hn
    by_cases hxs : x < s.size
    · rw [hsu.node x hxs] at hn
      exact hsu.keeps.wellTyped (hts.typed x n hx hn)
    · exact hsu.typed x n (Nat.not_lt.mp hxs) hn
  unbound := by
    intro x hx
    by_cases hxs : x < s.size
    · rw [target?_congr (hsu.node x hxs)]
      exact hts.unbound x hx
    · exact hsu.unbound x (Nat.not_lt.mp hxs)

/-- In a tree that has grown from nothing all nodes are typed. -/
theorem all_typed (h : Grown {} u) (x : NodeId) (n : Node) (hx : u.node? x = some n) :
    u.WellTyped n :=
  h.typed x n (Nat.zero_le x) hx

/-- The subtree at a new node that has no old owner consists of new nodes. -/
theorem size_le_of_within (h : t.Grown u) (hp : t.size ≤ p) (hx : u.Within p x) : t.size ≤ x := by
  -- An old node has the same chain as before, and all of it is old.
  by_contra hlt
  have hxlt : x < t.size := Nat.not_le.mp hlt
  have hchain : u.ancestors x = t.ancestors x := h.ancestors h.sound_before h.sound hxlt
  rcases List.mem_cons.mp hx with rfl | hmem
  · exact hlt hp
  · rw [hchain] at hmem
    have hplt := h.sound_before.lt_size_of_chain (h.sound_before.chain_ancestors x) p hmem
    exact Nat.not_le.mpr hplt hp

end Grown

/-- Recording the dependencies of a subtree without targets changes nothing. -/
theorem refreshSubtree_of_unbound {root : NodeId} (h : t.Sound)
    (hunbound : ∀ x, t.Within root x → t.target? x = none) : t.refreshSubtree root = t := by
  have hnil : (t.inspect root).filter (·.1 ∈ t.bound) = [] := by
    refine List.filter_eq_nil_iff.mpr fun found hfound => ?_
    have hwithin := (h.mem_inspect.mp hfound).2
    simp [h.bound, hunbound found.1 hwithin]
  unfold refreshSubtree
  rw [hnil, List.foldl_nil, ite_self]

/-- A tree that has grown, among others by the roots `ids`. -/
structure Made (t u : Tree) (ids : List NodeId) : Prop extends t.Grown u, t.NewRoots u ids

/-- Where nothing but growth is known, no root is promised. -/
theorem Grown.made (h : t.Grown u) : t.Made u [] :=
  ⟨h, List.nodup_nil, by simp, by simp⟩

/-- Either of two new roots can be attached to the other. -/
theorem NewRoots.attachable (h : t.NewRoots u (p :: c :: rest)) (hu : u.Sound) :
    u.Attachable p c := by
  obtain ⟨hp, hproot⟩ := h.root p List.mem_cons_self
  obtain ⟨hc, hcroot⟩ := h.root c (List.mem_cons_of_mem p List.mem_cons_self)
  refine ⟨hp, hc, hcroot, fun hwithin => ?_⟩
  have hcp : c = p := (within_iff_of_root hu hproot).mp hwithin
  have hnodup := h.nodup
  simp [hcp] at hnodup

namespace Made

/-- Some of the new roots may be forgotten, and their order does not matter. -/
theorem mono (h : t.Made u ids) (hnodup : new.Nodup) (hsubset : new ⊆ ids) : t.Made u new :=
  ⟨h.toGrown, hnodup, fun d hd => h.new d (hsubset hd), fun d hd => h.root d (hsubset hd)⟩

/-- What was made first is still there when more has been made. -/
theorem trans (hts : t.Made s ids) (hsu : s.Made u new) : t.Made u (ids ++ new) := by
  have hold {d : NodeId} (hd : d ∈ ids) : d < s.size := (hts.root d hd).1
  refine ⟨hts.toGrown.trans hsu.toGrown, ?nodup, ?new, ?root⟩
  case nodup =>
    refine List.nodup_append.mpr ⟨hts.nodup, hsu.nodup, fun d hd e he hde => ?_⟩
    exact Nat.not_le.mpr (hold hd) (hde ▸ hsu.new e he)
  case new =>
    intro d hd
    rcases List.mem_append.mp hd with hd | hd
    · exact hts.new d hd
    · exact hts.size_le.trans (hsu.new d hd)
  case root =>
    intro d hd
    rcases List.mem_append.mp hd with hd | hd
    · obtain ⟨hlt, hroot⟩ := hts.root d hd
      exact ⟨hlt.trans_le hsu.size_le, (hsu.parent d hlt).trans hroot⟩
    · exact hsu.root d hd

/-! ## Adding a node -/

/-- A node can be added over roots that were made for it. -/
theorem adoptable (h : t.Made u (n.children ++ rest)) (htarget : n.target = none) :
    u.Adoptable n where
  children := fun d hd => h.root d (List.mem_append_left rest hd)
  nodup := (List.nodup_append.mp h.nodup).1
  target := fun d hd => by simp [htarget] at hd

/-- A node over new roots makes a new root. -/
theorem append (h : t.Made u (n.children ++ rest)) (htarget : n.target = none)
    (htyped : u.WellTyped n) : t.Made (u.append n l) (u.size :: rest) := by
  have ha := h.adoptable htarget
  obtain ⟨-, hrest, hdisjoint⟩ := List.nodup_append.mp h.nodup
  have hlt {d : NodeId} (hd : d ∈ rest) : d < u.size :=
    (h.root d (List.mem_append_right n.children hd)).1
  refine ⟨⟨?base, h.sound_before, h.sound.append ha, ?typed, ?unbound⟩, ?nodup, ?new, ?root⟩
  case base =>
    exact h.toExtends.append ha fun d hd => h.new d (List.mem_append_left rest hd)
  case typed =>
    intro x m hx hm
    by_cases hxu : x = u.size
    · rw [hxu, node?_append_self, Option.some_inj] at hm
      exact keeps_append.wellTyped (hm ▸ htyped)
    · rw [node?_append_of_ne hxu] at hm
      exact keeps_append.wellTyped (h.typed x m hx hm)
  case unbound =>
    intro x hx
    rw [target?_append]
    split
    · exact htarget
    · exact h.unbound x hx
  case nodup =>
    exact List.nodup_cons.mpr ⟨fun hmem => (hlt hmem).ne rfl, hrest⟩
  case new =>
    refine List.forall_mem_cons.mpr ⟨h.size_le, fun d hd => ?_⟩
    exact h.new d (List.mem_append_right n.children hd)
  case root =>
    refine List.forall_mem_cons.mpr ⟨by simp, fun d hd => ?_⟩
    -- The other roots are not among the children, so they get no owner.
    have hnotChild : d ∉ n.children := fun hmem => hdisjoint d hmem d hd rfl
    refine ⟨size_append ▸ Nat.lt_succ_of_lt (hlt hd), ?_⟩
    rw [parent?_append ha.children, if_neg hnotChild]
    exact (h.root d (List.mem_append_right n.children hd)).2

/-- A node is added over new roots. -/
theorem add (h : t.Made u (n.children ++ rest)) (htarget : n.target = none)
    (htyped : u.WellTyped n) (l : Location) : TreeM.add n l u = .ok u.size (u.append n l) := by
  have hmade : t.Made (u.append n l) (u.size :: rest) := h.append htarget htyped
  rw [TreeM.add_of_adoptable (h.adoptable htarget), refreshSubtree_of_unbound hmade.sound]
  exact fun x hx => hmade.unbound x (hmade.size_le_of_within h.size_le hx)

/-! ## Attaching a root -/

/-- A new root is attached to another, which then names it. -/
theorem attach (h : t.Made u (p :: c :: rest)) (hp : u.node? p = some n) (hn : n'.Without c n)
    (hform : n'.form = n.form) (htyped : u.WellTyped n') :
    t.Made (u.move p n' c (some p)) (p :: rest) := by
  have ha := h.attachable h.sound
  have hpnew : t.size ≤ p := h.new p List.mem_cons_self
  have hcnew : t.size ≤ c := h.new c (List.mem_cons_of_mem p List.mem_cons_self)
  obtain ⟨hpc, hc⟩ := List.nodup_cons.mp h.nodup
  have hcrest := (List.nodup_cons.mp hc).1
  have hkeeps : u.Keeps (u.relink p n' c (some p)) := keeps_relink hp hform
  -- Both nodes are new, so nothing that was there changes.
  have hgrown : t.Grown (u.relink p n' c (some p)) := by
    refine ⟨⟨?size, ?node, ?parent, ?location, h.graph⟩, h.sound_before,
      h.sound.relink_some hp hn ha, ?typed, ?unbound⟩
    case size => simpa using h.size_le
    case node =>
      intro x hx
      rw [node?_relink ha.owner, if_neg (hx.trans_le hpnew).ne, h.node x hx]
    case parent =>
      intro x hx
      rw [parent?_relink ha.child, if_neg (hx.trans_le hcnew).ne, h.parent x hx]
    case location =>
      intro x hx
      rw [relink, location?_setParent, location?_setNode, h.location x hx]
    case typed =>
      intro x m hx hm
      rw [node?_relink ha.owner] at hm
      split at hm
      · exact hkeeps.wellTyped (Option.some_inj.mp hm ▸ htyped)
      · exact hkeeps.wellTyped (h.typed x m hx hm)
    case unbound =>
      intro x hx
      rw [target?_relink hp hn.target.symm]
      exact h.unbound x hx
  -- None of the new nodes has a target, so nothing is recorded.
  have hsame : u.move p n' c (some p) = u.relink p n' c (some p) := by
    refine refreshSubtree_of_unbound hgrown.sound fun x hx => ?_
    exact hgrown.unbound x (hgrown.size_le_of_within hcnew hx)
  rw [hsame]
  refine ⟨hgrown, ?_, fun d hd => ?_, fun d hd => ?_⟩
  · exact List.nodup_cons.mpr
      ⟨fun hmem => hpc (List.mem_cons_of_mem c hmem), (List.nodup_cons.mp hc).2⟩
  · exact h.new d (List.cons_subset_cons p (List.subset_cons_self c rest) hd)
  · obtain ⟨hlt, hroot⟩ := h.root d (List.cons_subset_cons p (List.subset_cons_self c rest) hd)
    have hdc : d ≠ c := by
      rintro rfl
      rcases List.mem_cons.mp hd with rfl | hd
      · exact hpc List.mem_cons_self
      · exact hcrest hd
    refine ⟨by simpa using hlt, ?_⟩
    rw [parent?_relink ha.child, if_neg hdc, hroot]

end Made

end InfraModule.Tree
