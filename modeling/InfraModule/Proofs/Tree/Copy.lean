import InfraModule.Proofs.Tree.Operation
import InfraModule.Tree.Copy

/-!
# What copying does

Copying a subtree creates new nodes only, so that the tree `Extends` what it was: nodes, owners,
locations and edges stay. The copy of a node owns the copies of its children, which were roots until
then.
-/

namespace InfraModule

open Result

namespace Tree

variable {t s u : Tree} {id : NodeId}

/-- A tree with more nodes, none of which touches the nodes and edges that were there. -/
structure Extends (t u : Tree) : Prop where
  /-- No node is lost. -/
  size_le : t.size ≤ u.size
  /-- Nodes stay. -/
  node : ∀ x < t.size, u.node? x = t.node? x
  /-- Owners stay. -/
  parent : ∀ x < t.size, u.parent? x = t.parent? x
  /-- Locations stay. -/
  location : ∀ x < t.size, u.location? x = t.location? x
  /-- Edges stay. -/
  graph : u.graph = t.graph

/-- A tree extends itself. -/
theorem Extends.refl (t : Tree) : t.Extends t :=
  ⟨le_refl _, fun _ _ => rfl, fun _ _ => rfl, fun _ _ => rfl, rfl⟩

/-- What extends an extension extends the tree. -/
theorem Extends.trans (hts : t.Extends s) (hsu : s.Extends u) : t.Extends u where
  size_le := hts.size_le.trans hsu.size_le
  node := fun x hx => (hsu.node x (hx.trans_le hts.size_le)).trans (hts.node x hx)
  parent := fun x hx => (hsu.parent x (hx.trans_le hts.size_le)).trans (hts.parent x hx)
  location := fun x hx => (hsu.location x (hx.trans_le hts.size_le)).trans (hts.location x hx)
  graph := hsu.graph.trans hts.graph

/-- Nodes that were there keep their children. -/
theorem Extends.children (h : t.Extends u) {x : NodeId} (hx : x < t.size) :
    u.children x = t.children x :=
  children_congr (h.node x hx)

/-- The owners above a node that was there are the same. -/
theorem Extends.ancestors (h : t.Extends u) (ht : t.Sound) (hu : u.Sound) {x : NodeId}
    (hx : x < t.size) : u.ancestors x = t.ancestors x := by
  refine ht.ancestors_congr hu fun a ha => h.parent a ?_
  rcases List.mem_cons.mp ha with rfl | ha
  · exact hx
  · exact ht.lt_size_of_chain (ht.chain_ancestors x) a ha

/-- Subtrees that were there are as deep as they were. -/
theorem Extends.fits (h : t.Extends u) (ht : t.Sound) {levels : Nat} (hid : id < t.size)
    (hfits : t.Fits levels id) : u.Fits levels id := by
  induction levels generalizing id with
  | zero => exact hfits.elim
  | succ levels ih =>
    intro c hc
    rw [h.children hid] at hc
    exact ih (ht.lt_size_of_child hc) (hfits c hc)

/-- No reference that was there is disturbed. -/
theorem Extends.undisturbed (h : t.Extends u) (ht : t.Sound) {x : NodeId} (hx : x < t.size) :
    t.Undisturbed u x := by
  refine ⟨target?_congr (h.node x hx), fun a ha => h.parent a ?_⟩
  rcases List.mem_cons.mp ha with rfl | ha
  · exact hx
  · exact ht.lt_size_of_chain (ht.chain_ancestors x) a ha

/-- An extension disturbs nothing, so that all edges stay. -/
theorem Extends.updates (h : t.Extends u) (ht : t.Sound) : t.Updates u where
  size_le := h.size_le
  kind := fun x hx => kind?_congr (h.node x hx)
  kept := fun x _ _ => by rw [h.graph]
  caused := fun x hx hdisturbed => (hdisturbed (h.undisturbed ht hx)).elim

/-- Creating a root that owns no older node. -/
theorem Extends.append {n : Node} {l : Location} (h : t.Extends u) (hadoptable : u.Adoptable n)
    (hnew : ∀ d ∈ n.children, t.size ≤ d) : t.Extends (u.append n l) where
  size_le := by
    rw [size_append]
    exact h.size_le.trans (Nat.le_succ _)
  node := fun x hx => by rw [node?_append_of_ne (hx.trans_le h.size_le).ne, h.node x hx]
  parent := fun x hx => by
    rw [parent?_append hadoptable.children, if_neg fun hmem => Nat.not_le.mpr hx (hnew x hmem),
      h.parent x hx]
  location := fun x hx => by
    rw [location?_append_of_ne (hx.trans_le h.size_le).ne, h.location x hx]
  graph := by rw [graph_append, h.graph]

/-- Distinct roots that were created after `t`. -/
structure NewRoots (t u : Tree) (ids : List NodeId) : Prop where
  /-- They are distinct. -/
  nodup : ids.Nodup
  /-- They were not there before. -/
  new : ∀ d ∈ ids, t.size ≤ d
  /-- They are roots. -/
  root : ∀ d ∈ ids, d < u.size ∧ u.parent? d = none

end Tree

namespace TreeM

variable {t : Tree} {id : NodeId} {levels : Nat}

/-- What a copy of a single node does, where `copy` copies its children. -/
theorem copyWithin_succ {n : Node} {l : Location} (hid : t.node? id = some n)
    (hl : t.location? id = some l) : copyWithin (levels + 1) id t
      = (n.children.mapM (copyWithin levels) >>= fun copies =>
          append (n.withChildren copies) l) t := by
  obtain ⟨e, he, hn, -, hloc⟩ := Tree.requireEntry_of_lt (Tree.lt_size_of_node? hid)
  rw [hid, Option.some_inj] at hn
  rw [hl, Option.some_inj] at hloc
  rw [copyWithin, bind_of_ok (ask_of_ok he), hn, hloc]

/-- Creating a node always succeeds and gives the next id. -/
theorem append_apply (n : Node) (l : Location) (t : Tree) :
    append n l t = .ok t.size (t.append n l) := rfl

/-- Several nodes are copied one after the other. -/
theorem mapM_copyWithin_ok {cs : List NodeId} (ht : t.Sound)
    (hcopy : ∀ {u : Tree}, u.Sound → t.Extends u → ∀ c ∈ cs,
      ∃ d v, copyWithin levels c u = .ok d v ∧ v.Sound ∧ u.Extends v ∧ u.NewRoots v [d]) :
    ∃ ds u, cs.mapM (copyWithin levels) t = .ok ds u ∧ u.Sound ∧ t.Extends u ∧
      t.NewRoots u ds ∧ ds.length = cs.length := by
  induction cs generalizing t with
  | nil => exact ⟨[], t, rfl, ht, Tree.Extends.refl t, ⟨List.nodup_nil, by simp, by simp⟩, rfl⟩
  | cons c cs ih =>
    obtain ⟨d, s, hd, hs, hts, hnew⟩ := hcopy ht (Tree.Extends.refl t) c List.mem_cons_self
    obtain ⟨ds, u, hds, hu, hsu, hnews, hlength⟩ := ih hs fun hv hsv c hc =>
      hcopy hv (hts.trans hsv) c (List.mem_cons_of_mem _ hc)
    obtain ⟨hdlt, hdroot⟩ := hnew.root d List.mem_cons_self
    -- Later copies are newer than the first and do not own it.
    refine ⟨d :: ds, u, ?_, hu, hts.trans hsu, ⟨?nodup, ?new, ?root⟩, by simp [hlength]⟩
    · rw [List.mapM_cons, bind_of_ok hd, bind_of_ok hds]
      rfl
    case nodup =>
      exact List.nodup_cons.mpr ⟨fun hmem => Nat.not_le.mpr hdlt (hnews.new d hmem), hnews.nodup⟩
    case new =>
      refine List.forall_mem_cons.mpr ⟨hnew.new d List.mem_cons_self, fun e he => ?_⟩
      exact hts.size_le.trans (hnews.new e he)
    case root =>
      refine List.forall_mem_cons.mpr ⟨⟨hdlt.trans_le hsu.size_le, ?_⟩, hnews.root⟩
      rw [hsu.parent d hdlt, hdroot]

/-- A subtree that exists is copied to a new root. -/
theorem copyWithin_ok (ht : t.Sound) (hid : id < t.size) (hfits : t.Fits levels id) :
    ∃ d u, copyWithin levels id t = .ok d u ∧ u.Sound ∧ t.Extends u ∧ t.NewRoots u [d] := by
  induction levels generalizing t id with
  | zero => exact hfits.elim
  | succ levels ih =>
    obtain ⟨n, hn⟩ := Tree.node?_eq_some_iff_lt.mpr hid
    obtain ⟨e, -, -, -, hl⟩ := Tree.requireEntry_of_lt hid
    have hchildren : t.children id = n.children := Tree.children_of_node? hn
    -- Copies made before leave the children that are still to be copied as they are.
    have hcopies : ∃ ds u, n.children.mapM (copyWithin levels) t = .ok ds u ∧ u.Sound ∧
        t.Extends u ∧ t.NewRoots u ds ∧ ds.length = n.children.length := by
      refine mapM_copyWithin_ok ht fun hv htv c hc => ?_
      rw [← hchildren] at hc
      have hclt := ht.lt_size_of_child hc
      exact ih hv (hclt.trans_le htv.size_le) (htv.fits ht hclt (hfits c hc))
    obtain ⟨ds, u, hds, hu, htu, hnews, hlength⟩ := hcopies
    -- The copies are roots, and the copy of a reference has its target.
    have hadoptable : u.Adoptable (n.withChildren ds) := by
      refine ⟨?_, ?_, fun d hd => ?_⟩
      · rw [Node.children_withChildren hlength]
        exact hnews.root
      · rw [Node.children_withChildren hlength]
        exact hnews.nodup
      · rw [Node.target_withChildren hlength, ← Tree.target?_of_node? hn] at hd
        have hdlt : d < t.size := Tree.lt_size_of_kind? (ht.target hd)
        rw [Tree.kind?_congr (htu.node d hdlt)]
        exact ht.target hd
    refine ⟨u.size, u.append (n.withChildren ds) e.location, ?_, hu.append hadoptable, ?_, ?_⟩
    · rw [copyWithin_succ hn hl, bind_of_ok hds, append_apply]
    · refine htu.append hadoptable fun d hd => ?_
      rw [Node.children_withChildren hlength] at hd
      exact hnews.new d hd
    · exact ⟨by simp, by simpa using htu.size_le, by simp⟩

/-- A node that exists is copied with its subtree; the copy is a new root and nothing else
changes. -/
theorem copySubtree_ok (ht : t.Sound) (hid : id < t.size) :
    ∃ d u, copySubtree id t = .ok d u ∧ u.Sound ∧ t.Extends u ∧ t.NewRoots u [d] :=
  copyWithin_ok ht hid (ht.fits hid)

/-- A node that does not exist cannot be copied. -/
theorem copySubtree_of_le (hid : t.size ≤ id) :
    copySubtree id t = .error (.unknownNode id) t := by
  have happly : copySubtree id t = copyWithin t.size id t := rfl
  rw [happly]
  cases t.size with
  | zero => rfl
  | succ levels => exact bind_of_error (ask_of_error (Tree.requireEntry_of_le hid))

end TreeM

end InfraModule
