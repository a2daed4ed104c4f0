import InfraModule.Proofs.Tree.Clone

/-!
# Parts of a tree that do not meet

Where no node from `k` on owns one before it or is owned by one (`Tree.Parted`), operations that
name nodes from `k` on only leave everything before as it was: nodes, owners, locations and edges
(`Tree.Frames`). So it is after a subtree was copied, with `k` the first node of the copy, and
whatever is done to the copy and to what is created later, the original stays as it is. Targets need
not lie on the same side, since a reference does not own its target.
-/

namespace InfraModule

open Result

/-- The nodes that a call may change or attach. What a reference is bound to and what is copied are
not among them. -/
def Operation.subjects : Operation → List NodeId
  | .add node _ => node.children
  | .setProperty id _ value => id :: value.toList
  | .pushChild parent child => [parent, child]
  | .insertEntry object _ value => [object, value]
  | .detach child => [child]
  | .setReference id _ => [id]
  | .copySubtree _ => []
  | .linkReferences root => [root]

namespace Tree

variable {t s u : Tree} {k : Nat} {x p c : NodeId}

/-- Nodes from `k` on neither own nodes before `k` nor are owned by them, and no item before `k`
depends on something because of a reference from `k` on. -/
structure Parted (k : Nat) (t : Tree) : Prop where
  /-- The nodes before `k` are there. -/
  le_size : k ≤ t.size
  /-- An owner stands on the side of its children. -/
  owner : ∀ c p, t.parent? c = some p → (k ≤ p ↔ k ≤ c)
  /-- What depends on something because of a reference stands on the side of the reference. -/
  edge : ∀ x e, k ≤ x → t.graph.edgeFor? x = some e → k ≤ e.dependent

/-- Of the nodes before `k` nothing has changed. -/
structure Frames (k : Nat) (t u : Tree) : Prop where
  /-- Nodes stay. -/
  node : ∀ x < k, u.node? x = t.node? x
  /-- Owners stay. -/
  parent : ∀ x < k, u.parent? x = t.parent? x
  /-- Locations stay. -/
  location : ∀ x < k, u.location? x = t.location? x
  /-- Edges stay. -/
  edge : ∀ x < k, u.graph.edgeFor? x = t.graph.edgeFor? x

/-- Nodes and owners have changed from `k` on only, and a node from `k` on that has another owner
than before has one from `k` on. -/
structure Touches (k : Nat) (t u : Tree) : Prop where
  /-- No node is lost. -/
  size_le : t.size ≤ u.size
  /-- Nodes before `k` stay. -/
  node : ∀ x < k, u.node? x = t.node? x
  /-- Owners before `k` stay. -/
  parent : ∀ x < k, u.parent? x = t.parent? x
  /-- Locations before `k` stay. -/
  location : ∀ x < k, u.location? x = t.location? x
  /-- Owners from `k` on are the same or from `k` on. -/
  owner : ∀ c p, k ≤ c → u.parent? c = some p → k ≤ p ∨ t.parent? c = some p

/-- Where nothing is changed, nothing before `k` is. -/
theorem Frames.refl (k : Nat) (t : Tree) : Frames k t t :=
  ⟨fun _ _ => rfl, fun _ _ => rfl, fun _ _ => rfl, fun _ _ => rfl⟩

/-- What two changes leave alone is left alone by both together. -/
theorem Frames.trans (hts : Frames k t s) (hsu : Frames k s u) : Frames k t u where
  node := fun x hx => (hsu.node x hx).trans (hts.node x hx)
  parent := fun x hx => (hsu.parent x hx).trans (hts.parent x hx)
  location := fun x hx => (hsu.location x hx).trans (hts.location x hx)
  edge := fun x hx => (hsu.edge x hx).trans (hts.edge x hx)

/-! ## Nodes and owners -/

namespace Touches

/-- Where nothing is changed, nothing is touched. -/
theorem refl (k : Nat) (t : Tree) : Touches k t t :=
  ⟨le_refl _, fun _ _ => rfl, fun _ _ => rfl, fun _ _ => rfl, fun _ _ _ h => Or.inr h⟩

/-- Two changes that touch nothing before `k` touch nothing there together. -/
theorem trans (hts : Touches k t s) (hsu : Touches k s u) : Touches k t u where
  size_le := hts.size_le.trans hsu.size_le
  node := fun x hx => (hsu.node x hx).trans (hts.node x hx)
  parent := fun x hx => (hsu.parent x hx).trans (hts.parent x hx)
  location := fun x hx => (hsu.location x hx).trans (hts.location x hx)
  owner := fun c p hc hp => (hsu.owner c p hc hp).elim Or.inl (hts.owner c p hc)

/-- Attaching or detaching a node from `k` on at a node from `k` on. -/
theorem move {n : Node} {q : Option NodeId} (hp : k ≤ p) (hplt : p < t.size) (hc : k ≤ c)
    (hclt : c < t.size) (hq : ∀ a ∈ q, k ≤ a) : Touches k t (t.move p n c q) where
  size_le := by rw [size_move]
  node := fun x hx => by rw [node?_move hplt, if_neg (hx.trans_le hp).ne]
  parent := fun x hx => by rw [parent?_move hclt, if_neg (hx.trans_le hc).ne]
  location := fun x _ => by rw [location?_move]
  owner := fun d a _ ha => by
    rw [parent?_move hclt] at ha
    split at ha
    · exact Or.inl (hq a ha)
    · exact Or.inr ha

/-- Creating a root over nodes from `k` on. -/
theorem append {n : Node} {l : Location} (hk : k ≤ t.size) (ha : t.Adoptable n)
    (hn : ∀ c ∈ n.children, k ≤ c) :
    Touches k t ((t.append n l).refreshSubtree t.size) where
  size_le := by simp
  node := fun x hx => by rw [node?_refreshSubtree, node?_append_of_ne (hx.trans_le hk).ne]
  parent := fun x hx => by
    rw [parent?_refreshSubtree, parent?_append ha.children,
      if_neg fun hmem => Nat.not_le.mpr hx (hn x hmem)]
  location := fun x hx => by
    rw [location?_refreshSubtree, location?_append_of_ne (hx.trans_le hk).ne]
  owner := fun c p _ hp => by
    rw [parent?_refreshSubtree, parent?_append ha.children] at hp
    split at hp
    · cases hp
      exact Or.inl hk
    · exact Or.inr hp

/-- Binding a reference from `k` on anew. -/
theorem retarget {n : Node} {target : Option NodeId} (hx : k ≤ x) (hlt : x < t.size) :
    Touches k t (t.retarget x n target) where
  size_le := by rw [size_retarget]
  node := fun y hy => by rw [node?_retarget hlt, if_neg (hy.trans_le hx).ne]
  parent := fun y _ => by rw [parent?_retarget]
  location := fun y _ => by rw [location?_retarget]
  owner := fun d a _ ha => by
    rw [parent?_retarget] at ha
    exact Or.inr ha

/-- Creating a copy. -/
theorem copies {f : NodeId → NodeId} {root copy : NodeId} (hk : k ≤ t.size) (htu : t.Extends u)
    (hu : u.Sound) (h : t.Copies u f root copy) : Touches k t u where
  size_le := htu.size_le
  node := fun x hx => htu.node x (hx.trans_le hk)
  parent := fun x hx => htu.parent x (hx.trans_le hk)
  location := fun x hx => htu.location x (hx.trans_le hk)
  owner := fun c p _ hp => by
    by_cases hc : c < t.size
    · rw [htu.parent c hc] at hp
      exact Or.inr hp
    · -- A new node lies in the copy, and so does its owner.
      have hwithin := (h.new c).mpr ⟨Nat.not_lt.mp hc, lt_size_of_parent? hp⟩
      rcases (within_iff_of_parent? hu hp).mp hwithin with rfl | hwithin
      · simp [h.unattached] at hp
      · exact Or.inl (hk.trans ((h.new p).mp hwithin).1)

/-- Binding a reference touches no other node. -/
theorem setReference (target : Option NodeId) (hx : k ≤ x) :
    Touches k t (final (TreeM.setReference x target t)) := by
  rcases TreeM.setReference_cases t x target with ⟨n, hid, -, -, -, hok⟩ | hok | ⟨e, he⟩
  · rw [hok]
    exact Touches.retarget hx (lt_size_of_node? hid)
  · rw [hok]
    exact Touches.refl k t
  · rw [he]
    exact Touches.refl k t

end Touches

/-! ## Two sides -/

/-- Where owners stand on the side of their children, so does all that stands above a node. -/
theorem le_of_chain (howner : ∀ c p, t.parent? c = some p → (k ≤ p ↔ k ≤ c)) {l : List NodeId}
    (hl : Chain t x l) : ∀ a ∈ l, k ≤ a ↔ k ≤ x := by
  induction hl with
  | root => simp
  | step hp hl ih =>
    refine List.forall_mem_cons.mpr ⟨howner _ _ hp, fun a ha => ?_⟩
    exact (ih a ha).trans (howner _ _ hp)

/-- The item that depends stands above the reference. -/
theorem mem_ancestors_of_causedEdge? {e : Edge} (h : t.causedEdge? x = some e) :
    e.dependent ∈ t.ancestors x := by
  unfold causedEdge? at h
  split at h
  · next d d' hitem _ =>
    split at h
    · simp at h
    · cases h
      exact List.mem_of_find?_eq_some hitem
  · simp at h

namespace Parted

/-- A subtree lies on the side of its root. -/
theorem le_of_within (h : t.Parted k) (ht : t.Sound) {root : NodeId} (hroot : k ≤ root)
    (hx : t.Within root x) : k ≤ x := by
  rcases List.mem_cons.mp hx with rfl | hmem
  · exact hroot
  · exact (le_of_chain h.owner (ht.chain_ancestors x) root hmem).mp hroot

/-- All nodes of a tree stand before those that are still to be created. -/
theorem of_size (ht : t.Sound) : t.Parted t.size where
  le_size := le_refl _
  owner := fun c p hp => iff_of_false (Nat.not_le.mpr (ht.lt_size_of_owner hp))
    (Nat.not_le.mpr (lt_size_of_parent? hp))
  edge := fun x e hx he => by
    rw [ht.edge (target?_eq_none_of_le hx)] at he
    simp at he

section Touched

variable (h : t.Parted k) (htu : Touches k t u)

include h htu

/-- An owner stays on the side of its child. -/
theorem owner_of_touches (c p : NodeId) (hp : u.parent? c = some p) : k ≤ p ↔ k ≤ c := by
  by_cases hc : k ≤ c
  · refine iff_of_true ?_ hc
    rcases htu.owner c p hc hp with hle | hold
    · exact hle
    · exact (h.owner c p hold).mpr hc
  · rw [htu.parent c (Nat.lt_of_not_le hc)] at hp
    exact h.owner c p hp

/-- A reference before `k` is not disturbed, since all that stands above it is before `k`. -/
theorem undisturbed_of_touches (ht : t.Sound) (hx : x < k) : t.Undisturbed u x := by
  refine ⟨target?_congr (htu.node x hx), fun a ha => htu.parent a ?_⟩
  rcases List.mem_cons.mp ha with rfl | hmem
  · exact hx
  · have hle := le_of_chain h.owner (ht.chain_ancestors x) a hmem
    exact Nat.lt_of_not_le fun ha => Nat.not_le.mpr hx (hle.mp ha)

/-- What depends on something because of a reference from `k` on still stands from `k` on. -/
theorem edge_of_touches {isCopy : Bool} (hrecorded : t.Recorded u isCopy) {e : Edge} (hx : k ≤ x)
    (he : u.graph.edgeFor? x = some e) : k ≤ e.dependent := by
  have hu := hrecorded.sound
  have hcaused (hc : u.causedEdge? x = some e) : k ≤ e.dependent :=
    (le_of_chain (h.owner_of_touches htu) (hu.chain_ancestors x) _
      (mem_ancestors_of_causedEdge? hc)).mpr hx
  -- The edge was there already or is caused by what stands above the reference now.
  by_cases hlt : x < t.size
  · by_cases hundisturbed : t.Undisturbed u x
    · rw [hrecorded.updates.kept x hlt hundisturbed] at he
      exact h.edge x e hx he
    · rw [hrecorded.updates.caused x hlt hundisturbed] at he
      exact hcaused he
  · have hlt' : x < u.size := by
      refine Nat.lt_of_not_le fun hle => ?_
      rw [hu.edge (target?_eq_none_of_le hle)] at he
      simp at he
    rw [hrecorded.created x (Nat.not_lt.mp hlt) hlt'] at he
    split at he
    · simp at he
    · exact hcaused he

/-- A change from `k` on keeps the two sides apart and leaves what stands before `k`. -/
theorem of_touches (ht : t.Sound) {isCopy : Bool} (hrecorded : t.Recorded u isCopy) :
    u.Parted k ∧ Frames k t u where
  left := {
    le_size := h.le_size.trans htu.size_le
    owner := h.owner_of_touches htu
    edge := fun _ _ => h.edge_of_touches htu hrecorded }
  right := {
    node := htu.node
    parent := htu.parent
    location := htu.location
    edge := fun x hx => hrecorded.updates.kept x (hx.trans_le h.le_size)
      (h.undisturbed_of_touches htu ht hx) }

end Touched

/-! ## One operation -/

/-- Binding a key touches the declaration, its new value and its old one, which lies on the same
side. -/
theorem touches_setProperty (h : t.Parted k) (ht : t.Sound) (key : String) {value : Option NodeId}
    (hx : k ≤ x) (hvalue : ∀ v ∈ value, k ≤ v) :
    Touches k t (final (TreeM.setProperty x key value t)) := by
  rcases TreeM.setProperty_cases t x key value with ⟨d, hid, hkey, ha⟩ | ⟨e, he⟩
  · rw [TreeM.setProperty_of_attachable ht hid hkey ha]
    have hlt := lt_size_of_node? hid
    -- What was bound to the key is owned by the declaration, so it stands on its side.
    have hvacate : Touches k t (t.vacate x d key) := by
      cases hc : d.property? key with
      | none =>
        rw [vacate_of_none hc]
        exact Touches.refl k t
      | some c =>
        rw [vacate_of_some hc]
        have howner := ht.parent?_property? hid hkey hc
        exact Touches.move hx hlt ((h.owner c x howner).mp hx) (lt_size_of_parent? howner) (by simp)
    refine hvacate.trans ?_
    cases value with
    | none => exact Touches.refl k _
    | some v =>
      exact Touches.move hx (by simpa using hlt) (hvalue v rfl) (by simpa using (ha v rfl).child)
        (by simpa using hx)
  · rw [he]
    exact Touches.refl k t

/-- Detaching a child touches it and its owner, which lies on the same side. -/
theorem touches_detach (h : t.Parted k) (ht : t.Sound) (hc : k ≤ c) :
    Touches k t (final (TreeM.detach c t)) := by
  rcases TreeM.detach_cases ht c with ⟨p, n, n', hp, hn, hremove⟩ | ⟨-, -, hok⟩ | ⟨-, he⟩ |
    ⟨p, -, he⟩
  · rw [TreeM.detach_of_removed hp hn hremove]
    have hle : k ≤ p := (h.owner c p hp).mpr hc
    exact Touches.move hle (lt_size_of_node? hn) hc (lt_size_of_parent? hp) (by simp)
  · rw [hok]
    exact Touches.refl k t
  · rw [he]
    exact Touches.refl k t
  · rw [he]
    exact Touches.refl k t

/-- Binding the references of a subtree binds one after the other. -/
theorem touches_linkReferences (h : t.Parted k) (ht : t.Sound) {root : NodeId} (hroot : k ≤ root) :
    Touches k t (final (TreeM.linkReferences root t)) := by
  rw [TreeM.final_linkReferences]
  refine final_mapM (P := fun u => Touches k t u) (Touches.refl k t) fun r hr u htu => ?_
  have hle : k ≤ r := by
    obtain ⟨found, hfound, rfl⟩ := List.mem_map.mp hr
    exact h.le_of_within ht hroot (ht.mem_inspect.mp (List.mem_filter.mp hfound).1).2
  rw [TreeM.final_link]
  cases u.referenceName? r with
  | none => exact htu
  | some name => exact htu.trans (Touches.setReference _ hle)

/-- An operation whose subjects stand from `k` on touches nodes from `k` on only. -/
theorem touches (h : t.Parted k) (ht : t.Sound) {op : Operation} (hop : ∀ x ∈ op.subjects, k ≤ x) :
    Touches k t (op.apply t) := by
  -- A refused operation touches nothing, so that only what is done has to be looked at.
  cases op with
  | add n l =>
    rw [Operation.apply, Operation.perform, final_discard]
    rcases TreeM.adoptable_or_error t n l with ha | ⟨e, he⟩
    · rw [TreeM.add_of_adoptable ha]
      exact Touches.append h.le_size ha hop
    · rw [he]
      exact Touches.refl k t
  | setProperty id key value =>
    rw [Operation.apply, Operation.perform, final_discard]
    obtain ⟨hid, hvalue⟩ := List.forall_mem_cons.mp hop
    exact h.touches_setProperty ht key hid fun v hv => hvalue v (Option.mem_toList.mpr hv)
  | pushChild p c =>
    have hp : k ≤ p := hop p (by simp [Operation.subjects])
    have hc : k ≤ c := hop c (by simp [Operation.subjects])
    rw [Operation.apply, Operation.perform]
    rcases TreeM.pushChild_cases t p c with ⟨ha, n, n', hn, hpush⟩ | ⟨e, he⟩
    · rw [TreeM.pushChild_of_attachable ha hn hpush]
      exact Touches.move hp ha.owner hc ha.child (by simpa using hp)
    · rw [he]
      exact Touches.refl k t
  | insertEntry p key c =>
    have hp : k ≤ p := hop p (by simp [Operation.subjects])
    have hc : k ≤ c := hop c (by simp [Operation.subjects])
    rw [Operation.apply, Operation.perform, final_discard]
    rcases TreeM.insertEntry_cases t p key c with ⟨ha, es, hn⟩ | ⟨e, he⟩
    · cases hkey : es.contains key.text with
      | true =>
        rw [TreeM.insertEntry_of_contains ha hn hkey]
        exact Touches.refl k t
      | false =>
        rw [TreeM.insertEntry_of_attachable ha hn hkey]
        exact Touches.move hp ha.owner hc ha.child (by simpa using hp)
    · rw [he]
      exact Touches.refl k t
  | detach c =>
    rw [Operation.apply, Operation.perform]
    exact h.touches_detach ht (hop c (by simp [Operation.subjects]))
  | setReference id target =>
    rw [Operation.apply, Operation.perform]
    exact Touches.setReference target (hop id (by simp [Operation.subjects]))
  | copySubtree root =>
    rw [Operation.apply, Operation.perform, final_discard]
    by_cases hroot : root < t.size
    · obtain ⟨copy, u, f, hok, hu, htu, hcopies, -⟩ := TreeM.copySubtree_faithful ht hroot
      rw [hok]
      exact Touches.copies h.le_size htu hu hcopies
    · rw [TreeM.copySubtree_of_le (Nat.not_lt.mp hroot)]
      exact Touches.refl k t
  | linkReferences root =>
    rw [Operation.apply, Operation.perform, final_discard]
    exact h.touches_linkReferences ht (hop root (by simp [Operation.subjects]))

/-! ## Runs -/

/-- However many operations follow each other, what stands before `k` stays. -/
theorem run (ops : List Operation) (h : t.Parted k) (ht : t.Sound)
    (hops : ∀ op ∈ ops, ∀ x ∈ op.subjects, k ≤ x) :
    let u := ops.foldl (fun u op => op.apply u) t
    u.Sound ∧ u.Parted k ∧ Frames k t u := by
  induction ops generalizing t with
  | nil => exact ⟨ht, h, Frames.refl k t⟩
  | cons op ops ih =>
    obtain ⟨hop, hops⟩ := List.forall_mem_cons.mp hops
    have hrecorded := ht.recorded op
    obtain ⟨hparted, hframes⟩ := h.of_touches (h.touches ht hop) ht hrecorded
    obtain ⟨hu, hparted', hframes'⟩ := ih hparted hrecorded.sound hops
    exact ⟨hu, hparted', hframes.trans hframes'⟩

end Parted

/-- An edge of a sound tree is that of its reference. -/
theorem Sound.mem_edges (h : t.Sound) {e : Edge} :
    e ∈ t.graph.edges ↔ t.graph.edgeFor? e.via = some e := by
  rw [h.sorted.edgeFor?_eq_some]
  simp

/-- Trees with the same edges of references before `k` have the same edges that start before `k` or
are caused there. -/
theorem Frames.mem_edges (h : Frames k t u) (ht : t.Sound) (hu : u.Sound) (hpt : t.Parted k)
    (hpu : u.Parted k) {e : Edge} (he : e.via < k ∨ e.dependent < k) :
    e ∈ u.graph.edges ↔ e ∈ t.graph.edges := by
  rw [ht.mem_edges, hu.mem_edges]
  by_cases hvia : e.via < k
  · rw [h.edge e.via hvia]
  · -- A reference from `k` on has no edge that starts before `k`.
    have hdependent := he.resolve_left hvia
    have hnone {s : Tree} (hs : s.Parted k) : s.graph.edgeFor? e.via ≠ some e := fun hedge =>
      Nat.not_le.mpr hdependent (hs.edge e.via e (Nat.not_lt.mp hvia) hedge)
    exact iff_of_false (hnone hpu) (hnone hpt)

/-- A copy is faithful and independent. In every tree that operations have built, a node that exists
is copied to an unattached node whose subtree consists of new nodes only and is the original one but
for the ids, targets included; nothing that was there changes, and no edge is added. The copy is
written back as the original is, unless a declaration lies below it. And whatever is done later with
the copy and with nodes created after it, whichever targets references are bound to, all that was
there before the copy stays as it was: nodes, owners, locations, targets, the edges of references,
and what items depend on. -/
theorem copy_independent (hreachable : t.Reachable) {root : NodeId} (hroot : root < t.size) :
    ∃ copy u f, TreeM.copySubtree root t = .ok copy u ∧ t.Extends u ∧ t.Copies u f root copy ∧
      ((∀ x d, t.Within root x → t.node? x ≠ some (.declaration d)) →
        u.write copy = t.write root ∧ u.write root = t.write root) ∧
      ∀ ops : List Operation, (∀ op ∈ ops, ∀ x ∈ op.subjects, t.size ≤ x) →
        let v := ops.foldl (fun v op => op.apply v) u
        (∀ x < t.size, v.node? x = t.node? x ∧ v.parent? x = t.parent? x ∧
          v.location? x = t.location? x ∧ v.target? x = t.target? x ∧
          v.graph.edgeFor? x = t.graph.edgeFor? x) ∧
        ∀ e : Edge, e.via < t.size ∨ e.dependent < t.size →
          (e ∈ v.graph.edges ↔ e ∈ t.graph.edges) := by
  have ht := hreachable.sound
  obtain ⟨copy, u, f, hok, hu, htu, hcopies, hwrite⟩ := TreeM.copySubtree_faithful ht hroot
  refine ⟨copy, u, f, hok, htu, hcopies, hwrite, fun ops hops => ?_⟩
  -- Copying is itself an operation that touches new nodes only.
  have hcopy : final ((Operation.copySubtree root).perform t) = u := by
    rw [Operation.perform, final_discard, hok]
    rfl
  have hpt : t.Parted t.size := Parted.of_size ht
  have hrecorded : t.Recorded u true := hcopy ▸ ht.recorded (.copySubtree root)
  obtain ⟨hpu, hframes⟩ :=
    hpt.of_touches (Touches.copies (le_refl _) htu hu hcopies) ht hrecorded
  obtain ⟨hv, hpv, hframes'⟩ := hpu.run ops hu hops
  have hall := hframes.trans hframes'
  refine ⟨fun x hx => ?_, fun e he => hall.mem_edges ht hv hpt hpv he⟩
  exact ⟨hall.node x hx, hall.parent x hx, hall.location x hx, target?_congr (hall.node x hx),
    hall.edge x hx⟩

/-- A reference is copied; when the copy takes another name and target, the reference keeps its
own. -/
theorem copy_independent_of_reference :
    let declaration := (Declaration.new? .variable (some 0)).map Node.declaration
    let l : Location := default
    let ops := [.add (.expression (.literal (.string "v"))) l] ++
      declaration.toList.map (Operation.add · l) ++
      [.add (.expression (.literal (.string "v"))) l, .add (.expression (.call (.ref 2 (some 1)))) l]
    ∃ copy u f, TreeM.copySubtree 3 (after ops) = .ok copy u ∧ (after ops).Copies u f 3 copy ∧
      u.target? copy = some 1 ∧
      (Operation.apply (.setReference copy none) u).target? 3 = some 1 := by
  intro declaration l ops
  have hreachable : (after ops).Reachable := ⟨ops, rfl⟩
  have hsize : (after ops).size = 4 := by decide
  have htarget : (after ops).target? 3 = some 1 := by decide
  have hroot : 3 < (after ops).size := by rw [hsize]; decide
  obtain ⟨copy, u, f, hok, -, hcopies, -, hlater⟩ := copy_independent hreachable hroot
  refine ⟨copy, u, f, hok, hcopies, ?_, ?_⟩
  · rw [← hcopies.map_root, hcopies.target 3 (within_refl _ 3), htarget]
  · have hnew := ((hcopies.new copy).mp (within_refl u copy)).1
    have hframe := hlater [.setReference copy none] (by simpa [Operation.subjects] using hnew)
    rw [← htarget]
    exact (hframe.1 3 hroot).2.2.2.1

end Tree

end InfraModule
