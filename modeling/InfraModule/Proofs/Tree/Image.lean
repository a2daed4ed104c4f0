import InfraModule.Proofs.Tree.Recursion
import InfraModule.Proofs.Tree.Renaming
import Mathlib.Logic.Function.Basic

/-!
# Copies as images

A copy of a subtree is an image of it: there is a function that takes each node of the subtree to
its copy, and the nodes that copying creates are exactly the images (`Tree.Images`). The image of a
node is the same node with its children renamed to their images. Copying goes from the leaves up, so
the function is put together from those of the children's subtrees, which are disjoint, and the id
of the root's copy.
-/

namespace InfraModule

open Result

namespace Tree

variable {t s u : Tree} {id p : NodeId} {k : Nat} {P Q : NodeId → Prop} {f g : NodeId → NodeId}

/-- The nodes of `u` from `k` on are the images of certain nodes of `t`. -/
structure Images (t u : Tree) (k : Nat) (P : NodeId → Prop) (f : NodeId → NodeId) : Prop where
  /-- The images are the nodes from `k` on. -/
  onto : ∀ y, (∃ x, P x ∧ f x = y) ↔ k ≤ y ∧ y < u.size
  /-- Different nodes have different images. -/
  injective : ∀ x y, P x → P y → f x = f y → x = y
  /-- The children of an image are the images of the children. -/
  node : ∀ x, P x → u.node? (f x) = (t.node? x).map (Node.mapChildren f)
  /-- An image stands for the same span of the document. -/
  location : ∀ x, P x → u.location? (f x) = t.location? x

/-- With a node its children are among the nodes. -/
def Downward (t : Tree) (P : NodeId → Prop) : Prop :=
  ∀ x, P x → ∀ c ∈ t.children x, P c

/-- With a node of a subtree its children lie in it. -/
theorem Sound.downward_within (h : t.Sound) (root : NodeId) : t.Downward (t.Within root) :=
  fun _ hx _ hc => (within_iff_of_parent? h (h.owner.mp hc)).mpr (Or.inr hx)

namespace Images

/-- Images are among the new nodes. -/
theorem le_image (h : t.Images u k P f) {x : NodeId} (hx : P x) : k ≤ f x ∧ f x < u.size :=
  (h.onto (f x)).mp ⟨x, hx, rfl⟩

/-- Renaming the children of a node depends on the names of nodes below it. -/
theorem map_node_congr (hP : t.Downward P) (hfg : ∀ x, P x → f x = g x) {x : NodeId} (hx : P x) :
    (t.node? x).map (Node.mapChildren f) = (t.node? x).map (Node.mapChildren g) := by
  cases hn : t.node? x with
  | none => rfl
  | some n =>
    refine congrArg some (Node.mapChildren_congr fun c hc => hfg c (hP x hx c ?_))
    rwa [children_of_node? hn]

/-- The same nodes have the same images under functions that agree on them. -/
theorem congr (h : t.Images u k P f) (hP : t.Downward P) (hfg : ∀ x, P x → g x = f x) :
    t.Images u k P g where
  onto := fun y => by
    rw [← h.onto y]
    exact exists_congr fun x => and_congr_right fun hx => by rw [hfg x hx]
  injective := fun x y hx hy hxy => h.injective x y hx hy (by rwa [← hfg x hx, ← hfg y hy])
  node := fun x hx => by rw [hfg x hx, h.node x hx, map_node_congr hP hfg hx]
  location := fun x hx => by rw [hfg x hx, h.location x hx]

/-- Where nothing has been created, there are the images of no nodes. -/
theorem nil (t u : Tree) (f : NodeId → NodeId) : t.Images u u.size (fun _ => False) f where
  onto := fun y => by simp
  injective := fun _ _ hx => hx.elim
  node := fun _ hx => hx.elim
  location := fun _ hx => hx.elim

/-- Nodes stay images while others are created. -/
theorem image_extends (h : t.Images s k P f) (hsu : s.Extends u) {x : NodeId} (hx : P x) :
    u.node? (f x) = (t.node? x).map (Node.mapChildren f) ∧ u.location? (f x) = t.location? x := by
  have hlt := (h.le_image hx).2
  exact ⟨(hsu.node _ hlt).trans (h.node x hx), (hsu.location _ hlt).trans (h.location x hx)⟩

/-- Images of disjoint nodes that were created one after the other. -/
theorem union (hP : t.Downward P) (hQ : t.Downward Q) (hPQ : ∀ x, P x → ¬ Q x)
    (hf : t.Images s k P f) (hg : t.Images u s.size Q g) (hsu : s.Extends u) (hk : k ≤ s.size) :
    ∃ h, (∀ x, P x → h x = f x) ∧ (∀ x, Q x → h x = g x) ∧
      t.Images u k (fun x => P x ∨ Q x) h := by
  classical
  let h := fun x => if P x then f x else g x
  have hhf (x : NodeId) (hx : P x) : h x = f x := if_pos hx
  have hhg (x : NodeId) (hx : Q x) : h x = g x := if_neg fun hPx => hPQ x hPx hx
  replace hf : t.Images s k P h := hf.congr hP hhf
  replace hg : t.Images u s.size Q h := hg.congr hQ hhg
  refine ⟨h, hhf, hhg, ?onto, ?injective, ?node, ?location⟩
  case onto =>
    intro y
    have hPy := hf.onto y
    have hQy := hg.onto y
    simp only [or_and_right, exists_or, hPy, hQy]
    constructor
    · rintro (⟨hle, hlt⟩ | ⟨hle, hlt⟩)
      · exact ⟨hle, hlt.trans_le hsu.size_le⟩
      · exact ⟨hk.trans hle, hlt⟩
    · rintro ⟨hle, hlt⟩
      exact (Nat.lt_or_ge y s.size).imp (fun h => ⟨hle, h⟩) fun h => ⟨h, hlt⟩
  case injective =>
    -- Images of the one kind are older than those of the other.
    have hne (x y : NodeId) (hx : P x) (hy : Q y) : h x ≠ h y :=
      ((hf.le_image hx).2.trans_le (hg.le_image hy).1).ne
    rintro x y (hx | hx) (hy | hy) hxy
    · exact hf.injective x y hx hy hxy
    · exact (hne x y hx hy hxy).elim
    · exact (hne y x hy hx hxy.symm).elim
    · exact hg.injective x y hx hy hxy
  case node =>
    rintro x (hx | hx)
    · exact (hf.image_extends hsu hx).1
    · exact hg.node x hx
  case location =>
    rintro x (hx | hx)
    · exact (hf.image_extends hsu hx).2
    · exact hg.location x hx

/-- The image of a root is created over those of its children. -/
theorem root {n : Node} {l : Location} {root : NodeId} (ht : t.Sound)
    (hn : t.node? root = some n) (hl : t.location? root = some l)
    (hf : t.Images u k (fun x => ∃ c ∈ n.children, t.Within c x) f) (hk : k ≤ u.size)
    (hroot : g root = u.size) (hbelow : ∀ x, (∃ c ∈ n.children, t.Within c x) → g x = f x) :
    t.Images (u.append (n.mapChildren f) l) k (t.Within root) g := by
  have hwithin (x : NodeId) : t.Within root x ↔ x = root ∨ ∃ c ∈ n.children, t.Within c x := by
    rw [within_iff_exists_child ht, children_of_node? hn]
  have hmap : n.mapChildren f = n.mapChildren g :=
    Node.mapChildren_congr fun c hc => (hbelow c ⟨c, hc, within_refl t c⟩).symm
  have hdown : t.Downward fun x => ∃ c ∈ n.children, t.Within c x := by
    rintro x ⟨c, hc, hx⟩ d hd
    exact ⟨c, hc, ht.downward_within c x hx d hd⟩
  replace hf := hf.congr hdown hbelow
  rw [hmap]
  refine ⟨fun y => ?onto, fun x y hx hy hxy => ?injective, fun x hx => ?node, fun x hx => ?location⟩
  case onto =>
    have hy := hf.onto y
    simp only [hwithin, or_and_right, exists_or, hy, exists_eq_left, hroot, size_append]
    constructor
    · rintro (rfl | ⟨hle, hlt⟩)
      · exact ⟨hk, Nat.lt_succ_self _⟩
      · exact ⟨hle, Nat.lt_succ_of_lt hlt⟩
    · rintro ⟨hle, hlt⟩
      exact (Nat.lt_succ_iff_lt_or_eq.mp hlt).symm.imp Eq.symm fun h => ⟨hle, h⟩
  case injective =>
    -- The image of the root is newer than the others.
    have hne (x : NodeId) (hx : ∃ c ∈ n.children, t.Within c x) : g x ≠ g root := by
      rw [hroot]
      exact (hf.le_image hx).2.ne
    rcases (hwithin x).mp hx with rfl | hx' <;> rcases (hwithin y).mp hy with rfl | hy'
    · rfl
    · exact (hne y hy' hxy.symm).elim
    · exact (hne x hx' hxy).elim
    · exact hf.injective x y hx' hy' hxy
  case node =>
    rcases (hwithin x).mp hx with rfl | hx
    · rw [hroot, node?_append_self, hn]
      rfl
    · rw [node?_append_of_ne (hf.le_image hx).2.ne]
      exact hf.node x hx
  case location =>
    rcases (hwithin x).mp hx with rfl | hx
    · rw [hroot, location?_append_self, hl]
    · rw [location?_append_of_ne (hf.le_image hx).2.ne]
      exact hf.location x hx

end Images

end Tree

/-! ## Copying -/

namespace TreeM

variable {t s u : Tree} {id d : NodeId} {levels : Nat}

/-- What copying does wherever it succeeds. -/
theorem copyWithin_spec (hs : s.Sound) (hid : id < s.size) (hfits : s.Fits levels id)
    (h : copyWithin levels id s = .ok d u) : u.Sound ∧ s.Extends u ∧ s.NewRoots u [d] := by
  obtain ⟨d', u', hok, hspec⟩ := copyWithin_ok hs hid hfits
  rw [h, EStateM.Result.ok.injEq] at hok
  obtain ⟨rfl, rfl⟩ := hok
  exact hspec

/-- The copies of disjoint subtrees are images of them. -/
theorem images_mapM_copyWithin {cs ds : List NodeId} {p : NodeId} (ht : t.Sound)
    (hnodup : cs.Nodup) (hcs : ∀ c ∈ cs, t.parent? c = some p)
    (hcopy : ∀ c ∈ cs, ∀ {s : Tree} {d : NodeId} {u : Tree}, s.Sound → t.Extends s →
      copyWithin levels c s = .ok d u → (u.Sound ∧ s.Extends u) ∧
        ∃ f, f c = d ∧ t.Images u s.size (t.Within c) f)
    (hs : s.Sound) (hts : t.Extends s) (h : cs.mapM (copyWithin levels) s = .ok ds u) :
    (u.Sound ∧ s.Extends u) ∧
      ∃ f, ds = cs.map f ∧ t.Images u s.size (fun x => ∃ c ∈ cs, t.Within c x) f := by
  induction cs generalizing s ds with
  | nil =>
    cases h
    refine ⟨⟨hs, Tree.Extends.refl _⟩, id, rfl, ?_⟩
    simpa using Tree.Images.nil t _ id
  | cons c cs ih =>
    obtain ⟨hc, hnodup⟩ := List.nodup_cons.mp hnodup
    obtain ⟨hcp, hcsp⟩ := List.forall_mem_cons.mp hcs
    obtain ⟨hcopyc, hcopycs⟩ := List.forall_mem_cons.mp hcopy
    rw [List.mapM_cons] at h
    cases hfirst : copyWithin levels c s with
    | error e v => simp [bind_of_error hfirst] at h
    | ok d v =>
      rw [bind_of_ok hfirst] at h
      cases hrest : cs.mapM (copyWithin levels) v with
      | error e w => simp [bind_of_error hrest] at h
      | ok ds' w =>
        rw [bind_of_ok hrest] at h
        cases h
        obtain ⟨⟨hv, hsv⟩, f, hfc, hf⟩ := hcopyc hs hts hfirst
        obtain ⟨⟨hw, hvw⟩, g, hds, hg⟩ := ih hnodup hcsp hcopycs hv (hts.trans hsv) hrest
        refine ⟨⟨hw, hsv.trans hvw⟩, ?_⟩
        -- Subtrees of different children of one node are disjoint.
        have hdisjoint (x : NodeId) (hx : t.Within c x) : ¬ ∃ c' ∈ cs, t.Within c' x := by
          rintro ⟨c', hc', hx'⟩
          exact hc (Tree.child_unique ht hcp (hcsp c' hc') hx hx' ▸ hc')
        have hdown : t.Downward fun x => ∃ c' ∈ cs, t.Within c' x := by
          rintro x ⟨c', hc', hx⟩ y hy
          exact ⟨c', hc', ht.downward_within c' x hx y hy⟩
        obtain ⟨h, hhf, hhg, himages⟩ := Tree.Images.union (ht.downward_within c) hdown hdisjoint
          hf hg hvw hsv.size_le
        refine ⟨h, ?_, by simpa using himages⟩
        have hhead : h c = d := (hhf c (Tree.within_refl t c)).trans hfc
        have htail : cs.map h = cs.map g :=
          List.map_congr_left fun c' hc' => hhg c' ⟨c', hc', Tree.within_refl t c'⟩
        rw [List.map_cons, hhead, htail, hds]

/-- What is copied of a subtree is an image of it. -/
theorem images_copyWithin (ht : t.Sound) (hid : id < t.size) (hfits : t.Fits levels id)
    (hs : s.Sound) (hts : t.Extends s) (h : copyWithin levels id s = .ok d u) :
    ∃ f, f id = d ∧ t.Images u s.size (t.Within id) f := by
  induction levels generalizing s u id d with
  | zero => exact hfits.elim
  | succ levels ih =>
    obtain ⟨n, hn⟩ := Tree.node?_eq_some_iff_lt.mpr hid
    obtain ⟨e, -, -, -, hl⟩ := Tree.requireEntry_of_lt hid
    have hchildren : t.children id = n.children := Tree.children_of_node? hn
    rw [copyWithin_succ ((hts.node id hid).trans hn) ((hts.location id hid).trans hl)] at h
    cases hcopies : n.children.mapM (copyWithin levels) s with
    | error error v => simp [bind_of_error hcopies] at h
    | ok ds v =>
      rw [bind_of_ok hcopies, append_apply, EStateM.Result.ok.injEq] at h
      obtain ⟨rfl, rfl⟩ := h
      have howner (c : NodeId) (hc : c ∈ n.children) : t.parent? c = some id :=
        ht.owner.mp (hchildren ▸ hc)
      obtain ⟨⟨-, hsv⟩, f, rfl, hf⟩ := images_mapM_copyWithin ht (hchildren ▸ ht.nodup id) howner
        (fun c hc {s d u} hs hts hok => by
          have hclt := Tree.lt_size_of_parent? (howner c hc)
          have hcfits := hfits c (hchildren ▸ hc)
          obtain ⟨hu, hsu, -⟩ := copyWithin_spec hs (hclt.trans_le hts.size_le)
            (hts.fits ht hclt hcfits) hok
          exact ⟨⟨hu, hsu⟩, ih hclt hcfits hs hts hok⟩) hs hts hcopies
      rw [Node.withChildren_map]
      have hnot : ¬ ∃ c ∈ n.children, t.Within c id := by
        rintro ⟨c, hc, hwithin⟩
        exact ht.notMem_ancestors c (ht.ancestors_of_parent? (howner c hc) ▸ hwithin)
      refine ⟨Function.update f id v.size, Function.update_self .., ?_⟩
      refine Tree.Images.root ht hn hl hf hsv.size_le (Function.update_self ..) fun x hx => ?_
      exact Function.update_of_ne (fun he => hnot (by rwa [he] at hx)) ..

end TreeM

end InfraModule
