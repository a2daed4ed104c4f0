import InfraModule.Proofs.Result
import InfraModule.Proofs.Tree.Recursion
import InfraModule.Proofs.Tree.Reachable

/-!
# Ranks of nodes

How deep a tree is can be bounded while it is built, before it is known what will be attached where:
every node is given a rank when it is created, and takes only children of lower ranks. A node that
is to be filled later is given a rank above all that may come. Then a subtree has no more levels
than the rank of its root says (`Ranked.fits`), whether or not the root is ever attached to
anything. Ranks stay the same (`Rises`), so that a step of building is said by the ranks that it
gives to new nodes (`Ranks`).
-/

namespace InfraModule

open Result

namespace Tree

/-- Ranks below `bound` for the nodes of a sound tree, each above the ranks of the children. -/
structure Ranked (bound : Nat) (rank : NodeId → Nat) (t : Tree) : Prop where
  /-- The tree is sound. -/
  sound : t.Sound
  /-- Children have lower ranks. -/
  lower : ∀ p c, c ∈ t.children p → rank c < rank p
  /-- No rank reaches the bound. -/
  bounded : ∀ x, x < t.size → rank x < bound

/-- From a tree a ranked one was made, in which the nodes that were there have the same ranks. -/
structure Rises (bound : Nat) (t : Tree) (rank : NodeId → Nat) (u : Tree) (rank' : NodeId → Nat) :
    Prop extends u.Ranked bound rank' where
  /-- No node is gone. -/
  size_le : t.size ≤ u.size
  /-- Nodes keep their ranks. -/
  keeps : ∀ x, x < t.size → rank' x = rank x

/-- A node has a rank below `k`. -/
def Below (t : Tree) (rank : NodeId → Nat) (k : Nat) (id : NodeId) : Prop :=
  id < t.size ∧ rank id < k

/-- A node has the rank `k`. -/
def HasRank (t : Tree) (rank : NodeId → Nat) (k : Nat) (id : NodeId) : Prop :=
  id < t.size ∧ rank id = k

variable {t s u : Tree} {bound k j : Nat} {rank rank' rank'' : NodeId → Nat} {id x p c : NodeId}
  {n n' : Node} {l : Location}

/-- What is below a rank is below any greater one. -/
theorem Below.mono (h : t.Below rank k id) (hkj : k ≤ j) : t.Below rank j id :=
  ⟨h.1, h.2.trans_le hkj⟩

/-- A node is below any rank greater than its own. -/
theorem HasRank.below (h : t.HasRank rank k id) (hkj : k < j) : t.Below rank j id :=
  ⟨h.1, h.2.trans_lt hkj⟩

namespace Rises

/-- Where nothing is made, ranks are those that were. -/
theorem refl (h : t.Ranked bound rank) : t.Rises bound rank t rank :=
  ⟨h, Nat.le_refl _, fun _ _ => rfl⟩

/-- Nodes that are made in two steps get their ranks one after the other. -/
theorem trans (hts : t.Rises bound rank s rank') (hsu : s.Rises bound rank' u rank'') :
    t.Rises bound rank u rank'' :=
  ⟨hsu.toRanked, hts.size_le.trans hsu.size_le, fun x hx =>
    (hsu.keeps x (hx.trans_le hts.size_le)).trans (hts.keeps x hx)⟩

/-- A node stays below the ranks that it was below. -/
theorem below (h : t.Rises bound rank u rank') (hid : t.Below rank k id) : u.Below rank' k id :=
  ⟨hid.1.trans_le h.size_le, (h.keeps id hid.1).trans_lt hid.2⟩

/-- A node keeps its rank. -/
theorem hasRank (h : t.Rises bound rank u rank') (hid : t.HasRank rank k id) :
    u.HasRank rank' k id :=
  ⟨hid.1.trans_le h.size_le, (h.keeps id hid.1).trans hid.2⟩

end Rises

/-! ## Ranks and depth -/

namespace Ranked

/-- Dependencies are recorded without regard to ranks. -/
theorem refreshSubtree (h : t.Ranked bound rank) (root : NodeId) :
    (t.refreshSubtree root).Ranked bound rank where
  sound := h.sound.refreshSubtree root
  lower := fun p c hc => h.lower p c (by rwa [children, node?_refreshSubtree] at hc)
  bounded := fun x hx => h.bounded x (by simpa using hx)

/-- A subtree has at most as many levels below its root as the rank of the root says. -/
theorem fits (h : t.Ranked bound rank) (x : NodeId) : t.Fits (rank x + 1) x := by
  induction hx : rank x using Nat.strong_induction_on generalizing x with
  | _ k ih =>
    intro c hc
    have hlt : rank c < k := hx ▸ h.lower x c hc
    exact (ih (rank c) hlt c rfl).mono hlt

/-- No subtree has more levels than the bound. -/
theorem fits_bound (h : t.Ranked bound rank) (hbound : 0 < bound) (x : NodeId) :
    t.Fits bound x := by
  by_cases hx : x < t.size
  · exact (h.fits x).mono (h.bounded x hx)
  · have hnil : t.Fits 1 x := fun c hc => by
      rw [children_eq_nil_of_le (Nat.not_lt.mp hx)] at hc
      simp at hc
    exact hnil.mono hbound

end Ranked

/-- A way down has no more nodes than the subtree has levels. -/
theorem Fits.length_le {path : List NodeId} (h : t.Fits k x)
    (hpath : (x :: path).IsChain fun p c => c ∈ t.children p) : (x :: path).length ≤ k := by
  induction path generalizing k x with
  | nil =>
    cases k with
    | zero => exact h.elim
    | succ k => simp
  | cons c path ih =>
    cases k with
    | zero => exact h.elim
    | succ k =>
      obtain ⟨hc, hpath⟩ := List.isChain_cons_cons.mp hpath
      exact Nat.succ_le_succ (ih (h c hc) hpath)

section Walks

variable {σ : Type} {v : Visitor σ}

/-- A visit that may go down as many levels as there are visits the whole subtree. -/
theorem Sound.visitWithin_eq (ht : t.Sound) (h : t.Fits k id) :
    t.visitWithin v k id = t.visit v id := by
  by_cases hid : id < t.size
  · exact visitWithin_congr h (ht.fits hid)
  · have hnone := node?_eq_none_iff.mpr (Nat.not_lt.mp hid)
    cases k with
    | zero => exact h.elim
    | succ k =>
      funext state
      rw [ht.visit_eq_elim, visitWithin, hnone, Option.elim_none]

/-- With as many levels as there are the whole subtree is written. -/
theorem Sound.writeWithin_eq (ht : t.Sound) (h : t.Fits k id) : t.writeWithin k id = t.write id := by
  by_cases hid : id < t.size
  · exact writeWithin_congr h (ht.fits hid)
  · have hnone := node?_eq_none_iff.mpr (Nat.not_lt.mp hid)
    cases k with
    | zero => exact h.elim
    | succ k => rw [ht.write_eq_elim, writeWithin, hnone, Option.elim_none]

/-- With as many levels as there are the whole subtree is copied. -/
theorem Sound.copyWithin_eq (ht : t.Sound) (h : t.Fits k id) :
    TreeM.copyWithin k id t = TreeM.copySubtree id t := by
  by_cases hid : id < t.size
  · exact TreeM.copyWithin_congr ht hid h (ht.fits hid)
  · cases k with
    | zero => exact h.elim
    | succ k =>
      have hid := Nat.not_lt.mp hid
      rw [TreeM.copySubtree_of_le hid]
      exact bind_of_error (TreeM.ask_of_error (requireEntry_of_le hid))

end Walks

/-- No way down passes more than `k` nodes, and the walks that go down need no more levels. -/
structure DepthAtMost (k : Nat) (t : Tree) : Prop where
  /-- A way down passes at most `k` nodes. -/
  path : ∀ path : List NodeId, path.IsChain (fun p c => c ∈ t.children p) → path.length ≤ k
  /-- Every visit goes down at most `k` levels. -/
  visit : ∀ {σ : Type} (v : Visitor σ) (id : NodeId), t.visitWithin v k id = t.visit v id
  /-- Writing goes down at most `k` levels. -/
  write : ∀ id, t.writeWithin k id = t.write id
  /-- Copying goes down at most `k` levels. -/
  copy : ∀ id, TreeM.copyWithin k id t = TreeM.copySubtree id t

/-- A ranked tree is no deeper than its ranks are many. -/
theorem Ranked.depthAtMost (h : t.Ranked bound rank) (hbound : 0 < bound) :
    t.DepthAtMost bound where
  path := by
    rintro (_ | ⟨x, path⟩) hpath
    · exact Nat.zero_le bound
    · exact (h.fits_bound hbound x).length_le hpath
  visit := fun _ id => h.sound.visitWithin_eq (h.fits_bound hbound id)
  write := fun id => h.sound.writeWithin_eq (h.fits_bound hbound id)
  copy := fun id => h.sound.copyWithin_eq (h.fits_bound hbound id)

/-! ## Operations -/

namespace Ranked

/-- A node gets a rank above those of the children that it takes over. -/
theorem append (h : t.Ranked bound rank) (ha : t.Adoptable n)
    (hchildren : ∀ c ∈ n.children, rank c < k) (hk : k < bound) :
    t.Rises bound rank (t.append n l) fun x => if x = t.size then k else rank x := by
  refine ⟨⟨h.sound.append ha, fun p c hc => ?_, fun x hx => ?_⟩, by simp, fun x hx => ?_⟩
  · rw [children_append] at hc
    have hlt : c < t.size := by
      split at hc
      · exact (ha.children c hc).1
      · exact h.sound.lt_size_of_child hc
    rw [if_neg hlt.ne]
    split at hc
    · next hp => simpa [hp] using hchildren c hc
    · next hp => simpa [hp] using h.lower p c hc
  · rw [size_append] at hx
    split
    · exact hk
    · next hne => exact h.bounded x (Nat.lt_of_le_of_ne (Nat.le_of_lt_succ hx) hne)
  · exact if_neg hx.ne

/-- A node may name other children, if these have lower ranks than it has. -/
theorem move {q : Option NodeId} (h : t.Ranked bound rank) (hu : (t.move p n' c q).Sound)
    (hp : p < t.size) (hchildren : ∀ d ∈ n'.children, rank d < rank p) :
    (t.move p n' c q).Ranked bound rank where
  sound := hu
  lower := by
    intro x d hd
    rw [children, node?_move hp] at hd
    split at hd
    · next hx => exact hx ▸ hchildren d hd
    · exact h.lower x d hd
  bounded := fun x hx => h.bounded x (by simpa using hx)

/-- A child may be attached to a node of a higher rank. -/
theorem attach (h : t.Ranked bound rank) (ha : t.Attachable p c) (hp : t.node? p = some n)
    (hn : n'.Without c n) (hc : rank c < rank p) :
    (t.move p n' c (some p)).Ranked bound rank := by
  refine h.move (h.sound.move_some hp hn ha) ha.owner fun d hd => ?_
  rcases List.mem_cons.mp (hn.children.subset hd) with rfl | hd
  · exact hc
  · exact h.lower p d (children_of_node? hp ▸ hd)

/-- What is bound to a key of a declaration may be taken out of it. -/
theorem vacate {d : Declaration} {key : String} (h : t.Ranked bound rank)
    (hid : t.node? id = some (.declaration d)) (hkey : d.hasProperty key = true) :
    (t.vacate id d key).Ranked bound rank := by
  have hs := h.sound.vacate hid hkey
  cases hc : d.property? key with
  | none => rwa [vacate_of_none hc]
  | some c =>
    rw [vacate_of_some hc] at hs ⊢
    refine h.move hs (lt_size_of_node? hid) fun e he => h.lower id e ?_
    rw [children_of_node? hid]
    exact (Node.without_of_property? hkey hc).children.symm.subset (List.mem_cons_of_mem c he)

end Ranked

/-- Starting from a ranked tree, a step gives ranks to the nodes that it makes, so that `P` holds if
it succeeds. The tree is the one that `tree` finds in the state. -/
def Ranks {ε σ α : Type} (tree : σ → Tree) (bound : Nat) (m : EStateM ε σ α) (s : σ)
    (rank : NodeId → Nat) (P : Tree → (NodeId → Nat) → α → Prop) : Prop :=
  Post m s
    (fun a u => ∃ rank', (tree s).Rises bound rank (tree u) rank' ∧ P (tree u) rank' a)
    fun _ u => ∃ rank', (tree s).Rises bound rank (tree u) rank'

namespace Ranks

variable {ε σ α β : Type} {tree : σ → Tree} {m : EStateM ε σ α} {f : α → EStateM ε σ β} {s u : σ}
  {P Q : Tree → (NodeId → Nat) → α → Prop} {R : Tree → (NodeId → Nat) → β → Prop}

/-- A step that gives ranks as demanded gives them as is demanded less strictly. -/
theorem mono (h : Ranks tree bound m s rank P) (hPQ : ∀ t r a, P t r a → Q t r a) :
    Ranks tree bound m s rank Q :=
  Post.mono h (fun _ _ ⟨rank', hu, hP⟩ => ⟨rank', hu, hPQ _ _ _ hP⟩) fun _ _ h => h

/-- An answer alone gives no ranks. -/
theorem pure {a : α} (h : (tree s).Ranked bound rank) (hP : P (tree s) rank a) :
    Ranks tree bound (Pure.pure a : EStateM ε σ α) s rank P :=
  ⟨rank, .refl h, hP⟩

/-- A step gives ranks to what it makes in a tree that was made from another. -/
theorem after {t : Tree} (ht : t.Rises bound rank (tree s) rank')
    (hm : Ranks tree bound m s rank' P) :
    Post m s (fun a u => ∃ rank'', t.Rises bound rank (tree u) rank'' ∧ P (tree u) rank'' a)
      fun _ u => ∃ rank'', t.Rises bound rank (tree u) rank'' := by
  refine Post.mono hm (fun a u ⟨rank'', hu, hP⟩ => ?_) fun _ u ⟨rank'', hu⟩ => ?_
  · exact ⟨rank'', ht.trans hu, hP⟩
  · exact ⟨rank'', ht.trans hu⟩

/-- Of two steps in a row the second starts with the ranks that the first has given. -/
theorem bind (hm : Ranks tree bound m s rank P)
    (hf : ∀ a u rank', (tree s).Rises bound rank (tree u) rank' → P (tree u) rank' a →
      Ranks tree bound (f a) u rank' R) : Ranks tree bound (m >>= f) s rank R :=
  post_bind.mpr (Post.mono hm (fun a u ⟨rank', hu, hP⟩ => (hf a u rank' hu hP).after hu)
    fun _ _ h => h)

/-- Changing the answer changes no ranks. -/
theorem map {g : α → β} (hm : Ranks tree bound m s rank fun t r a => R t r (g a)) :
    Ranks tree bound (g <$> m) s rank R :=
  post_map.mpr hm

/-- Whether or not a step succeeds, every node that it leaves has a rank. -/
theorem final (hm : Ranks tree bound m s rank P) :
    ∃ rank', (tree (final (m s))).Ranked bound rank' :=
  (post_final (P := fun u => ∃ rank', (tree u).Ranked bound rank')).mp (Post.mono hm
    (fun _ _ ⟨rank', hu, _⟩ => ⟨rank', hu.toRanked⟩) fun _ _ ⟨rank', hu⟩ => ⟨rank', hu.toRanked⟩)

end Ranks

section Operations

variable (h : t.Ranked bound rank)

include h

/-- A step that is refused leaves ranks as they are. -/
theorem ranks_of_error {α : Type} {operation : TreeM α} {e : TreeError}
    {P : Tree → (NodeId → Nat) → α → Prop} (he : operation t = .error e t) :
    Ranks (fun t => t) bound operation t rank P := by
  unfold Ranks Post
  rw [he]
  exact ⟨rank, .refl h⟩

omit h in
/-- A step that makes no node may leave ranks as they are. -/
theorem ranks_of_ok {α : Type} {operation : TreeM α} {a : α} (hu : u.Ranked bound rank)
    (hsize : u.size = t.size) (hok : operation t = .ok a u) :
    Ranks (fun t => t) bound operation t rank fun _ _ _ => True := by
  unfold Ranks
  rw [post_of_ok hok]
  exact ⟨rank, ⟨hu, hsize.ge, fun _ _ => rfl⟩, trivial⟩

/-- A node can be added with any rank above those of its children. -/
theorem ranks_add (hchildren : ∀ c ∈ n.children, rank c < k) (hk : k < bound) (l : Location) :
    Ranks (fun t => t) bound (TreeM.add n l) t rank fun u rank' x => u.HasRank rank' k x := by
  rcases TreeM.adoptable_or_error t n l with ha | ⟨e, he⟩
  · have hrises := h.append (l := l) ha hchildren hk
    unfold Ranks
    rw [post_of_ok (TreeM.add_of_adoptable ha)]
    refine ⟨_, ⟨hrises.toRanked.refreshSubtree t.size, ?_, hrises.keeps⟩, ?_, if_pos rfl⟩
    · simp
    · simp
  · exact ranks_of_error h he

/-- A child of lower rank can be appended. -/
theorem ranks_pushChild (hc : rank c < rank p) :
    Ranks (fun t => t) bound (TreeM.pushChild p c) t rank fun _ _ _ => True := by
  rcases TreeM.pushChild_cases t p c with ⟨ha, n, n', hp, hpush⟩ | ⟨e, he⟩
  · exact ranks_of_ok (h.attach ha hp (Node.without_of_push? hpush) hc) size_move
      (TreeM.pushChild_of_attachable ha hp hpush)
  · exact ranks_of_error h he

/-- A value of lower rank can be inserted. -/
theorem ranks_insertEntry (hc : rank c < rank p) (key : Key) :
    Ranks (fun t => t) bound (TreeM.insertEntry p key c) t rank fun _ _ _ => True := by
  rcases TreeM.insertEntry_cases t p key c with ⟨ha, es, hp⟩ | ⟨e, he⟩
  · cases hkey : es.contains key.text with
    | true => exact ranks_of_ok h rfl (TreeM.insertEntry_of_contains ha hp hkey)
    | false =>
      exact ranks_of_ok (h.attach ha hp (Node.without_entry es key c) hc) size_move
        (TreeM.insertEntry_of_attachable ha hp hkey)
  · exact ranks_of_error h he

/-- A value of lower rank can be bound. -/
theorem ranks_setProperty (hc : rank c < rank p) (key : String) :
    Ranks (fun t => t) bound (TreeM.setProperty p key (some c)) t rank fun _ _ _ => True := by
  rcases TreeM.setProperty_cases t p key (some c) with ⟨d, hp, hkey, ha⟩ | ⟨e, he⟩
  · have hvacated := h.vacate hp hkey
    have hattached := hvacated.attach (h.sound.attachable_vacate hp hkey (ha c rfl))
      (node?_vacate hp) (Node.without_of_bound c hkey) hc
    exact ranks_of_ok hattached (by simp) (TreeM.setProperty_of_attachable h.sound hp hkey ha)
  · exact ranks_of_error h he

end Operations

end Tree

end InfraModule
