import InfraModule.Proofs.Tree.Reachable
import InfraModule.Proofs.Tree.Renaming

/-!
# Trees behind trees

What is built behind the nodes of a tree gets ids that start where those of the tree end. So it is
what is built from nothing with all ids shifted: `t.graft g` has the nodes of `t` and then those of
`g`, and an operation that succeeds on `g` does the same behind `t` (`TreeM.Carries`), as long as
nothing in `g` is bound to a target. It neither depends on the nodes of `t` nor changes them, their
index or their dependencies.
-/

namespace InfraModule

open Result

/-- The same entry with all nodes that it names renamed. -/
def Entry.rename (f : NodeId → NodeId) (e : Entry) : Entry :=
  { e with
    node := e.node.mapChildren f
    parent := e.parent.map f }

/-- Renaming an entry twice renames it by both functions in turn. -/
theorem Entry.rename_rename (f g : NodeId → NodeId) (e : Entry) :
    (e.rename f).rename g = e.rename (g ∘ f) := by
  simp [rename, Node.mapChildren_mapChildren]

/-- The entry names only nodes from an id on, and refers to no declaration. -/
structure Entry.From (k : NodeId) (e : Entry) : Prop where
  /-- The children of its node are among them. -/
  children : ∀ c ∈ e.node.children, k ≤ c
  /-- So is the owner of its node. -/
  parent : ∀ p ∈ e.parent, k ≤ p
  /-- Its node is bound to nothing. -/
  target : e.node.target = none

namespace Tree

/-- The id moved by the difference of the sizes of two trees. -/
def moved (t t' : Tree) (id : NodeId) : NodeId :=
  id + t'.size - t.size

/-- The id that a node gets behind the nodes of a tree. -/
def shift (t : Tree) (id : NodeId) : NodeId :=
  t.size + id

/-- The nodes of a tree, and those of another behind them. -/
def graft (t g : Tree) : Tree :=
  { t with entries := t.entries ++ g.entries.map (Entry.rename t.shift) }

/-- A sound tree in which no reference is bound. -/
structure Loose (g : Tree) : Prop where
  /-- The tree is sound. -/
  sound : g.Sound
  /-- No reference is bound. -/
  bound : g.bound = []

variable {t g : Tree} {x p c : NodeId} {n : Node} {l : Location}

/-- Different ids stay different behind a tree. -/
theorem shift_injective (t : Tree) : Function.Injective t.shift :=
  fun _ _ => Nat.add_left_cancel

/-- A shifted id is among shifted ids exactly if the id is among the ids. -/
theorem mem_map_shift {ids : List NodeId} : t.shift x ∈ ids.map t.shift ↔ x ∈ ids :=
  List.mem_map_of_injective t.shift_injective

/-- An id that is shifted behind one tree and moved is shifted behind the other. -/
theorem moved_comp_shift (t t' : Tree) : t.moved t' ∘ t.shift = t'.shift := by
  funext x
  change t.size + x + t'.size - t.size = t'.size + x
  omega

/-! ## Questions -/

/-- The nodes that are placed behind a tree come on top of its own. -/
@[simp] theorem size_graft : (t.graft g).size = t.shift g.size := by
  simp [graft, size, shift]

/-- The index of bound references is that of the tree in front. -/
@[simp] theorem bound_graft : (t.graft g).bound = t.bound := rfl

/-- Behind a tree, an entry has its nodes shifted. -/
theorem entry?_graft :
    entry? (t.graft g) (t.shift x) = (g.entry? x).map (Entry.rename t.shift) := by
  change (t.entries ++ g.entries.map (Entry.rename t.shift))[t.entries.size + x]? = _
  rw [Array.getElem?_append_right (Nat.le_add_right ..), Nat.add_sub_cancel_left,
    Array.getElem?_map, entry?]

/-- Behind a tree, a node has its children shifted. -/
theorem node?_graft :
    (t.graft g).node? (t.shift x) = (g.node? x).map (Node.mapChildren t.shift) := by
  rw [node?, entry?_graft, node?, Option.map_map, Option.map_map]
  rfl

/-- Behind a tree, an owner is shifted. -/
theorem parent?_graft : (t.graft g).parent? (t.shift x) = (g.parent? x).map t.shift := by
  rw [parent?, entry?_graft, parent?]
  cases g.entry? x <;> rfl

/-- Behind a tree, a location is the same. -/
theorem location?_graft : (t.graft g).location? (t.shift x) = g.location? x := by
  rw [location?, entry?_graft, location?, Option.map_map]
  rfl

/-- Behind a tree, a declaration has its children shifted. -/
theorem declaration?_graft : (t.graft g).declaration? (t.shift x)
    = (g.declaration? x).map (Declaration.mapChildren t.shift) := by
  rw [declaration?, node?_graft, declaration?]
  cases g.node? x with
  | none => rfl
  | some n => cases n <;> rfl

/-- Behind a tree, the same nodes are items. -/
theorem isItem_graft : (t.graft g).isItem (t.shift x) = g.isItem x := by
  rw [isItem, node?_graft, isItem, Option.map_map]
  cases g.node? x with
  | none => rfl
  | some n => cases n <;> rfl

/-- Behind a tree, a literal has the same text. -/
theorem literalText?_graft : (t.graft g).literalText? (t.shift x) = g.literalText? x := by
  rw [literalText?, literal?, expression?, node?_graft, literalText?, literal?, expression?]
  cases g.node? x with
  | none => rfl
  | some n =>
    cases n with
    | expression e => cases e <;> rfl
    | _ => rfl

/-- Behind a tree, a declaration has the same name. -/
theorem declarationName?_graft : (t.graft g).declarationName? (t.shift x)
    = g.declarationName? x := by
  unfold declarationName?
  rw [declaration?_graft]
  cases g.declaration? x with
  | none => rfl
  | some d =>
    change ((d.keyword.map t.shift).bind fun keyword => (t.graft g).literalText? keyword)
      = d.keyword.bind fun keyword => g.literalText? keyword
    rw [Option.bind_map]
    exact congrArg d.keyword.bind (funext fun _ => literalText?_graft)

/-- Behind a tree, a node that exists does. -/
theorem shift_lt_size_graft (h : x < g.size) : t.shift x < (t.graft g).size := by
  rw [size_graft]
  exact Nat.add_lt_add_left h t.size

/-! ## Single changes -/

/-- Changing an entry behind a tree is changing the entry itself, if the changes agree up to the
shift. -/
theorem modify_graft {f f' : Entry → Entry}
    (hf : ∀ e, f' (e.rename t.shift) = (f e).rename t.shift) :
    { t.graft g with entries := (t.graft g).entries.modify (t.shift x) f' }
      = t.graft { g with entries := g.entries.modify x f } := by
  refine congrArg (fun entries => { t with entries }) (Array.ext_getElem? fun i => ?_)
  simp only [graft, shift, size, Array.getElem?_modify, Array.getElem?_append, Array.getElem?_map]
  by_cases hi : i < t.entries.size
  · have hne : t.entries.size + x ≠ i := by omega
    simp only [hi, hne, if_true, if_false]
  · obtain ⟨j, rfl⟩ := Nat.exists_eq_add_of_le (Nat.not_lt.mp hi)
    simp only [hi, Nat.add_left_cancel_iff, Nat.add_sub_cancel_left, if_false]
    split
    · simp [Function.comp_def, hf]
    · rfl

/-- Replacing a node behind a tree is replacing the node itself. -/
theorem setNode_graft :
    (t.graft g).setNode (t.shift x) (n.mapChildren t.shift) = t.graft (g.setNode x n) :=
  modify_graft fun _ => rfl

/-- Replacing an owner behind a tree is replacing the owner itself. -/
theorem setParent_graft {q : Option NodeId} :
    (t.graft g).setParent (t.shift x) (q.map t.shift) = t.graft (g.setParent x q) :=
  modify_graft fun _ => rfl

/-- Giving an owner to several ids behind a tree is giving it to the ids themselves. -/
theorem foldl_setParent_graft (p : NodeId) (cs : List NodeId) :
    (cs.map t.shift).foldl (fun u c => u.setParent c (some (t.shift p))) (t.graft g)
      = t.graft (cs.foldl (fun u c => u.setParent c (some p)) g) := by
  induction cs generalizing g with
  | nil => rfl
  | cons c cs ih =>
    rw [List.map_cons, List.foldl_cons, List.foldl_cons, ← ih]
    exact congrArg (List.foldl _ · _) (setParent_graft (q := some p))

/-- A node without a target is created behind a tree as it is alone. -/
theorem append_graft (htarget : n.target = none) :
    (t.graft g).append (n.mapChildren t.shift) l = t.graft (g.append n l) := by
  have hchildren := foldl_setParent_graft (t := t) (g := g) g.size n.children
  simp only [append, n.children_mapChildren, n.target_mapChildren, htarget, size_graft, hchildren]
  simp [graft, Entry.rename]

/-- A walk from new nodes finds new nodes only. -/
theorem size_le_of_inspectWithin (steps : Nat) (stack : List NodeId)
    (hstack : ∀ x ∈ stack, t.size ≤ x) :
    ∀ found ∈ (t.graft g).inspectWithin steps stack, t.size ≤ found.1 := by
  induction steps generalizing stack with
  | zero => simp [inspectWithin]
  | succ steps ih =>
    cases stack with
    | nil => simp [inspectWithin]
    | cons id stack =>
      obtain ⟨hid, hrest⟩ := List.forall_mem_cons.mp hstack
      obtain ⟨x, rfl⟩ := Nat.exists_eq_add_of_le hid
      unfold inspectWithin
      rw [show t.size + x = t.shift x from rfl, node?_graft]
      cases g.node? x with
      | none => exact ih stack hrest
      | some n =>
        refine List.forall_mem_cons.mpr ⟨hid, ih _ fun y hy => ?_⟩
        rw [n.children_mapChildren] at hy
        rcases List.mem_append.mp hy with hy | hy
        · obtain ⟨c, -, rfl⟩ := List.mem_map.mp hy
          exact Nat.le_add_right t.size c
        · exact hrest y hy

/-- References in the index of a sound tree exist. -/
theorem Sound.lt_size_of_bound (ht : t.Sound) (hx : x ∈ t.bound) : x < t.size := by
  obtain ⟨d, hd⟩ := Option.isSome_iff_exists.mp (ht.bound.mp hx)
  obtain ⟨m, hm, -⟩ := Option.bind_eq_some_iff.mp hd
  exact lt_size_of_node? hm

/-- Where no new reference is bound, there is nothing to record. -/
theorem refreshSubtree_graft (ht : t.Sound) :
    (t.graft g).refreshSubtree (t.shift x) = t.graft g := by
  have hnil : ((t.graft g).inspect (t.shift x)).filter (·.1 ∈ (t.graft g).bound) = [] := by
    refine List.filter_eq_nil_iff.mpr fun found hfound => ?_
    have hle := size_le_of_inspectWithin _ [t.shift x] (by simp [shift]) found hfound
    -- What is bound was there before.
    rw [bound_graft, decide_eq_true_iff]
    exact fun hmem => Nat.not_lt.mpr hle (ht.lt_size_of_bound hmem)
  unfold refreshSubtree
  rw [hnil, List.foldl_nil, ite_self]

/-- Where no reference is bound, no edge is refreshed. -/
theorem refreshSubtree_of_bound (h : g.bound = []) : g.refreshSubtree x = g := by
  simp [refreshSubtree, h]

/-! ## Owners and conditions -/

/-- Behind a tree, the chain of owners above a node is shifted. -/
theorem chain_graft {chain : List NodeId} (h : Chain g x chain) :
    Chain (t.graft g) (t.shift x) (chain.map t.shift) := by
  induction h with
  | root h => exact .root (by rw [parent?_graft, h]; rfl)
  | step h _ ih => exact .step (by rw [parent?_graft, h]; rfl) ih

/-- The owners above a node are those that it has alone. -/
theorem ancestors_graft (hg : g.Sound) :
    (t.graft g).ancestors (t.shift x) = (g.ancestors x).map t.shift := by
  have hchain := hg.chain_ancestors x
  have hlength : (g.ancestors x).length ≤ g.size :=
    length_le_size hchain.nodup (hg.lt_size_of_chain hchain)
  rw [ancestors, (chain_graft hchain).ancestorsWithin, List.take_of_length_le]
  rw [List.length_map, size_graft]
  exact hlength.trans (Nat.le_add_left g.size t.size)

/-- A node behind a tree is a node of that tree or has been shifted. -/
theorem lt_size_or_eq_shift (t : Tree) (x : NodeId) : x < t.size ∨ ∃ y, x = t.shift y :=
  (Nat.lt_or_ge x t.size).imp_right Nat.exists_eq_add_of_le

/-- What stands behind a tree has ids from its size on. -/
theorem size_le_shift : t.size ≤ t.shift x :=
  Nat.le_add_right t.size x

/-- The entries of the tree in front stay as they are. -/
theorem entry?_graft_of_lt (h : x < t.size) : entry? (t.graft g) x = t.entry? x :=
  Array.getElem?_append_left h

/-- The tree in front stays as it is. -/
theorem extends_graft (t g : Tree) : t.Extends (t.graft g) where
  size_le := by simp [shift]
  node := fun x hx => by rw [node?, entry?_graft_of_lt hx, node?]
  parent := fun x hx => by rw [parent?, entry?_graft_of_lt hx, parent?]
  location := fun x hx => by rw [location?, entry?_graft_of_lt hx, location?]
  graph := rfl

/-- Behind a tree, children are shifted. -/
theorem children_graft : (t.graft g).children (t.shift x) = (g.children x).map t.shift := by
  rw [children, node?_graft, children]
  cases g.node? x with
  | none => rfl
  | some n => exact n.children_mapChildren

/-- Where no reference is bound, none has a target. -/
theorem Loose.target?_eq_none (hg : g.Loose) (x : NodeId) : g.target? x = none := by
  have hbound : x ∉ g.bound := by simp [hg.bound]
  simpa [hg.sound.bound] using hbound

/-- Behind a tree, such a reference has no target either. -/
theorem target?_graft (hg : g.Loose) : (t.graft g).target? (t.shift x) = none := by
  have hnone := hg.target?_eq_none x
  rw [target?] at hnone ⊢
  rw [node?_graft]
  cases hn : g.node? x with
  | none => rfl
  | some n =>
    rw [hn] at hnone
    exact n.target_mapChildren.trans hnone

/-- Ownership in front and behind is what it is alone, and there is none in between. -/
theorem owner_graft (ht : t.Sound) (hg : g.Sound) :
    c ∈ (t.graft g).children p ↔ (t.graft g).parent? c = some p := by
  have hextends := extends_graft t g
  rcases t.lt_size_or_eq_shift c with hc | ⟨d, rfl⟩
  · rw [hextends.parent c hc]
    rcases t.lt_size_or_eq_shift p with hp | ⟨q, rfl⟩
    · rw [hextends.children hp]
      exact ht.owner
    · rw [children_graft]
      refine iff_of_false (fun hmem => ?_) fun howner => ?_
      · obtain ⟨d, -, rfl⟩ := List.mem_map.mp hmem
        exact Nat.not_lt.mpr size_le_shift hc
      · exact Nat.not_lt.mpr size_le_shift (ht.lt_size_of_owner howner)
  · rw [parent?_graft]
    rcases t.lt_size_or_eq_shift p with hp | ⟨q, rfl⟩
    · rw [hextends.children hp]
      refine iff_of_false (fun hmem => ?_) fun howner => ?_
      · exact Nat.not_lt.mpr size_le_shift (ht.lt_size_of_child hmem)
      · obtain ⟨q, -, rfl⟩ := Option.map_eq_some_iff.mp howner
        exact Nat.not_lt.mpr size_le_shift hp
    · rw [children_graft, mem_map_shift, hg.owner, ← Option.map_some,
        (Option.map_injective t.shift_injective).eq_iff]

/-- Behind a sound tree a sound tree without bound references is sound. -/
theorem Sound.graft (ht : t.Sound) (hg : g.Loose) : (t.graft g).Sound := by
  have hextends := extends_graft t g
  constructor
  case owner => exact owner_graft ht hg.sound
  case nodup =>
    intro p
    rcases t.lt_size_or_eq_shift p with hp | ⟨q, rfl⟩
    · rw [hextends.children hp]
      exact ht.nodup p
    · rw [children_graft]
      exact (hg.sound.nodup q).map t.shift_injective
  case finite =>
    -- A chain of owners stays in front or behind, and ends where it ends alone.
    refine ⟨fun x => ?_⟩
    rcases t.lt_size_or_eq_shift x with hx | ⟨y, rfl⟩
    · induction x using ht.finite.induction with
      | _ x ih =>
        refine Acc.intro x fun p hp => ?_
        rw [hextends.parent x hx] at hp
        exact ih p hp (ht.lt_size_of_owner hp)
    · induction y using hg.sound.finite.induction with
      | _ y ih =>
        refine Acc.intro _ fun p hp => ?_
        rw [parent?_graft] at hp
        obtain ⟨q, hq, rfl⟩ := Option.map_eq_some_iff.mp hp
        exact ih q hq
  case target =>
    intro e d hd
    rcases t.lt_size_or_eq_shift e with he | ⟨e, rfl⟩
    · rw [target?_congr (hextends.node e he)] at hd
      have hkind := ht.target hd
      rwa [kind?_congr (hextends.node d (lt_size_of_kind? hkind))]
    · simp [target?_graft hg] at hd
  case bound =>
    intro e
    rcases t.lt_size_or_eq_shift e with he | ⟨e, rfl⟩
    · rw [target?_congr (hextends.node e he)]
      exact ht.bound
    · rw [target?_graft hg]
      refine iff_of_false (fun hmem => ?_) (by simp)
      exact Nat.not_lt.mpr size_le_shift (ht.lt_size_of_bound hmem)
  case edge =>
    intro e he
    rcases t.lt_size_or_eq_shift e with hlt | ⟨e, rfl⟩
    · exact ht.edge (target?_congr (hextends.node e hlt) ▸ he)
    · exact ht.edge (target?_eq_none_of_le size_le_shift)
  case sorted => exact ht.sorted

/-- Behind a tree, what could be attached still can. -/
theorem attachable_graft (hg : g.Sound) (h : g.Attachable p c) :
    (t.graft g).Attachable (t.shift p) (t.shift c) where
  owner := shift_lt_size_graft h.owner
  child := shift_lt_size_graft h.child
  root := by rw [parent?_graft, h.root]; rfl
  cycle := by
    rw [Within, ancestors_graft hg, ← List.map_cons, mem_map_shift]
    exact h.cycle

/-- Behind a tree, a node without target can still be created over its children. -/
theorem adoptable_graft (h : g.Adoptable n) (htarget : n.target = none) :
    (t.graft g).Adoptable (n.mapChildren t.shift) where
  children := by
    intro d hd
    rw [n.children_mapChildren] at hd
    obtain ⟨c, hc, rfl⟩ := List.mem_map.mp hd
    obtain ⟨hlt, hroot⟩ := h.children c hc
    exact ⟨shift_lt_size_graft hlt, by rw [parent?_graft, hroot]; rfl⟩
  nodup := by
    rw [n.children_mapChildren]
    exact h.nodup.map t.shift_injective
  target := by simp [htarget]

/-! ## Changes -/

/-- A node is moved behind a tree as it is moved alone. -/
theorem move_graft (ht : t.Sound) {q : Option NodeId} (hg : g.bound = []) :
    (t.graft g).move (t.shift p) (n.mapChildren t.shift) (t.shift c) (q.map t.shift)
      = t.graft (g.move p n c q) := by
  have halone : g.move p n c q = g.relink p n c q := refreshSubtree_of_bound hg
  rw [halone, move, relink, setNode_graft, setParent_graft, refreshSubtree_graft ht]
  rfl

/-- A move leaves the index as it is. -/
theorem bound_move {q : Option NodeId} : (g.move p n c q).bound = g.bound := by
  obtain ⟨graph, hgraph, -⟩ := refreshSubtree_eq_withGraph (g.relink p n c q) c
  rw [move, hgraph]
  rfl

section Key

variable {d : Declaration} {key : String} {value : Option NodeId}

/-- Unbinding a key behind a tree is unbinding the key itself. -/
theorem vacate_graft (ht : t.Sound) (hg : g.bound = []) :
    (t.graft g).vacate (t.shift p) (d.mapChildren t.shift) key = t.graft (g.vacate p d key) := by
  have hproperty := d.property?_mapChildren (f := t.shift) key
  cases hc : d.property? key with
  | none =>
    rw [hc] at hproperty
    rw [vacate_of_none hc, vacate_of_none hproperty]
  | some c =>
    rw [hc] at hproperty
    have hnone := d.withProperty_mapChildren (f := t.shift) key none
    rw [Option.map_none] at hnone
    rw [vacate_of_some hc, vacate_of_some hproperty, hnone]
    exact move_graft (n := .declaration (d.withProperty key none)) (q := none) ht hg

/-- Unbinding a key leaves the index as it is. -/
theorem bound_vacate : (g.vacate p d key).bound = g.bound := by
  unfold vacate
  split
  · rfl
  · exact bound_move

/-- Binding a key behind a tree is binding the key itself. -/
theorem occupy_graft (ht : t.Sound) (hg : g.bound = []) :
    (t.graft g).occupy (t.shift p) (d.mapChildren t.shift) key (value.map t.shift)
      = t.graft (g.occupy p d key value) := by
  cases value with
  | none => rfl
  | some c =>
    have hsome := d.withProperty_mapChildren (f := t.shift) key (some c)
    rw [Option.map_some] at hsome
    rw [Option.map_some, occupy, occupy, hsome]
    exact move_graft (n := .declaration (d.withProperty key (some c))) (q := some p) ht hg

/-- Binding a key leaves the index as it is. -/
theorem bound_occupy : (g.occupy p d key value).bound = g.bound := by
  cases value with
  | none => rfl
  | some c => exact bound_move

end Key

/-- In the empty tree no reference is bound. -/
theorem loose_empty : Loose {} :=
  ⟨sound_empty, rfl⟩

/-- Behind a tree, nothing leaves it as it is. -/
@[simp] theorem graft_empty (t : Tree) : t.graft {} = t := by
  simp [graft]

end Tree

namespace Tree

variable {t g : Tree}

/-- What stands behind a tree names no node of that tree. -/
theorem Loose.from_rename (hg : g.Loose) {e : Entry} (he : e ∈ g.entries) :
    (e.rename t.shift).From t.size where
  children := by
    intro c hc
    rw [Entry.rename, Node.children_mapChildren] at hc
    obtain ⟨d, -, rfl⟩ := List.mem_map.mp hc
    exact size_le_shift
  parent := by
    intro p hp
    obtain ⟨q, -, rfl⟩ := Option.map_eq_some_iff.mp hp
    exact size_le_shift
  target := by
    obtain ⟨i, hi, rfl⟩ := Array.mem_iff_getElem.mp he
    have hnone := hg.target?_eq_none i
    rw [target?, node?, entry?, Array.getElem?_eq_getElem hi] at hnone
    exact (Node.target_mapChildren _).trans hnone

end Tree

/-! ## Operations -/

namespace TreeM

variable {α β : Type} {t g u : Tree} {p c : NodeId} {n : Node}

/-- Where the one succeeds alone, the other does the same behind `t`: it gives `f` of the answer.
What is built stays free of bound references. -/
def Carries (t : Tree) (m : TreeM α) (m' : TreeM β) (f : α → β) : Prop :=
  ∀ g, g.Loose → ∀ a u, m g = .ok a u → m' (t.graft g) = .ok (f a) (t.graft u) ∧ u.Loose

/-- A node without target is added behind a tree as it is alone. -/
theorem carries_add (ht : t.Sound) (htarget : n.target = none) (l : Location) :
    Carries t (add n l) (add (n.mapChildren t.shift) l) t.shift := by
  intro g hg a u h
  rcases adoptable_or_error g n l with ha | ⟨e, he⟩
  · have hu : (g.append n l).Loose := by
      refine ⟨hg.sound.append ha, List.eq_nil_iff_forall_not_mem.mpr fun x => ?_⟩
      simp [Tree.mem_bound_append, htarget, hg.bound]
    rw [add_of_adoptable ha, Tree.refreshSubtree_of_bound hu.bound] at h
    cases h
    rw [add_of_adoptable (Tree.adoptable_graft ha htarget), Tree.append_graft htarget,
      Tree.size_graft, Tree.refreshSubtree_graft ht]
    exact ⟨rfl, hu⟩
  · cases he.symm.trans h

/-- A child is appended behind a tree as it is alone. -/
theorem carries_pushChild (ht : t.Sound) (p c : NodeId) :
    Carries t (pushChild p c) (pushChild (t.shift p) (t.shift c)) id := by
  intro g hg a u h
  rcases pushChild_cases g p c with ⟨ha, n, n', hp, hpush⟩ | ⟨e, he⟩
  · rw [pushChild_of_attachable ha hp hpush] at h
    cases h
    have hp' : (t.graft g).node? (t.shift p) = some (n.mapChildren t.shift) := by
      rw [Tree.node?_graft, hp]
      rfl
    have hpush' : (n.mapChildren t.shift).push? (t.shift c) = some (n'.mapChildren t.shift) := by
      rw [n.push?_mapChildren, hpush]
      rfl
    have hmove := Tree.move_graft (p := p) (c := c) (n := n') (q := some p) ht hg.bound
    rw [pushChild_of_attachable (Tree.attachable_graft hg.sound ha) hp' hpush',
      ← Option.map_some, hmove]
    exact ⟨rfl, hg.sound.move_some hp (Node.without_of_push? hpush) ha,
      Tree.bound_move.trans hg.bound⟩
  · cases he.symm.trans h

/-- An entry is inserted behind a tree as it is alone. -/
theorem carries_insertEntry (ht : t.Sound) (p : NodeId) (k : Key) (c : NodeId) :
    Carries t (insertEntry p k c) (insertEntry (t.shift p) k (t.shift c)) id := by
  intro g hg a u h
  rcases insertEntry_cases g p k c with ⟨ha, es, hp⟩ | ⟨e, he⟩
  · have ha' := Tree.attachable_graft (t := t) hg.sound ha
    have hp' : (t.graft g).node? (t.shift p)
        = some (.expression (.object (es.map fun entry => (entry.1, t.shift entry.2)))) := by
      rw [Tree.node?_graft, hp]
      rfl
    have hcontains : Entries.contains (es.map fun entry => (entry.1, t.shift entry.2)) k.text
        = es.contains k.text := by
      rw [Entries.contains, List.any_map]
      rfl
    cases hk : es.contains k.text with
    | true =>
      rw [insertEntry_of_contains ha hp hk] at h
      cases h
      rw [insertEntry_of_contains ha' hp' (hcontains.trans hk)]
      exact ⟨rfl, hg⟩
    | false =>
      rw [insertEntry_of_attachable ha hp hk] at h
      cases h
      rw [insertEntry_of_attachable ha' hp' (hcontains.trans hk)]
      have hmove := Tree.move_graft (p := p) (c := c) (q := some p)
        (n := .expression (.object (es ++ [(k, c)]))) ht hg.bound
      simp only [Node.mapChildren, Expression.mapChildren, List.map_append, List.map_cons,
        List.map_nil, Option.map_some] at hmove
      rw [hmove]
      exact ⟨rfl, hg.sound.move_some hp (Node.without_entry es k c) ha,
        Tree.bound_move.trans hg.bound⟩
  · cases he.symm.trans h

/-- A key is bound behind a tree as it is alone. -/
theorem carries_setProperty (ht : t.Sound) (id : NodeId) (key : String) (value : Option NodeId) :
    Carries t (setProperty id key value) (setProperty (t.shift id) key (value.map t.shift))
      (Option.map t.shift) := by
  intro g hg a u h
  rcases setProperty_cases g id key value with ⟨d, hid, hkey, ha⟩ | ⟨e, he⟩
  · rw [setProperty_of_attachable hg.sound hid hkey ha] at h
    cases h
    have hid' : (t.graft g).node? (t.shift id)
        = some (.declaration (d.mapChildren t.shift)) := by
      rw [Tree.node?_graft, hid]
      rfl
    have hkey' : (d.mapChildren t.shift).hasProperty key = true := by simpa using hkey
    have ha' (v : NodeId) (hv : value.map t.shift = some v) :
        (t.graft g).Attachable (t.shift id) v := by
      obtain ⟨c, hc, rfl⟩ := Option.map_eq_some_iff.mp hv
      exact Tree.attachable_graft hg.sound (ha c hc)
    rw [setProperty_of_attachable (ht.graft hg) hid' hkey' ha', d.property?_mapChildren,
      Tree.vacate_graft ht hg.bound, Tree.occupy_graft ht (Tree.bound_vacate.trans hg.bound)]
    exact ⟨rfl, hg.sound.rebind hid hkey ha,
      Tree.bound_occupy.trans (Tree.bound_vacate.trans hg.bound)⟩
  · cases he.symm.trans h

end TreeM

end InfraModule
