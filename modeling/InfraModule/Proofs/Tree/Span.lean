import Mathlib.Order.Defs.PartialOrder
import InfraModule.Proofs.Result
import InfraModule.Proofs.Tree.Operation

/-!
# Spans that nest

The spans of a tree nest when no span stops before it starts and each node's span lies within its
owner's (`Tree.Nested`). While a tree is built, spans stay as they are, so a step keeps them nested
when each child that it attaches lies within the owner that it is attached to (`Tree.Situates`).
What is between two marks stays between marks that are further apart, which is all that has to be
known of the spans of nodes before it is known what they are attached to.
-/

namespace InfraModule

open Result

/-! ## Marks and spans -/

/-- Marks are ordered by line and then by column. -/
instance : Preorder Mark where
  le_refl a := by simp [Mark.le_def]
  le_trans a b c hab hbc := by
    simp only [Mark.le_def] at *
    omega
  lt_iff_le_not_ge a b := by
    simp only [Mark.lt_def, Mark.le_def]
    omega

namespace Location

variable {l m : Location} {start stop start' stop' : Mark}

/-- The span lies between two marks. -/
structure Between (start stop : Mark) (l : Location) : Prop where
  /-- It does not start before the first. -/
  le_start : start ≤ l.start
  /-- It does not stop behind the second. -/
  stop_le : l.stop ≤ stop

/-- The span lies within another: it does not start before it, and does not stop behind it. -/
abbrev Inside (l outer : Location) : Prop :=
  Between outer.start outer.stop l

/-- What lies between two marks lies between marks that are further apart. -/
theorem Between.mono (h : Between start stop l) (hstart : start' ≤ start) (hstop : stop ≤ stop') :
    Between start' stop' l :=
  ⟨hstart.trans h.le_start, h.stop_le.trans hstop⟩

/-- A span lies within itself. -/
theorem inside_refl (l : Location) : l.Inside l :=
  ⟨le_refl l.start, le_refl l.stop⟩

end Location

namespace Tree

variable {t s u : Tree} {p c x id : NodeId} {n n' : Node} {l : Location}
  {start stop start' stop' : Mark}

/-- A node has a span between two marks. -/
def Lies (t : Tree) (start stop : Mark) (id : NodeId) : Prop :=
  ∃ l, t.location? id = some l ∧ l.Between start stop

/-- A node lies between the marks of its span. -/
theorem lies_of_location? (h : t.location? id = some l) : t.Lies l.start l.stop id :=
  ⟨l, h, l.inside_refl⟩

/-- A node that lies between two marks lies between marks that are further apart. -/
theorem Lies.mono (h : t.Lies start stop id) (hstart : start' ≤ start) (hstop : stop ≤ stop') :
    t.Lies start' stop' id := by
  obtain ⟨l, hl, hbetween⟩ := h
  exact ⟨l, hl, hbetween.mono hstart hstop⟩

/-- A node that exists has a location. -/
theorem exists_location? (h : id < t.size) : ∃ l, t.location? id = some l := by
  obtain ⟨e, he⟩ := entry?_eq_some_iff_lt.mpr h
  exact ⟨e.location, by rw [location?, he]; rfl⟩

/-- An id with a location is below the size. -/
theorem lt_size_of_location? (h : t.location? id = some l) : id < t.size := by
  obtain ⟨e, he, -⟩ := Option.map_eq_some_iff.mp h
  exact entry?_eq_some_iff_lt.mp ⟨e, he⟩

/-- What lies within a span lies within the node that has it. -/
theorem Lies.within (h : t.Lies l.start l.stop c) (hp : t.location? p = some l) (outer : Location)
    (houter : t.location? p = some outer) : t.Lies outer.start outer.stop c := by
  cases hp.symm.trans houter
  exact h

/-- A sound tree in which the spans nest. -/
structure Nested (t : Tree) : Prop where
  /-- The tree is sound. -/
  sound : t.Sound
  /-- No span stops before it starts. -/
  forward : ∀ x l, t.location? x = some l → l.start ≤ l.stop
  /-- Children lie within their owner. -/
  inside : ∀ p outer, t.location? p = some outer →
    ∀ c ∈ t.children p, t.Lies outer.start outer.stop c

/-- From a tree one was made in which the spans nest and the nodes that were there have the same
spans. -/
structure Nests (t u : Tree) : Prop extends u.Nested where
  /-- Nodes keep their spans. -/
  keeps : ∀ x l, t.location? x = some l → u.location? x = some l

namespace Nests

/-- Where nothing is made, spans are those that were. -/
theorem refl (h : t.Nested) : t.Nests t :=
  ⟨h, fun _ _ hl => hl⟩

/-- Nodes that are made in two steps nest as well. -/
theorem trans (hts : t.Nests s) (hsu : s.Nests u) : t.Nests u :=
  ⟨hsu.toNested, fun x l hl => hsu.keeps x l (hts.keeps x l hl)⟩

/-- A node lies where it lay. -/
theorem lies (h : t.Nests u) (hid : t.Lies start stop id) : u.Lies start stop id := by
  obtain ⟨l, hl, hbetween⟩ := hid
  exact ⟨l, h.keeps id l hl, hbetween⟩

end Nests

namespace Nested

/-- Each node lies within its owner. -/
theorem inside_of_parent? (h : t.Nested) (hp : t.parent? c = some p) :
    ∃ l outer, t.location? c = some l ∧ t.location? p = some outer ∧ l.Inside outer := by
  obtain ⟨outer, houter⟩ := exists_location? (h.sound.lt_size_of_owner hp)
  obtain ⟨l, hl, hinside⟩ := h.inside p outer houter c (h.sound.owner.mpr hp)
  exact ⟨l, outer, hl, houter, hinside⟩

/-! ## Operations -/

/-- Dependencies are recorded without regard to spans. -/
theorem refreshSubtree (h : t.Nested) (root : NodeId) : (t.refreshSubtree root).Nested where
  sound := h.sound.refreshSubtree root
  forward := fun x l hl => h.forward x l (by rwa [location?_refreshSubtree] at hl)
  inside := by
    intro p outer houter c hc
    rw [location?_refreshSubtree] at houter
    rw [children, node?_refreshSubtree] at hc
    rw [Lies, location?_refreshSubtree]
    exact h.inside p outer houter c hc

/-- A node may take over children that lie within its span. -/
theorem append (h : t.Nested) (ha : t.Adoptable n) (hl : l.start ≤ l.stop)
    (hchildren : ∀ c ∈ n.children, t.Lies l.start l.stop c) : t.Nests (t.append n l) := by
  have hkeeps : ∀ x m, t.location? x = some m → (t.append n l).location? x = some m :=
    fun x m hm => by rwa [location?_append_of_ne (lt_size_of_location? hm).ne]
  have hlies {start stop : Mark} {c : NodeId} (hc : t.Lies start stop c) :
      (t.append n l).Lies start stop c := by
    obtain ⟨m, hm, hbetween⟩ := hc
    exact ⟨m, hkeeps c m hm, hbetween⟩
  refine ⟨⟨h.sound.append ha, fun x m hm => ?_, fun p outer houter c hc => ?_⟩, hkeeps⟩
  · by_cases hx : x = t.size
    · rw [hx, location?_append_self, Option.some_inj] at hm
      exact hm ▸ hl
    · rw [location?_append_of_ne hx] at hm
      exact h.forward x m hm
  · rw [children_append] at hc
    by_cases hp : p = t.size
    · rw [hp, location?_append_self, Option.some_inj] at houter
      rw [if_pos hp] at hc
      exact houter ▸ hlies (hchildren c hc)
    · rw [location?_append_of_ne hp] at houter
      rw [if_neg hp] at hc
      exact hlies (h.inside p outer houter c hc)

/-- A node may name other children, if these lie within its span. -/
theorem move {q : Option NodeId} (h : t.Nested) (hu : (t.move p n' c q).Sound) (hp : p < t.size)
    (hchildren : ∀ outer, t.location? p = some outer →
      ∀ d ∈ n'.children, t.Lies outer.start outer.stop d) : (t.move p n' c q).Nested where
  sound := hu
  forward := fun x l hl => h.forward x l (by rwa [location?_move] at hl)
  inside := by
    intro x outer houter d hd
    rw [location?_move] at houter
    rw [Lies, location?_move]
    rw [children, node?_move hp] at hd
    split at hd
    · next hx => exact hchildren outer (hx ▸ houter) d hd
    · exact h.inside x outer houter d hd

/-- A child may be attached to a node whose span it lies within. -/
theorem attach (h : t.Nested) (ha : t.Attachable p c) (hp : t.node? p = some n)
    (hn : n'.Without c n)
    (hc : ∀ outer, t.location? p = some outer → t.Lies outer.start outer.stop c) :
    (t.move p n' c (some p)).Nested := by
  refine h.move (h.sound.move_some hp hn ha) ha.owner fun outer houter d hd => ?_
  rcases List.mem_cons.mp (hn.children.subset hd) with rfl | hd
  · exact hc outer houter
  · exact h.inside p outer houter d (children_of_node? hp ▸ hd)

/-- What is bound to a key of a declaration may be taken out of it. -/
theorem vacate {d : Declaration} {key : String} (h : t.Nested)
    (hid : t.node? id = some (.declaration d)) (hkey : d.hasProperty key = true) :
    (t.vacate id d key).Nested := by
  have hs := h.sound.vacate hid hkey
  cases hc : d.property? key with
  | none => rwa [vacate_of_none hc]
  | some c =>
    rw [vacate_of_some hc] at hs ⊢
    refine h.move hs (lt_size_of_node? hid) fun outer houter e he => h.inside id outer houter e ?_
    rw [children_of_node? hid]
    exact (Node.without_of_property? hkey hc).children.symm.subset (List.mem_cons_of_mem c he)

end Nested

/-! ## Steps -/

/-- Starting from a tree in which the spans nest, a step leaves one in which they do and the nodes
that were there have the same spans, so that `P` holds if it succeeds. The tree is the one that
`tree` finds in the state. -/
def Situates {ε σ α : Type} (tree : σ → Tree) (m : EStateM ε σ α) (s : σ) (P : Tree → α → Prop) :
    Prop :=
  Post m s (fun a u => (tree s).Nests (tree u) ∧ P (tree u) a) fun _ u => (tree s).Nests (tree u)

namespace Situates

variable {ε σ α β : Type} {tree : σ → Tree} {m : EStateM ε σ α} {f : α → EStateM ε σ β} {s : σ}
  {P Q : Tree → α → Prop} {R : Tree → β → Prop}

/-- A step that situates nodes as demanded situates them as is demanded less strictly. -/
theorem mono (h : Situates tree m s P) (hPQ : ∀ t a, P t a → Q t a) : Situates tree m s Q :=
  Post.mono h (fun _ _ ⟨hu, hP⟩ => ⟨hu, hPQ _ _ hP⟩) fun _ _ h => h

/-- An answer alone situates no nodes. -/
theorem pure {a : α} (h : (tree s).Nested) (hP : P (tree s) a) :
    Situates tree (Pure.pure a : EStateM ε σ α) s P :=
  ⟨.refl h, hP⟩

/-- Of two steps in a row the second starts with the tree that the first has left. -/
theorem bind (hm : Situates tree m s P)
    (hf : ∀ a u, (tree s).Nests (tree u) → P (tree u) a → Situates tree (f a) u R) :
    Situates tree (m >>= f) s R := by
  refine post_bind.mpr (Post.mono hm (fun a u ⟨hu, hP⟩ => ?_) fun _ _ h => h)
  exact Post.mono (hf a u hu hP) (fun _ _ ⟨hv, hR⟩ => ⟨hu.trans hv, hR⟩) fun _ _ hv => hu.trans hv

/-- Changing the answer does not matter to spans. -/
theorem map {g : α → β} (hm : Situates tree m s fun t a => R t (g a)) :
    Situates tree (g <$> m) s R :=
  post_map.mpr hm

end Situates

section Operations

variable (h : t.Nested)

include h

/-- A step that is refused leaves spans as they are. -/
theorem situates_of_error {α : Type} {operation : TreeM α} {e : TreeError} {P : Tree → α → Prop}
    (he : operation t = .error e t) : Situates (fun t => t) operation t P := by
  unfold Situates
  rw [post_of_error he]
  exact .refl h

omit h in
/-- A step that makes no node may leave spans as they are. -/
theorem situates_of_ok {α : Type} {operation : TreeM α} {a : α} (hu : u.Nested)
    (hlocation : u.location? = t.location?) (hok : operation t = .ok a u) :
    Situates (fun t => t) operation t fun _ _ => True := by
  unfold Situates
  rw [post_of_ok hok]
  exact ⟨⟨hu, fun x l hl => by rwa [hlocation]⟩, trivial⟩

/-- A node is added over children that lie within its span. -/
theorem situates_add (hl : l.start ≤ l.stop)
    (hchildren : ∀ c ∈ n.children, t.Lies l.start l.stop c) :
    Situates (fun t => t) (TreeM.add n l) t fun u x => u.location? x = some l := by
  rcases TreeM.adoptable_or_error t n l with ha | ⟨e, he⟩
  · have hnests := h.append ha hl hchildren
    unfold Situates
    rw [post_of_ok (TreeM.add_of_adoptable ha)]
    refine ⟨⟨hnests.toNested.refreshSubtree t.size, ?_⟩, ?_⟩
    · simpa using hnests.keeps
    · simp
  · exact situates_of_error h he

variable (hc : ∀ outer, t.location? p = some outer → t.Lies outer.start outer.stop c)

include hc

/-- A child that lies within the node can be appended. -/
theorem situates_pushChild :
    Situates (fun t => t) (TreeM.pushChild p c) t fun _ _ => True := by
  rcases TreeM.pushChild_cases t p c with ⟨ha, n, n', hp, hpush⟩ | ⟨e, he⟩
  · exact situates_of_ok (h.attach ha hp (Node.without_of_push? hpush) hc) location?_move
      (TreeM.pushChild_of_attachable ha hp hpush)
  · exact situates_of_error h he

/-- A value that lies within the object can be inserted. -/
theorem situates_insertEntry (key : Key) :
    Situates (fun t => t) (TreeM.insertEntry p key c) t fun _ _ => True := by
  rcases TreeM.insertEntry_cases t p key c with ⟨ha, es, hp⟩ | ⟨e, he⟩
  · cases hkey : es.contains key.text with
    | true => exact situates_of_ok h rfl (TreeM.insertEntry_of_contains ha hp hkey)
    | false =>
      exact situates_of_ok (h.attach ha hp (Node.without_entry es key c) hc) location?_move
        (TreeM.insertEntry_of_attachable ha hp hkey)
  · exact situates_of_error h he

/-- A value that lies within the declaration can be bound. -/
theorem situates_setProperty (key : String) :
    Situates (fun t => t) (TreeM.setProperty p key (some c)) t fun _ _ => True := by
  rcases TreeM.setProperty_cases t p key (some c) with ⟨d, hp, hkey, ha⟩ | ⟨e, he⟩
  · have hattached := (h.vacate hp hkey).attach (h.sound.attachable_vacate hp hkey (ha c rfl))
      (node?_vacate hp) (Node.without_of_bound c hkey) fun outer houter => by
        rw [location?_vacate] at houter
        rw [Lies, location?_vacate]
        exact hc outer houter
    exact situates_of_ok hattached (by simp) (TreeM.setProperty_of_attachable h.sound hp hkey ha)
  · exact situates_of_error h he

end Operations

end Tree

end InfraModule
