import InfraModule.Proofs.Parse.Complete

/-!
# Where new nodes stand

Finishing a declaration moves no node, and what is added for it stands where the declaration does
(`Parse.placed_finish`): the declaration itself, and the version that a module without one is given.
-/

namespace InfraModule

/-! ## Trees -/

/-- In a sound tree all nodes have kept their locations, and new ones stand at one location. -/
structure Tree.Places (l : Location) (t u : Tree) : Prop where
  /-- The tree is sound. -/
  sound : u.Sound
  /-- No node is lost. -/
  size_le : t.size ≤ u.size
  /-- Locations stay. -/
  kept : ∀ x < t.size, u.location? x = t.location? x
  /-- New nodes stand at the location. -/
  new : ∀ x < u.size, t.size ≤ x → u.location? x = some l

/-- A version that stands at a location is bound to a declaration. -/
def Tree.VersionAt (l : Location) (t : Tree) (id : NodeId) : Prop :=
  ∃ d version, t.node? id = some (.declaration d) ∧ d.property? "Version" = some version ∧
    t.location? version = some l

namespace Tree

variable {t s u : Tree} {l : Location}

/-- A tree of the same size and the same locations has its nodes where they were. -/
theorem Places.of_eq (hu : u.Sound) (hsize : u.size = t.size) (h : u.location? = t.location?) :
    Places l t u where
  sound := hu
  size_le := hsize.ge
  kept _ _ := by rw [h]
  new _ hx hle := absurd (hsize ▸ hx) (Nat.not_lt.mpr hle)

/-- Placing twice at one location is placing there. -/
theorem Places.trans (hts : Places l t s) (hsu : Places l s u) : Places l t u where
  sound := hsu.sound
  size_le := hts.size_le.trans hsu.size_le
  kept x hx := (hsu.kept x (hx.trans_le hts.size_le)).trans (hts.kept x hx)
  new x hx hle := by
    rcases Nat.lt_or_ge x s.size with hlt | hge
    · rw [hsu.kept x hlt, hts.new x hlt hle]
    · exact hsu.new x hx hge

/-- A node that is appended stands at its location. -/
theorem Sound.places_append {n : Node} (ht : t.Sound) (ha : t.Adoptable n) (l : Location) :
    Places l t (t.append n l) where
  sound := ht.append ha
  size_le := by simp
  kept _ hx := location?_append_of_ne hx.ne
  new x hx hle := by
    rw [size_append] at hx
    obtain rfl : x = t.size := by omega
    exact location?_append_self

end Tree

namespace TreeM

open Result

variable {t : Tree}

/-- A new node stands at its location. -/
theorem placed_add (ht : t.Sound) (n : Node) (l : Location) : Post (add n l) t
    (fun id u => t.Places l u ∧ id = t.size ∧ id < u.size) fun _ _ => True := by
  rcases adoptable_or_error t n l with ha | ⟨e, he⟩
  · rw [post_of_ok (add_of_adoptable ha)]
    have hplaces := ht.places_append ha l
    exact ⟨hplaces.trans (.of_eq (hplaces.sound.refreshSubtree _) (by simp) (by simp)), rfl,
      by simp⟩
  · exact (post_of_error he).mpr trivial

/-- Binding a key moves no node. -/
theorem placed_setProperty (ht : t.Sound) (id : NodeId) (key : String) (v : NodeId)
    (l : Location) : Post (setProperty id key (some v)) t (fun _ u => t.Places l u ∧
      ∃ d, u.node? id = some (.declaration d) ∧ d.property? key = some v) fun _ _ => True := by
  rcases setProperty_cases t id key (some v) with ⟨d, hid, hkey, ha⟩ | ⟨e, he⟩
  · rw [post_of_ok (setProperty_of_attachable ht hid hkey ha)]
    refine ⟨.of_eq (ht.rebind hid hkey ha) (by simp) (by simp),
      d.withProperty key (some v), ?_, Declaration.property?_withProperty_self hkey⟩
    have hlt : id < (t.vacate id d key).size := by simpa using (ha v rfl).owner
    rw [Tree.occupy, Tree.node?_move hlt, if_pos rfl]
  · exact (post_of_error he).mpr trivial

end TreeM

/-! ## Readers -/

namespace Parse

open ParseM

variable {setting : Setting} {s : ParseState} {id : NodeId} {draft : Draft}

/-- A node that is added is the last one and stands at its location. -/
theorem placed_add (hs : s.build.tree.Sound) (n : Node) (l : Location) :
    Ensures (add n l) setting s fun id u => s.build.tree.Places l u.build.tree ∧
      id = s.build.tree.size ∧ id < u.build.tree.size :=
  post_build.mpr (BuildM.post_onTree.mpr (TreeM.placed_add hs n l))

/-- Binding a property leaves all nodes where they are, and the property is bound then. -/
theorem placed_setProperty (hs : s.build.tree.Sound) (id : NodeId) (key : String) (v : NodeId)
    (l : Location) : Ensures (discard (build (.onTree (.setProperty id key v)))) setting s
      fun _ u => s.build.tree.Places l u.build.tree ∧
        ∃ d, u.build.tree.node? id = some (.declaration d) ∧ d.property? key = some v :=
  post_map.mpr (post_build.mpr (BuildM.post_onTree.mpr (TreeM.placed_setProperty hs id key v l)))

/-- Binding properties leaves all nodes where they are. -/
theorem placed_bindAll (hs : s.build.tree.Sound) (id : NodeId) (values : List (String × NodeId))
    (l : Location) : Ensures (bindAll id values) setting s fun _ u =>
      s.build.tree.Places l u.build.tree := by
  induction values generalizing s with
  | nil => exact .of_eq hs rfl rfl
  | cons entry values ih =>
    refine Post.bind (placed_setProperty hs id entry.1 entry.2 l) fun _ u hu => ?_
    exact (ih hu.1.sound).mono fun _ _ hv => hu.1.trans hv

/-- The version that a module is given stands where it is told to. -/
theorem placed_addDefaultVersion (hs : s.build.tree.Sound) (draft : Draft) (id : NodeId)
    (l : Location) : Ensures (addDefaultVersion draft id l) setting s fun _ u =>
      s.build.tree.Places l u.build.tree ∧
        (draft.LacksVersion → u.build.tree.VersionAt l id) := by
  unfold addDefaultVersion
  split
  · rw [Ensures, post_bind, post_read]
    refine Post.bind (placed_add hs _ l) fun version u hu => ?_
    obtain ⟨hplaces, hversion, hlt⟩ := hu
    refine Post.bind (placed_setProperty hplaces.sound id "Version" version l) fun _ v hv => ?_
    obtain ⟨hplaces', d, hnode, hbound⟩ := hv
    refine ⟨hplaces.trans hplaces', fun _ => ⟨d, version, hnode, hbound, ?_⟩⟩
    rw [hplaces'.kept version hlt, hplaces.new version hlt hversion.ge]
  · next hlacks => exact ⟨.of_eq hs rfl rfl, fun h => absurd h hlacks⟩

/-- Finishing a declaration moves no node, and what is added for it stands where it does. -/
theorem placed_finish (hs : s.build.tree.Sound) (draft : Draft) (start l : Location) :
    Ensures (finish draft start l) setting s fun given u => s.build.tree.Places l u.build.tree ∧
      ∀ id ∈ given, u.build.tree.location? id = some l ∧
        (draft.LacksVersion → u.build.tree.VersionAt l id) := by
  unfold finish
  refine Post.bind (spares_reportMissing _ start setting s).ensures fun _ u hu => ?_
  rw [← hu] at hs ⊢
  split
  · exact ⟨.of_eq hs rfl rfl, by simp⟩
  · next d hd =>
    refine Post.bind (placed_add hs _ l) fun id v hv => ?_
    obtain ⟨hadded, hid, hlt⟩ := hv
    refine Post.bind (placed_bindAll hadded.sound id draft.values l) fun _ w hw => ?_
    refine Post.bind (placed_addDefaultVersion hw.sound draft id l) fun _ w' hw' => ?_
    obtain ⟨hlast, hversion⟩ := hw'
    have hbound := hw.trans hlast
    refine ⟨hadded.trans hbound, fun id' hid' => ?_⟩
    cases hid'
    -- The declaration was the first node to be added.
    refine ⟨?_, hversion⟩
    rw [hbound.kept id hlt, hadded.new id hlt hid.ge]

end Parse

end InfraModule
