import InfraModule.Proofs.Result
import InfraModule.Proofs.Tree.Edit
import InfraModule.Tree.Copy
import InfraModule.Tree.Link

/-!
# What the operations on a tree do

For each operation the condition under which it succeeds and the tree that it then leaves, in terms
of the changes of `Tree.Edit`; and that an operation that is refused leaves the tree as it found it.
-/

namespace InfraModule

open Result

/-! ## Conditions -/

namespace Tree

variable {t : Tree} {id p c : NodeId}

/-- An entry is required with success exactly if it is there. -/
theorem requireEntry_eq_ok {e : Entry} : t.requireEntry id = .ok e ↔ t.entry? id = some e := by
  unfold requireEntry
  split <;> simp_all

/-- A node that exists is found with its owner and its location. -/
theorem requireEntry_of_lt (h : id < t.size) :
    ∃ e, t.requireEntry id = .ok e ∧ t.node? id = some e.node ∧ t.parent? id = e.parent ∧
      t.location? id = some e.location := by
  obtain ⟨e, he⟩ := entry?_eq_some_iff_lt.mpr h
  exact ⟨e, requireEntry_eq_ok.mpr he, by simp [node?, he], by simp [parent?, he],
    by simp [location?, he]⟩

/-- An id from the size on is an unknown node. -/
theorem requireEntry_of_le (h : t.size ≤ id) : t.requireEntry id = .error (.unknownNode id) := by
  have hnone : t.entry? id = none := by simpa [size, entry?] using h
  rw [requireEntry, hnone]

/-- A declaration is required with success exactly if the node is one. -/
theorem requireDeclaration_eq_ok {d : Declaration} :
    t.requireDeclaration id = .ok d ↔ t.node? id = some (.declaration d) := by
  unfold requireDeclaration
  by_cases h : id < t.size
  · obtain ⟨e, he, hn, -, -⟩ := requireEntry_of_lt h
    rw [he, hn]
    simp only [bind, Except.bind]
    split <;> simp_all
  · have hle := Nat.not_lt.mp h
    rw [requireEntry_of_le hle, node?_eq_none_iff.mpr hle]
    change Except.error _ = _ ↔ _
    simp

/-- A node that is required to be a declaration has a kind. -/
theorem kind?_of_requireDeclaration {d : Declaration} (h : t.requireDeclaration id = .ok d) :
    (t.kind? id).isSome = true := by
  rw [kind?_of_node? (requireDeclaration_eq_ok.mp h)]
  rfl

/-- A node that has a kind is a declaration. -/
theorem requireDeclaration_of_kind? (h : (t.kind? id).isSome = true) :
    ∃ d, t.requireDeclaration id = .ok d := by
  rw [kind?_eq] at h
  cases hn : t.node? id with
  | none => simp [hn] at h
  | some n =>
    cases n with
    | declaration d => exact ⟨d, requireDeclaration_eq_ok.mpr hn⟩
    | _ => simp [hn, Node.kind?, Node.declaration?] at h

/-- The check of what is attached passes exactly if it can be attached. -/
theorem checkAttachable_eq_ok : t.checkAttachable p c = .ok () ↔ t.Attachable p c := by
  unfold checkAttachable
  -- The checks are followed in the order in which they are made.
  by_cases hp : p < t.size
  · obtain ⟨ep, hep, -⟩ := requireEntry_of_lt hp
    rw [hep]
    by_cases hc : c < t.size
    · obtain ⟨ec, hec, -, hparent, -⟩ := requireEntry_of_lt hc
      rw [hec]
      simp only [bind, Except.bind]
      rw [← hparent]
      cases hroot : t.parent? c with
      | some owner => simpa using fun h : t.Attachable p c => by simp [h.root] at hroot
      | none =>
        have hcycle : (p = c ∨ c ∈ t.ancestors p) ↔ t.Within c p := by simp [Within, eq_comm]
        simp only [hcycle]
        split
        · next h => simpa using fun ha : t.Attachable p c => ha.cycle h
        · next h => exact iff_of_true rfl ⟨hp, hc, hroot, h⟩
    · rw [requireEntry_of_le (Nat.not_lt.mp hc)]
      change Except.error _ = _ ↔ _
      simpa using fun h : t.Attachable p c => hc h.child
  · rw [requireEntry_of_le (Nat.not_lt.mp hp)]
    change Except.error _ = _ ↔ _
    simpa using fun h : t.Attachable p c => hp h.owner

/-- The check of children passes exactly if they are distinct roots, and none of them has been
seen. -/
theorem checkAdoptable_eq_ok {seen cs : List NodeId} : t.checkAdoptable seen cs = .ok () ↔
    (∀ d ∈ cs, (d < t.size ∧ t.parent? d = none) ∧ d ∉ seen) ∧ cs.Nodup := by
  induction cs generalizing seen with
  | nil => simp [checkAdoptable]
  | cons c cs ih =>
    rw [checkAdoptable, List.forall_mem_cons, List.nodup_cons]
    by_cases hc : c < t.size
    · obtain ⟨ec, hec, -, hparent, -⟩ := requireEntry_of_lt hc
      rw [hec]
      simp only [bind, Except.bind]
      rw [← hparent]
      cases t.parent? c with
      | some owner => simp
      | none =>
        dsimp only
        by_cases hseen : c ∈ seen
        · simp [hseen]
        · rw [if_neg hseen, ih]
          simp only [List.mem_cons, not_or, hc, hseen, true_and, and_true, not_false_eq_true]
          -- A child that comes again has been seen when its turn comes.
          constructor
          · rintro ⟨hall, hnodup⟩
            exact ⟨fun d hd => ⟨(hall d hd).1, (hall d hd).2.2⟩,
              fun hmem => (hall c hmem).2.1 rfl, hnodup⟩
          · rintro ⟨hall, hnotMem, hnodup⟩
            exact ⟨fun d hd => ⟨(hall d hd).1, fun he => hnotMem (he ▸ hd), (hall d hd).2⟩, hnodup⟩
    · rw [requireEntry_of_le (Nat.not_lt.mp hc)]
      change Except.error _ = _ ↔ _
      simp [hc]

/-! ## Binding a key -/

/-- Unbinds a key of a declaration; the node bound to it becomes a root. -/
def vacate (t : Tree) (id : NodeId) (d : Declaration) (key : String) : Tree :=
  match d.property? key with
  | none => t
  | some previous => t.move id (.declaration (d.withProperty key none)) previous none

/-- Binds an unbound key of a declaration. -/
def occupy (t : Tree) (id : NodeId) (d : Declaration) (key : String) : Option NodeId → Tree
  | none => t
  | some value => t.move id (.declaration (d.withProperty key (some value))) value (some id)

section Key

variable {d : Declaration} {key : String} {value : Option NodeId}

/-- There is nothing to unbind where nothing is bound. -/
theorem vacate_of_none (hc : d.property? key = none) : t.vacate id d key = t := by
  rw [vacate, hc]

/-- Unbinding a key detaches what is bound to it. -/
theorem vacate_of_some (hc : d.property? key = some c) :
    t.vacate id d key = t.move id (.declaration (d.withProperty key none)) c none := by
  rw [vacate, hc]

/-- Vacating a slot leaves the number of nodes. -/
@[simp] theorem size_vacate : (t.vacate id d key).size = t.size := by
  unfold vacate
  split <;> simp

/-- Vacating a slot leaves the locations. -/
@[simp] theorem location?_vacate : (t.vacate id d key).location? = t.location? := by
  unfold vacate
  split <;> simp

/-- Occupying a slot leaves the locations. -/
@[simp] theorem location?_occupy : (t.occupy id d key value).location? = t.location? := by
  cases value <;> simp [occupy]

/-- Occupying a slot leaves the number of nodes. -/
@[simp] theorem size_occupy : (t.occupy id d key value).size = t.size := by
  cases value <;> simp [occupy]

/-- What is bound to a key of a declaration is owned by it. -/
theorem Sound.parent?_property? (h : t.Sound) (hid : t.node? id = some (.declaration d))
    (hkey : d.hasProperty key = true) (hc : d.property? key = some c) : t.parent? c = some id := by
  rw [← h.owner, children_of_node? hid]
  exact (Node.without_of_property? hkey hc).children.symm.subset List.mem_cons_self

/-- Unbinding a key keeps the tree sound. -/
theorem Sound.vacate (h : t.Sound) (hid : t.node? id = some (.declaration d))
    (hkey : d.hasProperty key = true) : (t.vacate id d key).Sound := by
  cases hc : d.property? key with
  | none => rwa [vacate_of_none hc]
  | some c =>
    rw [vacate_of_some hc]
    exact h.move_none hid (Node.without_of_property? hkey hc) (h.parent?_property? hid hkey hc)

/-- Unbinding a key refreshes the edges that it disturbs. -/
theorem Sound.updates_vacate (h : t.Sound) (hid : t.node? id = some (.declaration d))
    (hkey : d.hasProperty key = true) : t.Updates (t.vacate id d key) := by
  cases hc : d.property? key with
  | none =>
    rw [vacate_of_none hc]
    exact Updates.refl t
  | some c =>
    rw [vacate_of_some hc]
    exact h.updates_move_none hid (Node.without_of_property? hkey hc)
      (h.parent?_property? hid hkey hc)

/-- Where a key was unbound the declaration has nothing bound to it. -/
theorem node?_vacate (hid : t.node? id = some (.declaration d)) :
    (t.vacate id d key).node? id = some (.declaration (d.withProperty key none)) := by
  cases hc : d.property? key with
  | none =>
    have hd : d.withProperty key none = d := hc ▸ d.withProperty_property? key
    rwa [vacate_of_none hc, hd]
  | some c => rw [vacate_of_some hc, node?_move (lt_size_of_node? hid), if_pos rfl]

/-- Unbinding a key changes no target. -/
theorem target?_vacate (hid : t.node? id = some (.declaration d)) :
    (t.vacate id d key).target? = t.target? := by
  cases hc : d.property? key with
  | none => rw [vacate_of_none hc]
  | some c =>
    rw [vacate_of_some hc]
    exact target?_move hid rfl

/-- A root that can be attached to a declaration still can be once a key is unbound. -/
theorem Sound.attachable_vacate (h : t.Sound) (hid : t.node? id = some (.declaration d))
    (hkey : d.hasProperty key = true) (ha : t.Attachable id p) :
    (t.vacate id d key).Attachable id p := by
  cases hc : d.property? key with
  | none => rwa [vacate_of_none hc]
  | some c =>
    rw [vacate_of_some hc]
    have howner := h.parent?_property? hid hkey hc
    have hclt := lt_size_of_parent? howner
    -- Detaching brings nothing into the subtree of what is to be attached.
    have hs := h.relink_none hid (Node.without_of_property? hkey hc) howner
    refine ⟨by simpa using ha.owner, by simpa using ha.child, ?_, fun hwithin => ?_⟩
    · rw [parent?_move hclt, ha.root, ite_self]
    · rw [Within, move, ancestors_refreshSubtree] at hwithin
      exact ha.cycle (h.within_of_relink_none hs hclt hwithin)

/-- Binding an unbound key keeps the tree sound. -/
theorem Sound.occupy (h : t.Sound)
    (hid : t.node? id = some (.declaration (d.withProperty key none)))
    (hkey : d.hasProperty key = true) (ha : ∀ v, value = some v → t.Attachable id v) :
    (t.occupy id d key value).Sound := by
  cases value with
  | none => exact h
  | some v => exact h.move_some hid (Node.without_of_bound v hkey) (ha v rfl)

/-- Binding an unbound key refreshes the edges that it disturbs. -/
theorem Sound.updates_occupy (h : t.Sound)
    (hid : t.node? id = some (.declaration (d.withProperty key none)))
    (hkey : d.hasProperty key = true) (ha : ∀ v, value = some v → t.Attachable id v) :
    t.Updates (t.occupy id d key value) := by
  cases value with
  | none => exact Updates.refl t
  | some v => exact h.updates_move_some hid (Node.without_of_bound v hkey) (ha v rfl)

/-- Binding a key anew keeps the tree sound. -/
theorem Sound.rebind (h : t.Sound) (hid : t.node? id = some (.declaration d))
    (hkey : d.hasProperty key = true) (ha : ∀ v, value = some v → t.Attachable id v) :
    ((t.vacate id d key).occupy id d key value).Sound :=
  (h.vacate hid hkey).occupy (node?_vacate hid) hkey fun v hv =>
    h.attachable_vacate hid hkey (ha v hv)

/-- Binding a key anew refreshes the edges of the references in the subtree that is detached and in
the one that is attached. -/
theorem Sound.updates_rebind (h : t.Sound) (hid : t.node? id = some (.declaration d))
    (hkey : d.hasProperty key = true) (ha : ∀ v, value = some v → t.Attachable id v) :
    t.Updates ((t.vacate id d key).occupy id d key value) := by
  have hs := h.vacate hid hkey
  have ha' (v : NodeId) (hv : value = some v) : (t.vacate id d key).Attachable id v :=
    h.attachable_vacate hid hkey (ha v hv)
  refine Updates.trans h hs (h.rebind hid hkey ha) (h.updates_vacate hid hkey)
    (hs.updates_occupy (node?_vacate hid) hkey ha') (fun a _ hsame => ?_)
    (fun x _ _ => congrFun (target?_vacate hid) x)
  -- What was attached was a root before, so it is not what was detached.
  cases value with
  | none => exact hsame
  | some v =>
    rw [Tree.occupy, parent?_move (ha' v rfl).child] at hsame
    split at hsame
    · next hav =>
      rw [hav, (ha v rfl).root] at hsame
      simp at hsame
    · exact hsame

end Key

end Tree

/-! ## Operations -/

namespace TreeM

variable {t u : Tree} {id p c : NodeId} {n : Node} {l : Location}

/-- Asking a tree gives the answer, or the error, and leaves the tree. -/
theorem ask_apply {α : Type} (q : Tree → Except TreeError α) (t : Tree) :
    ask q t = match q t with
      | .ok a => .ok a t
      | .error e => .error e t := by
  change (match q t with
    | .ok a => (pure a : TreeM α)
    | .error e => throw e) t = _
  cases q t <;> rfl

/-- Asking succeeds where there is an answer. -/
theorem ask_eq_ok {α : Type} {q : Tree → Except TreeError α} {a : α} :
    ask q t = .ok a u ↔ q t = .ok a ∧ t = u := by
  rw [ask_apply]
  cases q t <;> simp

/-- Asking fails where the answer is an error. -/
theorem ask_eq_error {α : Type} {q : Tree → Except TreeError α} {e : TreeError} :
    ask q t = .error e u ↔ q t = .error e ∧ t = u := by
  rw [ask_apply]
  cases q t <;> simp

/-- An answer is what asking gives. -/
theorem ask_of_ok {α : Type} {q : Tree → Except TreeError α} {a : α} (h : q t = .ok a) :
    ask q t = .ok a t :=
  ask_eq_ok.mpr ⟨h, rfl⟩

/-- An error is what asking gives. -/
theorem ask_of_error {α : Type} {q : Tree → Except TreeError α} {e : TreeError}
    (h : q t = .error e) : ask q t = .error e t :=
  ask_eq_error.mpr ⟨h, rfl⟩

/-- Asking for the entry of a node gives its node and its owner. -/
theorem ask_requireEntry {n : Node} (h : t.node? id = some n) :
    ∃ e, ask (·.requireEntry id) t = .ok e t ∧ e.node = n ∧ t.parent? id = e.parent := by
  obtain ⟨e, he, hn, hp, -⟩ := Tree.requireEntry_of_lt (Tree.lt_size_of_node? h)
  rw [h, Option.some_inj] at hn
  exact ⟨e, ask_of_ok he, hn.symm, hp⟩

/-- Asking whether something can be attached passes if it can. -/
theorem ask_checkAttachable (h : t.Attachable p c) : ask (·.checkAttachable p c) t = .ok () t :=
  ask_of_ok (Tree.checkAttachable_eq_ok.mpr h)

/-- A node that exists can be given an owner. -/
theorem own_of_lt (hc : c < t.size) : own p c t = .ok () (t.own p c) := by
  obtain ⟨e, he, -⟩ := Tree.requireEntry_of_lt hc
  exact bind_of_ok (a := ⟨⟩) (discard_eq_ok.mpr ⟨e, ask_of_ok he⟩)

/-- A node that exists can be made a root. -/
theorem disown_of_lt (hc : c < t.size) : disown c t = .ok () (t.disown c) := by
  obtain ⟨e, he, -⟩ := Tree.requireEntry_of_lt hc
  exact bind_of_ok (a := ⟨⟩) (discard_eq_ok.mpr ⟨e, ask_of_ok he⟩)

/-- A target that is a declaration passes its check. -/
theorem discard_requireDeclaration (h : (t.kind? id).isSome = true) :
    (discard (ask (·.requireDeclaration id)) : TreeM PUnit) t = .ok ⟨⟩ t := by
  obtain ⟨declaration, hd⟩ := Tree.requireDeclaration_of_kind? h
  exact discard_eq_ok.mpr ⟨declaration, ask_of_ok hd⟩

/-! ### Creating -/

/-- A node that can be created over its children is added. -/
theorem add_of_adoptable (h : t.Adoptable n) :
    add n l t = .ok t.size ((t.append n l).refreshSubtree t.size) := by
  have hcheck : t.checkAdoptable [] n.children = .ok () :=
    Tree.checkAdoptable_eq_ok.mpr ⟨fun d hd => ⟨h.children d hd, List.not_mem_nil⟩, h.nodup⟩
  unfold add
  rw [bind_of_ok (ask_of_ok hcheck)]
  cases htarget : n.target with
  | none => rfl
  | some d =>
    exact bind_of_ok (discard_requireDeclaration (h.target d htarget))

/-- Any other node is refused. -/
theorem adoptable_or_error (t : Tree) (n : Node) (l : Location) :
    t.Adoptable n ∨ ∃ e, add n l t = .error e t := by
  unfold add
  cases hcheck : t.checkAdoptable [] n.children with
  | error e => exact Or.inr ⟨e, bind_of_error (ask_of_error hcheck)⟩
  | ok a =>
    rw [bind_of_ok (ask_of_ok hcheck)]
    obtain ⟨hchildren, hnodup⟩ := Tree.checkAdoptable_eq_ok.mp hcheck
    replace hchildren := fun d hd => (hchildren d hd).1
    cases htarget : n.target with
    | none => exact Or.inl ⟨hchildren, hnodup, by simp [htarget]⟩
    | some d =>
      cases hd : t.requireDeclaration d with
      | error e => exact Or.inr ⟨e, bind_of_error (discard_eq_error.mpr (ask_of_error hd))⟩
      | ok declaration =>
        have hkind := Tree.kind?_of_requireDeclaration hd
        exact Or.inl ⟨hchildren, hnodup, by simpa [htarget] using hkind⟩

/-! ### Attaching and detaching -/

/-- Something can be attached, or the check refuses it. -/
theorem attachable_or_error (t : Tree) (p c : NodeId) :
    t.Attachable p c ∨ ∃ e, ask (·.checkAttachable p c) t = .error e t := by
  cases hcheck : t.checkAttachable p c with
  | ok a => exact Or.inl (Tree.checkAttachable_eq_ok.mp hcheck)
  | error e => exact Or.inr ⟨e, ask_of_error hcheck⟩

/-- A node that is put in place can take over a node that exists. -/
theorem setNode_own (hc : c < t.size) :
    (do modify (·.setNode p n); own p c : TreeM Unit) t = .ok () ((t.setNode p n).own p c) :=
  (bind_of_ok (modify_apply _)).trans (own_of_lt (by simpa using hc))

/-- A node that is put in place can leave a node that exists behind. -/
theorem setNode_disown (hc : c < t.size) :
    (do modify (·.setNode p n); disown c : TreeM Unit) t = .ok () ((t.setNode p n).disown c) :=
  (bind_of_ok (modify_apply _)).trans (disown_of_lt (by simpa using hc))

section Rebind

variable {d : Declaration} {key : String} {value : Option NodeId}

/-- A key is bound anew by detaching what was bound to it and attaching the new value. -/
theorem rebind_of_attachable (h : t.Sound) (hid : t.node? id = some (.declaration d))
    (hkey : d.hasProperty key = true) (ha : ∀ v, value = some v → t.Attachable id v) :
    rebind id d key value t
      = .ok (d.property? key) ((t.vacate id d key).occupy id d key value) := by
  -- What was bound to the key exists, since the declaration owns it.
  have hprevious {c : NodeId} (hc : d.property? key = some c) : c < t.size :=
    Tree.lt_size_of_parent? (h.parent?_property? hid hkey hc)
  unfold rebind
  refine (bind_of_ok (modify_apply _)).trans ?_
  cases hc : d.property? key with
  | none =>
    rw [Tree.vacate_of_none hc]
    cases value with
    | none =>
      have hd : d.withProperty key none = d := hc ▸ d.withProperty_property? key
      -- The declaration is put in place as it was.
      have hsame : t.setNode id (.declaration (d.withProperty key none)) = t :=
        Tree.setNode_of_node? (hd.symm ▸ hid)
      rw [hsame]
      rfl
    | some v => exact bind_of_ok (own_of_lt (by simpa using (ha v rfl).child))
  | some c =>
    rw [Tree.vacate_of_some hc]
    refine (bind_of_ok (disown_of_lt (by simpa using hprevious hc))).trans ?_
    cases value with
    | none => rfl
    | some v =>
      -- The operation names the new value before it detaches the old one.
      have hmove := h.setNode_move_none hid (Node.without_of_property? hkey hc)
        (h.parent?_property? hid hkey hc) (m := .declaration (d.withProperty key (some v))) rfl rfl
      rw [Tree.occupy, Tree.move, Tree.relink, hmove]
      exact bind_of_ok (own_of_lt (by simpa [Tree.disown] using (ha v rfl).child))

/-- A key is bound anew where the value can be attached. -/
theorem setProperty_of_attachable (h : t.Sound) (hid : t.node? id = some (.declaration d))
    (hkey : d.hasProperty key = true) (ha : ∀ v, value = some v → t.Attachable id v) :
    setProperty id key value t
      = .ok (d.property? key) ((t.vacate id d key).occupy id d key value) := by
  unfold setProperty
  rw [bind_of_ok (ask_of_ok (Tree.requireDeclaration_eq_ok.mpr hid)),
    ← rebind_of_attachable h hid hkey ha]
  cases value with
  | none =>
    simp only [hkey]
    rfl
  | some v =>
    refine (bind_of_ok (ask_checkAttachable (ha v rfl))).trans ?_
    simp only [hkey]
    rfl

end Rebind

/-- A key is bound if it is one of a declaration and its value can be attached; any other call is
refused. -/
theorem setProperty_cases (t : Tree) (id : NodeId) (key : String) (value : Option NodeId) :
    (∃ d, t.node? id = some (.declaration d) ∧ d.hasProperty key = true ∧
      ∀ v, value = some v → t.Attachable id v) ∨
      ∃ e, setProperty id key value t = .error e t := by
  unfold setProperty
  cases hid : t.requireDeclaration id with
  | error e => exact Or.inr ⟨e, bind_of_error (ask_of_error hid)⟩
  | ok d =>
    rw [bind_of_ok (ask_of_ok hid)]
    replace hid := Tree.requireDeclaration_eq_ok.mp hid
    cases value with
    | none =>
      by_cases hkey : d.hasProperty key = true
      · exact Or.inl ⟨d, hid, hkey, by simp⟩
      · refine Or.inr ⟨.unknownProperty d.kind key, ?_⟩
        simp only [hkey]
        rfl
    | some v =>
      rcases attachable_or_error t id v with ha | ⟨e, he⟩
      · by_cases hkey : d.hasProperty key = true
        · exact Or.inl ⟨d, hid, hkey, by simpa using ha⟩
        · refine Or.inr ⟨.unknownProperty d.kind key, ?_⟩
          refine (bind_of_ok (ask_checkAttachable ha)).trans ?_
          simp only [hkey]
          rfl
      · exact Or.inr ⟨e, bind_of_error he⟩

/-- A root is appended to a list or collection by attaching it. -/
theorem pushChild_of_attachable (ha : t.Attachable p c) {n n' : Node} (hp : t.node? p = some n)
    (hpush : n.push? c = some n') : pushChild p c t = .ok () (t.move p n' c (some p)) := by
  obtain ⟨e, he, hn, -⟩ := ask_requireEntry hp
  unfold pushChild
  rw [bind_of_ok (ask_checkAttachable ha), bind_of_ok he, hn]
  unfold Node.push? at hpush
  split at hpush
  · cases hpush
    exact setNode_own ha.child
  · cases hpush
    exact setNode_own ha.child
  · simp at hpush

/-- A child is appended if it can be attached to a list or collection; any other call is refused. -/
theorem pushChild_cases (t : Tree) (p c : NodeId) :
    (t.Attachable p c ∧ ∃ n n', t.node? p = some n ∧ n.push? c = some n') ∨
      ∃ e, pushChild p c t = .error e t := by
  unfold pushChild
  rcases attachable_or_error t p c with ha | ⟨e, he⟩
  · obtain ⟨n, hp⟩ := Tree.node?_eq_some_iff_lt.mpr ha.owner
    obtain ⟨e, he, hn, -⟩ := ask_requireEntry hp
    rw [bind_of_ok (ask_checkAttachable ha), bind_of_ok he, hn]
    cases hpush : n.push? c with
    | some n' => exact Or.inl ⟨ha, n, n', hp, hpush⟩
    | none =>
      refine Or.inr ⟨.unexpectedNode p "List or Collection" n.kindName, ?_⟩
      cases n with
      | declaration d => rfl
      | expression e =>
        cases e with
        | list items => simp [Node.push?] at hpush
        | literal l | object es | call f | condition c => rfl
      | collection items => simp [Node.push?] at hpush
  · exact Or.inr ⟨e, bind_of_error he⟩

/-- A root is added to an object under a new key by attaching it. -/
theorem insertEntry_of_attachable {k : Key} {es : Entries} (ha : t.Attachable p c)
    (hp : t.node? p = some (.expression (.object es))) (hk : es.contains k.text = false) :
    insertEntry p k c t
      = .ok true (t.move p (.expression (.object (es ++ [(k, c)]))) c (some p)) := by
  obtain ⟨e, he, hn, -⟩ := ask_requireEntry hp
  unfold insertEntry
  rw [bind_of_ok (ask_checkAttachable ha), bind_of_ok he, hn]
  simp only [hk]
  refine (bind_of_ok (modify_apply _)).trans ?_
  exact bind_of_ok (own_of_lt (by simpa using ha.child))

/-- Nothing is added to an object under a key that it has. -/
theorem insertEntry_of_contains {k : Key} {es : Entries} (ha : t.Attachable p c)
    (hp : t.node? p = some (.expression (.object es))) (hk : es.contains k.text = true) :
    insertEntry p k c t = .ok false t := by
  obtain ⟨e, he, hn, -⟩ := ask_requireEntry hp
  unfold insertEntry
  rw [bind_of_ok (ask_checkAttachable ha), bind_of_ok he, hn]
  simp only [hk]
  rfl

/-- An entry is inserted if its value can be attached to an object; any other call is refused. -/
theorem insertEntry_cases (t : Tree) (p : NodeId) (k : Key) (c : NodeId) :
    (t.Attachable p c ∧ ∃ es, t.node? p = some (.expression (.object es))) ∨
      ∃ e, insertEntry p k c t = .error e t := by
  unfold insertEntry
  rcases attachable_or_error t p c with ha | ⟨e, he⟩
  · obtain ⟨n, hp⟩ := Tree.node?_eq_some_iff_lt.mpr ha.owner
    obtain ⟨e, he, hn, -⟩ := ask_requireEntry hp
    rw [bind_of_ok (ask_checkAttachable ha), bind_of_ok he, hn]
    by_cases hobject : ∃ es, n = .expression (.object es)
    · obtain ⟨es, rfl⟩ := hobject
      exact Or.inl ⟨ha, es, hp⟩
    · refine Or.inr ⟨.unexpectedNode p "Object" n.kindName, ?_⟩
      split
      · next es => exact (hobject ⟨es, rfl⟩).elim
      · rfl
  · exact Or.inr ⟨e, bind_of_error he⟩

/-- What is done about a child depends on what its owner says about it. -/
theorem detach_apply {n : Node} (hc : t.parent? c = some p) (hp : t.node? p = some n) :
    detach c t = (match n.remove c with
      | .removed rest => do
        modify (·.setNode p rest)
        disown c
      | .required => throw (.requiredChild c p)
      | .notFound => throw (.notAChild c p) : TreeM Unit) t := by
  obtain ⟨m, hm⟩ := Tree.node?_eq_some_iff_lt.mpr (Tree.lt_size_of_parent? hc)
  obtain ⟨ec, hec, -, hparent⟩ := ask_requireEntry hm
  obtain ⟨ep, hep, rfl, -⟩ := ask_requireEntry hp
  unfold detach
  rw [bind_of_ok hec, ← hparent, hc]
  refine (bind_of_ok hep).trans ?_
  cases ep.node.remove c <;> rfl

/-- A child that its owner can do without is detached. -/
theorem detach_of_removed {n n' : Node} (hc : t.parent? c = some p) (hp : t.node? p = some n)
    (hremove : n.remove c = .removed n') : detach c t = .ok () (t.move p n' c none) := by
  rw [detach_apply hc hp, hremove]
  exact setNode_disown (Tree.lt_size_of_parent? hc)

/-- Any other child stays, for its owner cannot do without it, and a root stays as well. In a sound
tree an owner names the child. -/
theorem detach_cases (h : t.Sound) (c : NodeId) :
    (∃ p n n', t.parent? c = some p ∧ t.node? p = some n ∧ n.remove c = .removed n') ∨
      (c < t.size ∧ t.parent? c = none ∧ detach c t = .ok () t) ∨
      (t.size ≤ c ∧ detach c t = .error (.unknownNode c) t) ∨
      ∃ p, t.parent? c = some p ∧ detach c t = .error (.requiredChild c p) t := by
  by_cases hlt : c < t.size
  · obtain ⟨m, hm⟩ := Tree.node?_eq_some_iff_lt.mpr hlt
    obtain ⟨ec, hec, -, hparent⟩ := ask_requireEntry hm
    cases hc : t.parent? c with
    | none =>
      refine Or.inr (Or.inl ⟨hlt, rfl, ?_⟩)
      unfold detach
      rw [bind_of_ok hec, ← hparent, hc]
      rfl
    | some p =>
      obtain ⟨n, hp⟩ := Tree.node?_eq_some_iff_lt.mpr (h.lt_size_of_owner hc)
      cases hremove : n.remove c with
      | removed n' => exact Or.inl ⟨p, n, n', rfl, hp, hremove⟩
      | required =>
        refine Or.inr (Or.inr (Or.inr ⟨p, rfl, ?_⟩))
        rw [detach_apply hc hp, hremove]
        rfl
      | notFound =>
        -- Both records of ownership agree, so the owner does name the child.
        have hmem : c ∈ n.children := Tree.children_of_node? hp ▸ h.owner.mpr hc
        exact (Node.notMem_children_of_remove hremove hmem).elim
  · refine Or.inr (Or.inr (Or.inl ⟨Nat.not_lt.mp hlt, bind_of_error (ask_of_error ?_)⟩))
    exact Tree.requireEntry_of_le (Nat.not_lt.mp hlt)

/-! ### Binding references -/

/-- What is left to do once the reference and its target are known to exist. -/
theorem setReference_apply {target : Option NodeId} (hid : t.node? id = some n)
    (htarget : ∀ d, target = some d → (t.kind? d).isSome = true) :
    setReference id target t
      = if n.isReference = true then
          if n.target = target then .ok () t else .ok () (t.retarget id n target)
        else .error (.notReferenceBearing id) t := by
  obtain ⟨e, he, hn, -⟩ := ask_requireEntry hid
  have hrest : setReference id target t = (do
      unless n.isReference do
        throw (.notReferenceBearing id)
      unless n.target = target do
        modify (·.setNode id (n.withTarget target))
        modify (·.setBound id target.isSome)
        modify (·.refreshReference id) : TreeM PUnit) t := by
    unfold setReference
    cases target with
    | none =>
      refine (bind_of_ok he).trans ?_
      rw [hn]
    | some d =>
      have hcheck := discard_requireDeclaration (htarget d rfl)
      refine (bind_of_ok hcheck).trans ((bind_of_ok he).trans ?_)
      rw [hn]
  rw [hrest]
  by_cases href : n.isReference = true
  · by_cases hsame : n.target = target
    · simp only [href, hsame]
      rfl
    · simp only [href, hsame]
      rfl
  · simp only [href]
    rfl

/-- A reference that is bound to another target than before is bound anew; any other call changes
nothing. -/
theorem setReference_cases (t : Tree) (id : NodeId) (target : Option NodeId) :
    (∃ n, t.node? id = some n ∧ n.isReference = true ∧ n.target ≠ target ∧
      (∀ d, target = some d → (t.kind? d).isSome = true) ∧
      setReference id target t = .ok () (t.retarget id n target)) ∨
      setReference id target t = .ok () t ∨ ∃ e, setReference id target t = .error e t := by
  by_cases htarget : ∀ d, target = some d → (t.kind? d).isSome = true
  · by_cases hlt : id < t.size
    · obtain ⟨n, hid⟩ := Tree.node?_eq_some_iff_lt.mpr hlt
      have happly := setReference_apply hid htarget
      split at happly
      · next href =>
        split at happly
        · exact Or.inr (Or.inl happly)
        · next hne => exact Or.inl ⟨n, hid, href, hne, htarget, happly⟩
      · exact Or.inr (Or.inr ⟨_, happly⟩)
    · refine Or.inr (Or.inr ⟨.unknownNode id, ?_⟩)
      have he : ask (·.requireEntry id) t = .error (.unknownNode id) t :=
        ask_of_error (Tree.requireEntry_of_le (Nat.not_lt.mp hlt))
      unfold setReference
      cases target with
      | none => exact bind_of_error he
      | some d =>
        have hcheck := discard_requireDeclaration (htarget d rfl)
        exact (bind_of_ok hcheck).trans (bind_of_error he)
  · push Not at htarget
    obtain ⟨d, rfl, hkind⟩ := htarget
    cases hd : t.requireDeclaration d with
    | ok declaration => exact (hkind (Tree.kind?_of_requireDeclaration hd)).elim
    | error e =>
      refine Or.inr (Or.inr ⟨e, ?_⟩)
      unfold setReference
      exact bind_of_error (discard_eq_error.mpr (ask_of_error hd))

end TreeM

end InfraModule
