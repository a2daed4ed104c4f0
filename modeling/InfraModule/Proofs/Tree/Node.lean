import InfraModule.Tree.Node
import Mathlib.Data.List.Perm.Basic

/-!
# Children of a node

How each change of a single node acts on the list of its children. Taking a child out, binding a
property, or appending to a list or object leaves the other children and the target of the node as
they were, and so does a change of the target for the children. Orders matter to readers of a tree
but not to ownership, so most statements here are permutations of child lists.
-/

namespace InfraModule

/-! ## Slots of a declaration -/

namespace Slot

/-- A filled slot that is emptied loses its node and nothing else. -/
theorem filterMap_value_release {child : NodeId} {slots : List Slot}
    (h : child ∈ slots.filterMap Slot.value) :
    (slots.filterMap Slot.value).Perm (child :: (release child slots).filterMap Slot.value) := by
  induction slots with
  | nil => simp at h
  | cons slot slots ih =>
    unfold release
    split
    · -- This slot holds the child, and no later one is looked at.
      next hv => simp [hv]
    · next hv =>
      cases hs : slot.value with
      | none =>
        rw [List.filterMap_cons_none hs] at h
        simpa [hs] using ih h
      | some id =>
        have hne : id ≠ child := fun he => hv (he ▸ hs)
        rw [List.filterMap_cons_some hs, List.mem_cons] at h
        have hperm := ih (h.resolve_left hne.symm)
        rw [List.filterMap_cons_some hs, List.filterMap_cons_some hs]
        exact (hperm.cons id).trans (List.Perm.swap child id _)

/-- Slots refilled with as many nodes as they held hold just these, in order. -/
theorem filterMap_value_refill {slots : List Slot} {ids : List NodeId}
    (h : ids.length = (slots.filterMap Slot.value).length) :
    (refill slots ids).filterMap Slot.value = ids := by
  fun_induction refill slots ids with
  | case1 slot slots id ids old hv ih =>
    rw [List.filterMap_cons_some hv] at h
    have hhead : ({ slot with value := some id } : Slot).value = some id := rfl
    rw [List.filterMap_cons_some hhead, ih (by simpa using h)]
  | case2 slot slots id ids hv ih =>
    rw [List.filterMap_cons_none hv] at h
    rw [List.filterMap_cons_none hv, ih h]
  | case3 slots => exact List.eq_nil_of_length_eq_zero h.symm
  | case4 ids hids => simpa using h

/-- Binding a key that no slot has changes nothing. -/
theorem bind_of_notMem {key : String} {slots : List Slot} (value : Option NodeId)
    (h : key ∉ slots.map Slot.key) : bind key value slots = slots := by
  refine (List.map_congr_left fun slot hslot => ?_).trans (List.map_id slots)
  have : slot.key ≠ key := fun he => h (List.mem_map.mpr ⟨slot, hslot, he⟩)
  simp [this]

/-- The nodes in the slots after a key is bound: the new one, if any, and those of other keys. -/
theorem filterMap_value_bind {key : String} {slots : List Slot} (value : Option NodeId)
    (hkey : key ∈ slots.map Slot.key) (hnodup : (slots.map Slot.key).Nodup) :
    ((bind key value slots).filterMap Slot.value).Perm
      (value.toList ++ (bind key none slots).filterMap Slot.value) := by
  induction slots with
  | nil => simp at hkey
  | cons slot slots ih =>
    rw [List.map_cons, List.nodup_cons] at hnodup
    by_cases h : slot.key = key
    · -- No later slot has the key.
      have hrest (v : Option NodeId) : bind key v slots = slots :=
        bind_of_notMem v (h ▸ hnodup.1)
      have hcons (v : Option NodeId) : bind key v (slot :: slots) = ⟨key, v⟩ :: slots := by
        calc bind key v (slot :: slots) = ⟨slot.key, v⟩ :: bind key v slots := by simp [bind, h]
          _ = ⟨key, v⟩ :: slots := by rw [hrest, h]
      rw [hcons, hcons]
      cases value <;> simp
    · have hcons (v : Option NodeId) :
          bind key v (slot :: slots) = slot :: bind key v slots := by
        simp [bind, h]
      have hperm := ih (by simpa [Ne.symm h] using hkey) hnodup.2
      rw [hcons, hcons]
      cases hs : slot.value with
      | none =>
        rw [List.filterMap_cons_none hs, List.filterMap_cons_none hs]
        exact hperm
      | some id =>
        rw [List.filterMap_cons_some hs, List.filterMap_cons_some hs]
        exact (hperm.cons id).trans List.perm_middle.symm

/-- Binding a key to the node that it has changes nothing. -/
theorem bind_find? {key : String} {slots : List Slot} (hnodup : (slots.map Slot.key).Nodup) :
    bind key ((slots.find? (·.key == key)).bind Slot.value) slots = slots := by
  induction slots with
  | nil => rfl
  | cons slot slots ih =>
    rw [List.map_cons, List.nodup_cons] at hnodup
    by_cases h : slot.key = key
    · have hrest : bind key slot.value slots = slots := bind_of_notMem _ (h ▸ hnodup.1)
      have hfind : (slot :: slots).find? (·.key == key) = some slot := by simp [h]
      calc bind key (((slot :: slots).find? (·.key == key)).bind Slot.value) (slot :: slots)
          = slot :: bind key slot.value slots := by rw [hfind]; simp [bind, ← h]
        _ = slot :: slots := by rw [hrest]
    · have hfind : (slot :: slots).find? (·.key == key) = slots.find? (·.key == key) := by
        simp [h]
      calc bind key (((slot :: slots).find? (·.key == key)).bind Slot.value) (slot :: slots)
          = slot :: bind key ((slots.find? (·.key == key)).bind Slot.value) slots := by
            rw [hfind]; simp [bind, h]
        _ = slot :: slots := by rw [ih hnodup.2]

end Slot

/-- No kind has one key twice. -/
theorem Kind.nodup_propertyKeys (k : Kind) : k.propertyKeys.Nodup := by
  cases k <;> decide

/-! ## Declarations -/

namespace Declaration

/-- Declarations with the same kind, keyword and slots are the same. -/
@[ext] theorem ext' {d e : Declaration} (hkind : d.kind = e.kind) (hkeyword : d.keyword = e.keyword)
    (hslots : d.slots = e.slots) : d = e := by
  cases d
  cases e
  simp_all

/-- No two slots of a declaration have one key. -/
theorem nodup_keys (d : Declaration) : (d.slots.map Slot.key).Nodup := by
  rw [d.slots_keys]
  exact d.kind.nodup_propertyKeys

/-- Binding a key to the node that it has changes nothing. -/
@[simp] theorem withProperty_property? (d : Declaration) (key : String) :
    d.withProperty key (d.property? key) = d := by
  apply ext'
  · rfl
  · rfl
  · exact Slot.bind_find? d.nodup_keys

/-- Binding a key adds the new node to the children of the declaration with the key unbound. -/
theorem children_withProperty {d : Declaration} {key : String} (value : Option NodeId)
    (h : d.hasProperty key = true) :
    (d.withProperty key value).children.Perm
      (value.toList ++ (d.withProperty key none).children) := by
  have hkey : key ∈ d.slots.map Slot.key := by
    rw [d.slots_keys]
    exact d.hasProperty_iff key |>.mp h
  have hslots := Slot.filterMap_value_bind value hkey d.nodup_keys
  simp only [children, withProperty]
  refine (hslots.append_left d.keyword.toList).trans ?_
  rw [← List.append_assoc, ← List.append_assoc]
  exact List.perm_append_comm.append_right _

/-- Unbinding a key takes the node bound to it out of the children. -/
theorem children_withProperty_none {d : Declaration} {key : String}
    (h : d.hasProperty key = true) :
    d.children.Perm ((d.property? key).toList ++ (d.withProperty key none).children) := by
  have := children_withProperty (d.property? key) h
  rwa [withProperty_property?] at this

/-- A declaration whose children are replaced by as many others has these, in order. -/
theorem children_withChildren {d : Declaration} {ids : List NodeId}
    (h : ids.length = d.children.length) : (d.withChildren ids).children = ids := by
  obtain ⟨kind, keyword, slots, hsome, hkeys⟩ := d
  cases keyword with
  | none =>
    have hslots : (Slot.refill slots ids).filterMap Slot.value = ids :=
      Slot.filterMap_value_refill (by simpa [children] using h)
    simp [withChildren, children, hslots]
  | some keyword =>
    cases ids with
    | nil => simp [children] at h
    | cons id ids =>
      have hslots : (Slot.refill slots ids).filterMap Slot.value = ids :=
        Slot.filterMap_value_refill (by simpa [children] using h)
      simp [withChildren, children, hslots]

end Declaration

/-! ## Calls and conditions -/

namespace Call

/-- A target is no operand. -/
@[simp] theorem operands_withTarget (f : Call) (target : Option NodeId) :
    (f.withTarget target).operands = f.operands := by
  cases f <;> rfl

/-- A call that refers to something takes any target. -/
theorem target_withTarget {f : Call} (h : f.isReference = true) (target : Option NodeId) :
    (f.withTarget target).target = target := by
  cases f <;> first | rfl | simp [isReference] at h

/-- A call whose operands are replaced by as many others is the call of these. -/
theorem ofOperands?_withOperands {f : Call} {ids : List NodeId}
    (h : ids.length = f.operands.length) :
    ofOperands? f.name ids f.target = some (f.withOperands ids) ∧
      (f.withOperands ids).operands = ids ∧ (f.withOperands ids).target = f.target ∧
      (f.withOperands ids).name = f.name := by
  cases f with
  -- Only the parameters of a substitution may be left out.
  | sub format parameters =>
    match parameters, ids with
    | none, [a] => exact ⟨rfl, rfl, rfl, rfl⟩
    | some _, [a, b] => exact ⟨rfl, rfl, rfl, rfl⟩
    | none, [] | none, _ :: _ :: _ | some _, [] | some _, [_] | some _, _ :: _ :: _ :: _ =>
      simp [operands] at h
  | _ =>
    match ids with
    | [] | [_] | [_, _] | [_, _, _] | _ :: _ :: _ :: _ :: _ =>
      first | exact ⟨rfl, rfl, rfl, rfl⟩ | simp [operands] at h

/-- The operand taken out of a call is the only change of its operands. -/
theorem operands_remove {f rest : Call} {child : NodeId} (h : f.remove child = .removed rest) :
    f.operands.Perm (child :: rest.operands) ∧ rest.target = f.target := by
  -- Only the parameters of a substitution can be taken out.
  have hrequired (hr : f.remove child = if child ∈ f.operands then .required else .notFound) :
      False := by
    rw [hr] at h
    split at h <;> simp at h
  cases f with
  | sub format parameters =>
    cases parameters with
    | none => exact (hrequired rfl).elim
    | some parameters =>
      simp only [remove] at h
      split at h
      · next he =>
        cases h
        subst he
        exact ⟨List.Perm.swap _ _ _, rfl⟩
      · split at h <;> simp at h
  | _ => exact (hrequired rfl).elim

/-- A call that does not find an operand does not have it. -/
theorem notMem_operands_of_remove {f : Call} {child : NodeId} (h : f.remove child = .notFound) :
    child ∉ f.operands := by
  have hother (hr : f.remove child = if child ∈ f.operands then .required else .notFound) :
      child ∉ f.operands := by
    rw [hr] at h
    split at h
    · simp at h
    · assumption
  cases f with
  | sub format parameters =>
    cases parameters with
    | none => exact hother rfl
    | some parameters =>
      simp only [remove] at h
      split at h
      · simp at h
      · split at h
        · simp at h
        · next hp hf => simpa [operands] using ⟨Ne.symm hf, Ne.symm hp⟩
  | _ => exact hother rfl

end Call

namespace Condition

/-- A target is no operand. -/
@[simp] theorem operands_withTarget (c : Condition) (target : Option NodeId) :
    (c.withTarget target).operands = c.operands := by
  cases c <;> rfl

/-- A condition that refers to something takes any target. -/
theorem target_withTarget {c : Condition} (h : c.isReference = true) (target : Option NodeId) :
    (c.withTarget target).target = target := by
  cases c <;> first | rfl | simp [isReference] at h

/-- A condition whose operands are replaced by as many others has these, in order. -/
theorem ofOperands?_withOperands {c : Condition} {ids : List NodeId}
    (h : ids.length = c.operands.length) :
    ofOperands? c.name ids c.target = some (c.withOperands ids) ∧
      (c.withOperands ids).operands = ids ∧ (c.withOperands ids).target = c.target ∧
      (c.withOperands ids).name = c.name := by
  cases c with
  | _ =>
    match ids with
    | [] | [_] | [_, _] | _ :: _ :: _ :: _ =>
      first | exact ⟨rfl, rfl, rfl, rfl⟩ | simp [operands] at h

/-- No operand can be taken out of a condition. -/
theorem remove_ne_removed (c rest : Condition) (child : NodeId) :
    c.remove child ≠ .removed rest := by
  unfold remove
  split <;> simp

/-- A condition that does not find an operand does not have it. -/
theorem notMem_operands_of_remove {c : Condition} {child : NodeId}
    (h : c.remove child = .notFound) : child ∉ c.operands := by
  unfold remove at h
  split at h
  · simp at h
  · assumption

end Condition

/-! ## Nodes -/

namespace Removal

variable {α β : Type} {f : α → β}

/-- Something is left after a removal and a change exactly if it is the change of what the removal
left. -/
theorem map_eq_removed {r : Removal α} {rest : β} :
    r.map f = .removed rest ↔ ∃ a, r = .removed a ∧ f a = rest := by
  cases r <;> simp [map]

/-- A change of what is left does not matter where nothing was found. -/
theorem map_eq_notFound {r : Removal α} : r.map f = .notFound ↔ r = .notFound := by
  cases r <;> simp [map]

end Removal

namespace Node

/-- A target is no child. -/
@[simp] theorem children_withTarget (n : Node) (target : Option NodeId) :
    (n.withTarget target).children = n.children := by
  match n with
  | .expression (.call f) => simp [withTarget, Expression.withTarget, children, Expression.children]
  | .expression (.condition c) =>
    simp [withTarget, Expression.withTarget, children, Expression.children]
  | .expression (.literal _) | .expression (.list _) | .expression (.object _)
  | .declaration _ | .collection _ => rfl

/-- A reference bound anew has the target that it was bound to. -/
theorem target_withTarget {n : Node} (h : n.isReference = true) (target : Option NodeId) :
    (n.withTarget target).target = target := by
  match n with
  | .expression (.call f) => exact Call.target_withTarget h target
  | .expression (.condition c) => exact Condition.target_withTarget h target

/-- A node whose children are replaced by as many others has these, in order; what it refers to
and declares is the same. -/
theorem children_withChildren {n : Node} {ids : List NodeId}
    (h : ids.length = n.children.length) : (n.withChildren ids).children = ids := by
  match n with
  | .declaration d => exact Declaration.children_withChildren h
  | .collection items => rfl
  | .expression (.literal l) => exact (List.eq_nil_of_length_eq_zero h).symm
  | .expression (.list items) => rfl
  | .expression (.object entries) =>
    have hle : ids.length ≤ entries.length := by
      simp only [children, Expression.children, List.length_map] at h
      omega
    calc (List.zipWith (fun entry id => (entry.1, id)) entries ids).map Prod.snd
        = (entries.zip ids).map Prod.snd := by simp [List.zip, List.map_zipWith]
      _ = ids := List.map_snd_zip hle
  | .expression (.call f) => exact (Call.ofOperands?_withOperands h).2.1
  | .expression (.condition c) => exact (Condition.ofOperands?_withOperands h).2.1

/-- Other children in the same places leave the target as it was. -/
theorem target_withChildren {n : Node} {ids : List NodeId}
    (h : ids.length = n.children.length) : (n.withChildren ids).target = n.target := by
  match n with
  | .expression (.call f) => exact (Call.ofOperands?_withOperands h).2.2.1
  | .expression (.condition c) => exact (Condition.ofOperands?_withOperands h).2.2.1
  | .expression (.literal _) | .expression (.list _) | .expression (.object _)
  | .declaration _ | .collection _ => rfl

/-- The kind of declaration that a node is, if it is one. -/
def kind? (n : Node) : Option Kind :=
  n.declaration?.map Declaration.kind

/-- Whether a node is an item is known from its kind. -/
theorem isItem_eq (n : Node) : n.isItem = (n.kind?.map Kind.isItem).getD false := by
  cases n <;> rfl

/-- Binding a reference leaves the kind of its node. -/
@[simp] theorem kind?_withTarget (n : Node) (target : Option NodeId) :
    (n.withTarget target).kind? = n.kind? := by
  cases n <;> rfl

/-- What remains of a node from which a child was taken: the other children, with the same target
and the same kind of declaration. -/
structure Without (n : Node) (child : NodeId) (rest : Node) : Prop where
  /-- The child is the only one that is gone. -/
  children : n.children.Perm (child :: rest.children)
  /-- The target is the same. -/
  target : rest.target = n.target
  /-- The kind of declaration is the same. -/
  kind : rest.kind? = n.kind?

/-- Taking a child out of a node leaves the node without it. -/
theorem without_of_remove {n rest : Node} {child : NodeId} (h : n.remove child = .removed rest) :
    n.Without child rest := by
  match n with
  | .declaration d =>
    obtain ⟨d', hd, rfl⟩ := Removal.map_eq_removed.mp h
    simp only [Declaration.remove] at hd
    split at hd
    · simp at hd
    · split at hd
      · next hmem =>
        cases hd
        refine ⟨?_, rfl, rfl⟩
        have hperm := (Slot.filterMap_value_release hmem).append_left d.keyword.toList
        exact hperm.trans List.perm_middle
      · simp at hd
  | .collection items =>
    simp only [remove] at h
    split at h
    · next hmem => cases h; exact ⟨List.perm_cons_erase hmem, rfl, rfl⟩
    · simp at h
  | .expression (.literal l) => simp [remove, Expression.remove, Removal.map] at h
  | .expression (.list items) =>
    simp only [remove, Expression.remove] at h
    split at h
    · next hmem => cases h; exact ⟨List.perm_cons_erase hmem, rfl, rfl⟩
    · simp [Removal.map] at h
  | .expression (.object entries) =>
    simp only [remove, Expression.remove] at h
    split at h
    · next hmem =>
      cases h
      -- The first entry with the child is erased, under whatever key.
      have herase : (entries.eraseP (·.2 == child)).map Prod.snd
          = (entries.map Prod.snd).erase child := by
        rw [List.erase_eq_eraseP', List.eraseP_map]
        rfl
      refine ⟨?_, rfl, rfl⟩
      simp only [Node.children, Expression.children, herase]
      exact List.perm_cons_erase hmem
    · simp [Removal.map] at h
  | .expression (.call f) =>
    simp only [remove, Expression.remove, Removal.map_eq_removed] at h
    obtain ⟨e, ⟨f', hf, rfl⟩, rfl⟩ := h
    obtain ⟨hperm, htarget⟩ := Call.operands_remove hf
    exact ⟨hperm, htarget, rfl⟩
  | .expression (.condition c) =>
    simp only [remove, Expression.remove, Removal.map_eq_removed] at h
    obtain ⟨e, ⟨c', hc, rfl⟩, rfl⟩ := h
    exact (Condition.remove_ne_removed c c' child hc).elim

/-- A node that does not find a child does not have it. -/
theorem notMem_children_of_remove {n : Node} {child : NodeId} (h : n.remove child = .notFound) :
    child ∉ n.children := by
  match n with
  | .declaration d =>
    simp only [remove, Removal.map_eq_notFound, Declaration.remove] at h
    split at h
    · simp at h
    · next hkeyword =>
      split at h
      · simp at h
      · next hslots => simp [children, Declaration.children, hkeyword, hslots]
  | .collection items =>
    simp only [remove] at h
    split at h
    · simp at h
    · assumption
  | .expression (.literal l) => simp [children, Expression.children]
  | .expression (.list items) =>
    simp only [remove, Removal.map_eq_notFound, Expression.remove] at h
    split at h
    · simp at h
    · assumption
  | .expression (.object entries) =>
    simp only [remove, Removal.map_eq_notFound, Expression.remove] at h
    split at h
    · simp at h
    · assumption
  | .expression (.call f) =>
    simp only [remove, Removal.map_eq_notFound, Expression.remove] at h
    exact Call.notMem_operands_of_remove h
  | .expression (.condition c) =>
    simp only [remove, Removal.map_eq_notFound, Expression.remove] at h
    exact Condition.notMem_operands_of_remove h

/-- The list or collection with one more child at its end. -/
def push? (n : Node) (child : NodeId) : Option Node :=
  match n with
  | .expression (.list items) => some (.expression (.list (items ++ [child])))
  | .collection items => some (.collection (items ++ [child]))
  | _ => none

/-- What was appended can be taken out again. -/
theorem without_of_push? {n n' : Node} {child : NodeId} (h : n.push? child = some n') :
    n'.Without child n := by
  unfold push? at h
  split at h
  · next items =>
    cases h
    exact ⟨List.perm_append_singleton child items, rfl, rfl⟩
  · next items =>
    cases h
    exact ⟨List.perm_append_singleton child items, rfl, rfl⟩
  · simp at h

/-- An object without its last entry. -/
theorem without_entry (entries : Entries) (key : Key) (child : NodeId) :
    (expression (.object (entries ++ [(key, child)]))).Without child
      (expression (.object entries)) := by
  refine ⟨?_, rfl, rfl⟩
  simp [children, Expression.children]

/-- Binding a key that was unbound. -/
theorem without_of_bound {d : Declaration} {key : String} (child : NodeId)
    (h : d.hasProperty key = true) : (declaration (d.withProperty key (some child))).Without child
      (declaration (d.withProperty key none)) :=
  ⟨d.children_withProperty (some child) h, rfl, rfl⟩

/-- Unbinding a key. -/
theorem without_of_property? {d : Declaration} {key : String} {child : NodeId}
    (h : d.hasProperty key = true) (hchild : d.property? key = some child) :
    (declaration d).Without child (declaration (d.withProperty key none)) := by
  have hperm := d.children_withProperty_none h
  rw [hchild] at hperm
  exact ⟨hperm, rfl, rfl⟩

end Node

end InfraModule
