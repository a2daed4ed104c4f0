import InfraModule.Schema
import InfraModule.Tree.Expression

/-!
# Declarations

A declaration binds the keys of its kind to nodes: the keyword, without which it cannot exist, and
one slot for each other key of its row of the schema table, in authored order. A slot may be empty,
because a declaration that lacks a mandatory key is still built (and reported).
-/

namespace InfraModule

/-- One key of a declaration and the node bound to it. -/
structure Slot where
  /-- The key. -/
  key : String
  /-- The node bound to the key. -/
  value : Option NodeId
  deriving DecidableEq

namespace Slot

/-- The slots with every one of a given key filled anew. -/
def bind (key : String) (value : Option NodeId) (slots : List Slot) : List Slot :=
  slots.map fun slot => if slot.key = key then { slot with value } else slot

/-- The slots with the first one that holds `child` emptied. -/
def release (child : NodeId) : List Slot → List Slot
  | [] => []
  | slot :: slots =>
    if slot.value = some child then { slot with value := none } :: slots
    else slot :: release child slots

/-- The slots with the nodes they hold replaced in order by `ids`. -/
def refill : List Slot → List NodeId → List Slot
  | slot :: slots, id :: ids =>
    match slot.value with
    | some _ => { slot with value := some id } :: refill slots ids
    | none => slot :: refill slots (id :: ids)
  | slots, [] => slots
  | [], _ => []

/-- Binding a key leaves the keys as they are. -/
@[simp] theorem map_key_bind (key : String) (value : Option NodeId) (slots : List Slot) :
    (bind key value slots).map Slot.key = slots.map Slot.key := by
  simp only [bind, List.map_map]
  refine List.map_congr_left fun slot _ => ?_
  simp only [Function.comp]
  split <;> rfl

/-- Releasing a child leaves the keys as they are. -/
@[simp] theorem map_key_release (child : NodeId) (slots : List Slot) :
    (release child slots).map Slot.key = slots.map Slot.key := by
  induction slots with
  | nil => rfl
  | cons slot slots ih => unfold release; split <;> simp [ih]

/-- Filling the slots anew leaves the keys as they are. -/
@[simp] theorem map_key_refill (slots : List Slot) (ids : List NodeId) :
    (refill slots ids).map Slot.key = slots.map Slot.key := by
  fun_induction refill slots ids <;> simp_all

end Slot

/-- A declaration: its kind and the nodes bound to its keys. -/
structure Declaration where
  /-- The kind. -/
  kind : Kind
  /-- The node bound to the keyword. -/
  keyword : Option NodeId
  /-- The other keys, in authored order. -/
  slots : List Slot
  /-- The keyword is bound exactly if the kind has one. -/
  keyword_isSome : keyword.isSome = kind.keyword.isSome
  /-- The slots are those of the kind. -/
  slots_keys : slots.map Slot.key = kind.propertyKeys

namespace Declaration

/-- A declaration with nothing but its keyword bound. A kind with a keyword needs one; a kind
without ignores it. -/
def new? (kind : Kind) (keyword : Option NodeId) : Option Declaration :=
  have keys : (kind.propertyKeys.map (Slot.mk · none)).map Slot.key = kind.propertyKeys := by
    simp [Function.comp_def]
  match hk : kind.keyword with
  | none => some ⟨kind, none, _, by simp [hk], keys⟩
  | some _ =>
    match keyword with
    | none => none
    | some keyword => some ⟨kind, some keyword, _, by simp [hk], keys⟩

/-- Whether `key` is one of the keys other than the keyword. -/
def hasProperty (d : Declaration) (key : String) : Bool :=
  d.slots.any (·.key == key)

/-- The node bound to a key other than the keyword. -/
def property? (d : Declaration) (key : String) : Option NodeId :=
  (d.slots.find? (·.key == key)).bind Slot.value

/-- The same declaration with one key other than the keyword bound anew. -/
def withProperty (d : Declaration) (key : String) (value : Option NodeId) : Declaration :=
  { d with
    slots := Slot.bind key value d.slots
    slots_keys := by simp [d.slots_keys] }

/-- The keys other than the keyword that are bound, with their nodes, in authored order. -/
def bindings (d : Declaration) : List (String × NodeId) :=
  d.slots.filterMap fun slot => slot.value.map (slot.key, ·)

/-- The nodes that the declaration owns: the keyword's first, then the others in authored order. -/
def children (d : Declaration) : List NodeId :=
  d.keyword.toList ++ d.slots.filterMap Slot.value

/-- The same declaration with other children, put in place of the old ones in order. -/
def withChildren (d : Declaration) (ids : List NodeId) : Declaration :=
  { d with
    keyword := d.keyword.map fun keyword => ids.headD keyword
    slots := Slot.refill d.slots (if d.keyword.isSome then ids.tail else ids)
    keyword_isSome := by rw [Option.isSome_map, d.keyword_isSome]
    slots_keys := by simp [d.slots_keys] }

/-- Takes a child out of the declaration; the keyword cannot be taken out. -/
def remove (d : Declaration) (child : NodeId) : Removal Declaration :=
  if d.keyword = some child then .required
  else if child ∈ d.slots.filterMap Slot.value then
    .removed { d with
      slots := Slot.release child d.slots
      slots_keys := by simp [d.slots_keys] }
  else .notFound

/-- The keys that a declaration has are those of its kind's row. -/
theorem hasProperty_iff (d : Declaration) (key : String) :
    d.hasProperty key = true ↔ key ∈ d.kind.propertyKeys := by
  simp [hasProperty, ← d.slots_keys, List.any_eq_true, List.mem_map]

end Declaration

end InfraModule
