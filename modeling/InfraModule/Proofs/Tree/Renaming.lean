import InfraModule.Proofs.Tree.Node

/-!
# Renaming children

The children of a node are renamed by a function on ids: every slot, item, entry and operand that
holds a child then holds what the child is renamed to, and nothing else about the node changes, its
target included. Renaming the children is the same as putting their new names in place of the old
ones in order, which is how a copied node comes by its children (`Node.withChildren_map`).
-/

namespace InfraModule

variable {f g : NodeId → NodeId}

/-! ## Declarations -/

/-- The same slot with the node that it holds renamed. -/
def Slot.mapValue (f : NodeId → NodeId) (slot : Slot) : Slot :=
  { slot with value := slot.value.map f }

namespace Slot

/-- Renaming what slots bind leaves their keys. -/
@[simp] theorem map_key_mapValue (slots : List Slot) :
    (slots.map (mapValue f)).map Slot.key = slots.map Slot.key := by
  simp [mapValue, Function.comp_def]

/-- Renamed slots hold the renamed nodes. -/
theorem filterMap_value_mapValue (slots : List Slot) :
    (slots.map (mapValue f)).filterMap Slot.value = (slots.filterMap Slot.value).map f := by
  rw [List.filterMap_map, List.map_filterMap]
  rfl

/-- Renaming nothing leaves a slot as it is. -/
@[simp] theorem mapValue_id (slot : Slot) : slot.mapValue id = slot := by
  cases slot with
  | mk key value => exact congrArg (Slot.mk key) (congrFun Option.map_id value)

/-- Renaming twice is renaming by both. -/
@[simp] theorem mapValue_mapValue (slot : Slot) :
    (slot.mapValue f).mapValue g = slot.mapValue (g ∘ f) := by
  simp [mapValue]

/-- Slots refilled with the new names of the nodes that they hold. -/
theorem refill_map (slots : List Slot) :
    refill slots ((slots.filterMap Slot.value).map f) = slots.map (mapValue f) := by
  induction slots with
  | nil => rfl
  | cons slot slots ih =>
    obtain ⟨key, value⟩ := slot
    cases value with
    | some id =>
      calc refill (⟨key, some id⟩ :: slots) (f id :: (slots.filterMap Slot.value).map f)
          = ⟨key, some (f id)⟩ :: refill slots ((slots.filterMap Slot.value).map f) := rfl
        _ = ⟨key, some (f id)⟩ :: slots.map (mapValue f) := by rw [ih]
    | none =>
      rw [List.filterMap_cons_none rfl, List.map_cons, ← ih]
      -- A slot that holds nothing takes no name, whether or not one is left.
      cases (slots.filterMap Slot.value).map f with
      | nil => cases slots <;> rfl
      | cons id ids => rfl

end Slot

namespace Declaration

/-- The same declaration with its children renamed. -/
def mapChildren (f : NodeId → NodeId) (d : Declaration) : Declaration :=
  { d with
    keyword := d.keyword.map f
    slots := d.slots.map (Slot.mapValue f)
    keyword_isSome := by rw [Option.isSome_map, d.keyword_isSome]
    slots_keys := by rw [Slot.map_key_mapValue, d.slots_keys] }

/-- The children of a renamed declaration are the renamed children. -/
theorem children_mapChildren (d : Declaration) :
    (d.mapChildren f).children = d.children.map f := by
  rw [children, children, List.map_append, ← Slot.filterMap_value_mapValue]
  cases hk : d.keyword <;> simp [mapChildren, hk]

/-- Putting renamed children in place of a declaration's own renames them. -/
theorem withChildren_map (d : Declaration) :
    d.withChildren (d.children.map f) = d.mapChildren f := by
  obtain ⟨kind, keyword, slots, hsome, hkeys⟩ := d
  cases keyword with
  | none => simp [withChildren, children, mapChildren, Slot.refill_map]
  | some keyword => simp [withChildren, children, mapChildren, Slot.refill_map]

/-- Renaming nothing leaves the owner as it is. -/
@[simp] theorem mapChildren_id (d : Declaration) : d.mapChildren id = d := by
  apply ext'
  · rfl
  · exact congrFun Option.map_id d.keyword
  · exact (List.map_congr_left fun slot _ => slot.mapValue_id).trans (List.map_id d.slots)

/-- Renaming the children of a declaration twice renames them by both functions in turn. -/
theorem mapChildren_mapChildren (d : Declaration) :
    (d.mapChildren f).mapChildren g = d.mapChildren (g ∘ f) := by
  apply ext'
  · rfl
  · exact Option.map_map g f d.keyword
  · simp [mapChildren]

/-! ### Keys -/

/-- What is bound to a key is renamed. -/
theorem property?_mapChildren (d : Declaration) (key : String) :
    (d.mapChildren f).property? key = (d.property? key).map f := by
  change ((d.slots.map (Slot.mapValue f)).find? (·.key == key)).bind Slot.value = _
  rw [List.find?_map, property?, Option.bind_map, Option.map_bind]
  rfl

/-- Renaming leaves the keys that a declaration binds. -/
@[simp] theorem hasProperty_mapChildren (d : Declaration) (key : String) :
    (d.mapChildren f).hasProperty key = d.hasProperty key := by
  change (d.slots.map (Slot.mapValue f)).any (·.key == key) = _
  rw [List.any_map]
  rfl

/-- A key may be bound before the renaming or to the renamed node after it. -/
theorem withProperty_mapChildren (d : Declaration) (key : String) (value : Option NodeId) :
    (d.mapChildren f).withProperty key (value.map f)
      = (d.withProperty key value).mapChildren f := by
  apply ext'
  · rfl
  · rfl
  · change Slot.bind key (value.map f) (d.slots.map (Slot.mapValue f))
      = (Slot.bind key value d.slots).map (Slot.mapValue f)
    rw [Slot.bind, Slot.bind, List.map_map, List.map_map]
    refine List.map_congr_left fun slot _ => ?_
    by_cases h : slot.key = key <;> simp [Slot.mapValue, h]

/-- A declaration is made of a renamed keyword as it is made of the keyword. -/
theorem new?_map (kind : Kind) (keyword : Option NodeId) :
    new? kind (keyword.map f) = (new? kind keyword).map (mapChildren f) := by
  unfold new?
  split
  · simp [mapChildren, Slot.mapValue, Function.comp_def]
  · cases keyword <;> simp [mapChildren, Slot.mapValue, Function.comp_def]

end Declaration

/-! ## Expressions -/

namespace Call

/-- The same call with its operands renamed. -/
def mapOperands (f : NodeId → NodeId) : Call → Call
  | .base64 value => .base64 (f value)
  | .cidr ipBlock count cidrBits => .cidr (f ipBlock) (f count) (f cidrBits)
  | .findInMap mapName topLevelKey secondLevelKey =>
    .findInMap (f mapName) (f topLevelKey) (f secondLevelKey)
  | .getAtt resourceName attributeName target =>
    .getAtt (f resourceName) (f attributeName) target
  | .getAzs region => .getAzs (f region)
  | .ifElse condition ifTrue ifFalse => .ifElse (f condition) (f ifTrue) (f ifFalse)
  | .importValue sharedValue => .importValue (f sharedValue)
  | .join delimiter values => .join (f delimiter) (f values)
  | .select index values => .select (f index) (f values)
  | .split delimiter source => .split (f delimiter) (f source)
  | .sub format parameters => .sub (f format) (parameters.map f)
  | .transform name parameters => .transform (f name) (f parameters)
  | .ref resourceName target => .ref (f resourceName) target

/-- The operands of a renamed call are the renamed operands. -/
theorem operands_mapOperands (c : Call) : (c.mapOperands f).operands = c.operands.map f := by
  cases c with
  | sub format parameters => cases parameters <;> rfl
  | _ => rfl

/-- Renaming operands leaves the name. -/
@[simp] theorem name_mapOperands (c : Call) : (c.mapOperands f).name = c.name := by
  cases c <;> rfl

/-- Renaming operands leaves the target. -/
@[simp] theorem target_mapOperands (c : Call) : (c.mapOperands f).target = c.target := by
  cases c <;> rfl

/-- Putting renamed operands in place of a call's own renames them. -/
theorem withOperands_map (c : Call) : c.withOperands (c.operands.map f) = c.mapOperands f := by
  cases c with
  | sub format parameters => cases parameters <;> rfl
  | _ => rfl

/-- Renaming nothing leaves the operands as they are. -/
@[simp] theorem mapOperands_id (c : Call) : c.mapOperands id = c := by
  cases c with
  | sub format parameters => cases parameters <;> rfl
  | _ => rfl

/-- Renaming the operands of a call twice renames them by both functions in turn. -/
theorem mapOperands_mapOperands (c : Call) :
    (c.mapOperands f).mapOperands g = c.mapOperands (g ∘ f) := by
  cases c with
  | sub format parameters => cases parameters <;> rfl
  | _ => rfl

end Call

namespace Condition

/-- The same condition with its operands renamed. -/
def mapOperands (f : NodeId → NodeId) : Condition → Condition
  | .and operands => .and (operands.map f)
  | .or operands => .or (operands.map f)
  | .not operand => .not (f operand)
  | .equals left right => .equals (f left) (f right)
  | .reference name target => .reference (f name) target
  | .existence name target => .existence (f name) target

/-- The operands of a renamed condition are the renamed operands. -/
theorem operands_mapOperands (c : Condition) :
    (c.mapOperands f).operands = c.operands.map f := by
  cases c <;> rfl

/-- Renaming operands leaves the name. -/
@[simp] theorem name_mapOperands (c : Condition) : (c.mapOperands f).name = c.name := by
  cases c <;> rfl

/-- Renaming operands leaves the target. -/
@[simp] theorem target_mapOperands (c : Condition) : (c.mapOperands f).target = c.target := by
  cases c <;> rfl

/-- Putting renamed operands in place of a condition's own renames them. -/
theorem withOperands_map (c : Condition) :
    c.withOperands (c.operands.map f) = c.mapOperands f := by
  cases c <;> rfl

/-- Renaming nothing leaves the operands as they are. -/
@[simp] theorem mapOperands_id (c : Condition) : c.mapOperands id = c := by
  cases c with
  | and operands => exact congrArg Condition.and (List.map_id operands)
  | or operands => exact congrArg Condition.or (List.map_id operands)
  | _ => rfl

/-- Renaming the operands of a condition twice renames them by both functions in turn. -/
theorem mapOperands_mapOperands (c : Condition) :
    (c.mapOperands f).mapOperands g = c.mapOperands (g ∘ f) := by
  cases c with
  | and operands => exact congrArg Condition.and List.map_map
  | or operands => exact congrArg Condition.or List.map_map
  | _ => rfl

end Condition

/-- The same expression with its children renamed. -/
def Expression.mapChildren (f : NodeId → NodeId) : Expression → Expression
  | .literal l => .literal l
  | .list items => .list (items.map f)
  | .object entries => .object (entries.map fun entry => (entry.1, f entry.2))
  | .call c => .call (c.mapOperands f)
  | .condition c => .condition (c.mapOperands f)

/-- Renaming nothing leaves an expression as it is. -/
@[simp] theorem Expression.mapChildren_id (e : Expression) : e.mapChildren id = e := by
  cases e with
  | literal l => rfl
  | list items => exact congrArg Expression.list (List.map_id items)
  | object entries => exact congrArg Expression.object (List.map_id entries)
  | call c => exact congrArg Expression.call c.mapOperands_id
  | condition c => exact congrArg Expression.condition c.mapOperands_id

/-- Renaming the children of an expression twice renames them by both functions in turn. -/
theorem Expression.mapChildren_mapChildren (e : Expression) :
    (e.mapChildren f).mapChildren g = e.mapChildren (g ∘ f) := by
  cases e with
  | literal l => rfl
  | list items => exact congrArg Expression.list List.map_map
  | object entries => exact congrArg Expression.object List.map_map
  | call c => exact congrArg Expression.call c.mapOperands_mapOperands
  | condition c => exact congrArg Expression.condition c.mapOperands_mapOperands

/-! ## Nodes -/

namespace Node

/-- The same node with its children renamed. -/
def mapChildren (f : NodeId → NodeId) : Node → Node
  | .declaration d => .declaration (d.mapChildren f)
  | .expression e => .expression (e.mapChildren f)
  | .collection items => .collection (items.map f)

/-- The children of a renamed node are the renamed children. -/
theorem children_mapChildren (n : Node) : (n.mapChildren f).children = n.children.map f := by
  match n with
  | .declaration d => exact d.children_mapChildren
  | .collection items => rfl
  | .expression (.literal l) => rfl
  | .expression (.list items) => rfl
  | .expression (.object entries) =>
    simp [mapChildren, Expression.mapChildren, children, Expression.children, Function.comp_def]
  | .expression (.call c) => exact c.operands_mapOperands
  | .expression (.condition c) => exact c.operands_mapOperands

/-- Renaming the children of a node leaves its target. -/
@[simp] theorem target_mapChildren (n : Node) : (n.mapChildren f).target = n.target := by
  match n with
  | .expression (.call c) => exact c.target_mapOperands
  | .expression (.condition c) => exact c.target_mapOperands
  | .expression (.literal _) | .expression (.list _) | .expression (.object _)
  | .declaration _ | .collection _ => rfl

/-- Renaming the children of a node leaves its kind. -/
@[simp] theorem kind?_mapChildren (n : Node) : (n.mapChildren f).kind? = n.kind? := by
  cases n <;> rfl

/-- Putting the new names of the children in place of the old ones renames the children. -/
theorem withChildren_map (n : Node) : n.withChildren (n.children.map f) = n.mapChildren f := by
  match n with
  | .declaration d => exact congrArg Node.declaration d.withChildren_map
  | .collection items => rfl
  | .expression (.literal l) => rfl
  | .expression (.list items) => rfl
  | .expression (.object entries) =>
    have hentries : List.zipWith (fun entry id => (entry.1, id)) entries
        ((entries.map Prod.snd).map f) = entries.map fun entry => (entry.1, f entry.2) := by
      simp [List.zipWith_map_right, List.zipWith_self]
    exact congrArg (fun es => Node.expression (.object es)) hentries
  | .expression (.call c) => exact congrArg (fun c => Node.expression (.call c)) c.withOperands_map
  | .expression (.condition c) =>
    exact congrArg (fun c => Node.expression (.condition c)) c.withOperands_map

/-- A child is pushed onto a node with renamed children under its new name. -/
theorem push?_mapChildren (n : Node) (child : NodeId) :
    (n.mapChildren f).push? (f child) = (n.push? child).map (mapChildren f) := by
  match n with
  | .expression (.list items) =>
    simp [push?, mapChildren, Expression.mapChildren]
  | .collection items => simp [push?, mapChildren]
  | .expression (.literal _) | .expression (.object _) | .expression (.call _)
  | .expression (.condition _) | .declaration _ => rfl

/-- Renaming nothing leaves the owner as it is. -/
@[simp] theorem mapChildren_id (n : Node) : n.mapChildren id = n := by
  cases n with
  | declaration d => exact congrArg Node.declaration d.mapChildren_id
  | expression e => exact congrArg Node.expression e.mapChildren_id
  | collection items => exact congrArg Node.collection (List.map_id items)

/-- Renaming twice is renaming once. -/
theorem mapChildren_mapChildren (n : Node) :
    (n.mapChildren f).mapChildren g = n.mapChildren (g ∘ f) := by
  cases n with
  | declaration d => exact congrArg Node.declaration d.mapChildren_mapChildren
  | expression e => exact congrArg Node.expression e.mapChildren_mapChildren
  | collection items => exact congrArg Node.collection List.map_map

/-- Only the names of the children matter. -/
theorem mapChildren_congr {n : Node} (h : ∀ c ∈ n.children, f c = g c) :
    n.mapChildren f = n.mapChildren g := by
  rw [← withChildren_map, ← withChildren_map, List.map_congr_left h]

end Node

end InfraModule
