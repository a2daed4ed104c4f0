import InfraModule.Diagnostic
import InfraModule.RawValue
import InfraModule.Tree.Edit

/-!
# Giving meaning to tags

An uninterpreted value becomes nodes of a tree. Without a tag it keeps its structure; with one it
becomes a function or a condition, if its operand has the shape that the tag demands. A value of the
wrong shape is reported and gives no node. Items of lists and values of objects that give no node
are left out, while a function or condition without one of its operands gives no node either.

The demands on the operands of functions are a table, `FunctionName.signature`: the operands stand
in a sequence, and each has a role. Five tags also, or only, accept something else: `!Base64`,
`!GetAZs` and `!ImportValue` any value, `!Ref`, `!GetAtt` and `!Sub` a scalar, `!Transform` a
mapping.
-/

namespace InfraModule

/-- A tree under construction and what was reported about it. -/
structure Build where
  /-- The tree. -/
  tree : Tree := {}
  /-- The diagnostics. -/
  diagnostics : Diagnostics := {}

/-- Steps of building a tree. Their errors are misuses of the tree. -/
abbrev BuildM := EStateM TreeError Build

namespace BuildM

/-- Does an operation on the tree under construction. -/
def onTree {α : Type} (operation : TreeM α) : BuildM α
  | ⟨tree, diagnostics⟩ =>
    match operation tree with
    | .ok answer tree => .ok answer ⟨tree, diagnostics⟩
    | .error error tree => .error error ⟨tree, diagnostics⟩

/-- Reports an error at a place of the document. -/
def report (message : String) (location : Location) : BuildM Unit :=
  modify fun build => { build with diagnostics := build.diagnostics.error message location }

/-- Reports an error, so that there is no node. -/
def refuse (message : String) (location : Location) : BuildM (Option NodeId) := do
  report message location
  return none

/-- Adds an expression. -/
def add (expression : Expression) (location : Location) : BuildM NodeId :=
  onTree (.add (.expression expression) location)

/-- Adds a text. -/
def addText (text : String) (location : Location) : BuildM NodeId :=
  add (.literal (.string text)) location

/-- Adds a call. -/
def addCall (call : Call) (location : Location) : BuildM (Option NodeId) :=
  some <$> add (.call call) location

/-- Adds a condition. -/
def addCondition (condition : Condition) (location : Location) : BuildM (Option NodeId) :=
  some <$> add (.condition condition) location

/-- Adds a named condition, with one span for the condition and its name. -/
def addNamedCondition (name : String) (location : Location) : BuildM NodeId := do
  let name ← addText name location
  add (.condition (.reference name none)) location

end BuildM

/-! ## What tags demand -/

/-- What stands at a place in the operands of a function. -/
inductive Role where
  /-- Any value. -/
  | value
  /-- An untagged scalar. -/
  | text
  /-- The name of a condition, an untagged scalar. -/
  | conditionName
  /-- An untagged mapping. -/
  | parameters
  deriving DecidableEq

/-- The operands of a function that takes a sequence of them. -/
def FunctionName.signature : FunctionName → Option (List Role)
  | .cidr => some [.value, .value, .value]
  | .findInMap => some [.value, .value, .value]
  | .getAtt => some [.text, .value]
  | .ifElse => some [.conditionName, .value, .value]
  | .join => some [.text, .value]
  | .select => some [.value, .value]
  | .split => some [.text, .value]
  | .sub => some [.text, .parameters]
  | _ => none

/-- The call of a function that takes any value as its operand. -/
def FunctionName.ofAnyValue? : FunctionName → Option (NodeId → Call)
  | .base64 => some .base64
  | .getAzs => some .getAzs
  | .importValue => some .importValue
  | _ => none

namespace Resolve

open BuildM

/-- The least number of operands of `!And` and `!Or`. -/
def minConditionOperands : Nat := 2

/-- The greatest number of operands of `!And` and `!Or`. -/
def maxConditionOperands : Nat := 10

/-! ## Messages -/

/-- A tag whose operand is no sequence, mapping or scalar as demanded. -/
def invalidParameters (tag : String) : String :=
  s!"invalid parameters for {tag} function"

/-- A tag whose sequence has the wrong number of operands. -/
def wrongCount (tag : String) (count : Nat) : String :=
  if count = 1 then s!"{tag} expects 1 parameter" else s!"{tag} expects {count} parameters"

/-- A tag whose first operand is tagged or no scalar. -/
def firstNotLiteral (tag : String) : String :=
  s!"{tag} first parameter must be a literal value"

/-! ## Operands that are scalars -/

/-- The name of a resource and of its attribute, which the first dot separates. -/
def splitAttribute (text : String) : String × String :=
  let cs := text.toList
  (String.ofList (cs.takeWhile (· ≠ '.')), String.ofList ((cs.dropWhile (· ≠ '.')).drop 1))

/-- The call of a function on a scalar. -/
def onScalar (f : FunctionName) (location : Location) (text : String) :
    BuildM (Option NodeId) := do
  match f with
  | .getAtt =>
    let (resourceName, attributeName) := splitAttribute text
    let resourceName ← addText resourceName location
    let attributeName ← addText attributeName location
    addCall (.getAtt resourceName attributeName none) location
  | .sub => do addCall (.sub (← addText text location) none) location
  | .ref => do addCall (.ref (← addText text location) none) location
  | f =>
    match f.ofAnyValue? with
    | some call => do addCall (call (← addText text location)) location
    | none => refuse (invalidParameters f.tag) location

/-- The node of an operand that must be an untagged scalar. -/
def textOperand (tag : String) (operand : RawValue) : BuildM (Option NodeId) := do
  match operand with
  | .scalar none location text => some <$> addText text location
  | operand => refuse (firstNotLiteral tag) operand.location

/-- The node of an operand that must name a condition. -/
def conditionNameOperand (tag : String) (operand : RawValue) : BuildM (Option NodeId) := do
  match operand with
  | .scalar none location text => some <$> addNamedCondition text location
  | operand => refuse (firstNotLiteral tag) operand.location

/-! ## Values -/

/-- The value of the first entry with a given key. -/
def firstEntry? (key : String) (entries : List (Key × RawValue)) : Option RawValue :=
  (entries.find? (·.1.text == key)).map Prod.snd

/-- The name that `!Transform` calls, once its mapping is known to have the right shape. -/
def checkTransform (location : Location) (entries : List (Key × RawValue)) :
    BuildM (Option (String × Location)) := do
  let tag := FunctionName.transform.tag
  let fail (message : String) (location : Location) : BuildM (Option (String × Location)) := do
    report message location
    return none
  match firstEntry? "Name" entries with
  | none => fail s!"{tag} missing 'Name'" location
  | some name =>
    match name.plainScalar? with
    | none => fail s!"{tag} 'Name' must be a literal value" name.location
    | some text =>
      match firstEntry? "Parameters" entries with
      | none => fail s!"{tag} missing 'Parameters'" location
      | some parameters =>
        if parameters.isPlainMapping then return some (text, name.location)
        else fail s!"{tag} 'Parameters' must be a map" parameters.location

mutual

/-- The node of a value. -/
def value : RawValue → BuildM (Option NodeId)
  | .scalar none location text => some <$> addText text location
  | .scalar (some tag) location text =>
    match FunctionName.ofTag? tag with
    | none => refuse s!"unknown tag '{tag}'" location
    | some f => onScalar f location text
  | .sequence none location items => do
    let list ← add (.list []) location
    valueItems list items
    return some list
  | .sequence (some tag) location items =>
    match FunctionName.ofTag? tag with
    | none => refuse s!"unknown tag '{tag}'" location
    | some f =>
      match f.ofAnyValue?, f.signature with
      | some call, _ => do
        let list ← add (.list []) location
        valueItems list items
        addCall (call list) location
      | none, some roles => do
        if roles.length ≠ items.length then
          refuse (wrongCount tag roles.length) location
        else
          match (← operands tag roles items).bind (Call.ofOperands? f · none) with
          | some call => addCall call location
          | none => return none
      | none, none => refuse (invalidParameters tag) location
  | .mapping none location entries => do
    let object ← add (.object []) location
    valueEntries object [] entries
    return some object
  | .mapping (some tag) location entries =>
    match FunctionName.ofTag? tag with
    | none => refuse s!"unknown tag '{tag}'" location
    | some .transform => do
      match ← checkTransform location entries with
      | none => return none
      | some (name, nameLocation) =>
        let name ← addText name nameLocation
        match ← transformParameters entries with
        | none => return none
        | some parameters => addCall (.transform name parameters) location
    | some f =>
      match f.ofAnyValue? with
      | some call => do
        let object ← add (.object []) location
        valueEntries object [] entries
        addCall (call object) location
      | none => refuse (invalidParameters tag) location
termination_by structural r => r

/-- Appends the nodes of values to a list, leaving out values that give none. -/
def valueItems (list : NodeId) : List RawValue → BuildM Unit
  | [] => return ()
  | item :: items => do
    if let some id ← value item then
      onTree (.pushChild list id)
    valueItems list items
termination_by structural items => items

/-- Adds the nodes of values to an object, leaving out values that give none. A key that occurred
before, in `seen` or earlier in the list, is reported and its value passed over. -/
def valueEntries (object : NodeId) (seen : List String) :
    List (Key × RawValue) → BuildM Unit
  | [] => return ()
  | (key, item) :: entries => do
    if key.text ∈ seen then
      report s!"duplicate key '{key.text}'" key.location
      valueEntries object seen entries
    else
      if let some id ← value item then
        discard <| onTree (.insertEntry object key id)
      valueEntries object (key.text :: seen) entries
termination_by structural entries => entries

/-- The nodes of operands in their roles; none if any of them has no node, after which the later
ones are not looked at. -/
def operands (tag : String) (roles : List Role) : List RawValue → BuildM (Option (List NodeId))
  | [] => return some []
  | item :: items => do
    let id ← match roles.head? with
      | some .text => textOperand tag item
      | some .conditionName => conditionNameOperand tag item
      | some .parameters =>
        match item with
        | .mapping none location entries => do
          let object ← add (.object []) location
          valueEntries object [] entries
          pure (some object)
        | item => refuse s!"{tag} second parameter must be a map" item.location
      | _ => value item
    match id with
    | none => return none
    | some id => return (← operands tag roles.tail items).map (id :: ·)
termination_by structural items => items

/-- The node of the first `Parameters` entry, a mapping. -/
def transformParameters : List (Key × RawValue) → BuildM (Option NodeId)
  | [] => return none
  | (key, item) :: entries =>
    if key.text = "Parameters" then
      match item with
      | .mapping _ location entries => do
        let object ← add (.object []) location
        valueEntries object [] entries
        return some object
      | _ => return none
    else transformParameters entries
termination_by structural entries => entries

end

/-! ## Conditions -/

/-- Whether `!And` or `!Or` may not have this many operands, which is then reported. -/
def wrongConditionCount (tag : String) (location : Location) (count : Nat) : BuildM Bool := do
  if count < minConditionOperands ∨ maxConditionOperands < count then
    report s!"{tag} expects between {minConditionOperands} and {maxConditionOperands} parameters"
      location
    return true
  else
    return false

mutual

/-- The node of a condition. -/
def condition : RawValue → BuildM (Option NodeId)
  | .scalar none location text => some <$> addNamedCondition text location
  | .scalar (some tag) location text =>
    match ConditionName.ofTag? tag with
    | none => refuse s!"unknown condition tag '{tag}'" location
    | some .reference => some <$> addNamedCondition text location
    | some .existence => do addCondition (.existence (← addText text location) none) location
    | some _ => refuse (invalidParameters tag) location
  | .sequence none location _ =>
    refuse "expected a condition name or condition function" location
  | .sequence (some tag) location items =>
    match ConditionName.ofTag? tag, items with
    | none, _ => refuse s!"unknown condition tag '{tag}'" location
    | some .and, items => do
      if ← wrongConditionCount tag location items.length then return none
      match ← allConditions items with
      | some operands => addCondition (.and operands) location
      | none => return none
    | some .or, items => do
      if ← wrongConditionCount tag location items.length then return none
      match ← allConditions items with
      | some operands => addCondition (.or operands) location
      | none => return none
    | some .not, [operand] => do
      match ← condition operand with
      | some operand => addCondition (.not operand) location
      | none => return none
    | some .not, _ => refuse (wrongCount tag 1) location
    | some .equals, [left, right] => do
      let left ← value left
      let right ← value right
      match left, right with
      | some left, some right => addCondition (.equals left right) location
      | _, _ => return none
    | some .equals, _ => refuse (wrongCount tag 2) location
    | some _, _ => refuse (invalidParameters tag) location
  | .mapping none location _ =>
    refuse "expected a condition name or condition function" location
  | .mapping (some tag) location _ =>
    match ConditionName.ofTag? tag with
    | none => refuse s!"unknown condition tag '{tag}'" location
    | some _ => refuse (invalidParameters tag) location
termination_by structural r => r

/-- The nodes of conditions; none if any of them has no node, after which the later ones are not
looked at. -/
def allConditions : List RawValue → BuildM (Option (List NodeId))
  | [] => return some []
  | item :: items => do
    match ← condition item with
    | none => return none
    | some id => return (← allConditions items).map (id :: ·)
termination_by structural items => items

end

end Resolve

end InfraModule
