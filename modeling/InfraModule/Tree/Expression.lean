import InfraModule.Source
import InfraModule.Text.Integer

/-!
# Expressions

The values of a module: literals, lists, objects, and the tagged functions and conditions. An
expression names its operands by the ids of the nodes that hold them. References (`!Ref`, `!GetAtt`,
`!Condition`, `!Exists`) also carry the declaration they are bound to, their target; the target is
no operand, and the expression does not own it.
-/

namespace InfraModule

/-- A node of a syntax tree, by its place in the order of creation. Ids are not bounded here. Where
they are kept in 32 bits, a tree of at most `2 ^ 32` nodes has the same ids; beyond that the ids in
32 bits wrap around, and these do not. -/
abbrev NodeId := Nat

/-- A node id as it stands in messages. -/
def NodeId.display (id : NodeId) : String :=
  "#" ++ toString id

/-- What remains when a node is taken out of its owner. -/
inductive Removal (α : Type) where
  /-- The owner without the node. -/
  | removed (rest : α)
  /-- The owner cannot do without the node. -/
  | required
  /-- The node does not occur in the owner. -/
  | notFound

/-- The same outcome for an owner of a wider type. -/
def Removal.map {α β : Type} (f : α → β) : Removal α → Removal β
  | .removed rest => .removed (f rest)
  | .required => .required
  | .notFound => .notFound

/-! ## Literals -/

/-- The kinds of literals. -/
inductive LiteralKind where
  | string | int | bool
  deriving DecidableEq, Inhabited

/-- A scalar value, kept as its text. -/
structure Literal where
  /-- The text. -/
  text : String
  /-- How the text is to be read. -/
  kind : LiteralKind
  deriving DecidableEq, Inhabited

namespace Literal

/-- A text. -/
def string (text : String) : Literal :=
  ⟨text, .string⟩

/-- An integer, in its shortest decimal form. -/
def int (n : Int) : Literal :=
  ⟨Text.Integer.write n, .int⟩

/-- A truth value. -/
def bool (b : Bool) : Literal :=
  ⟨if b then "true" else "false", .bool⟩

/-- The value of an integer literal whose text denotes one. -/
def asInt? (l : Literal) : Option Int :=
  match l.kind with
  | .int => Text.Integer.read? l.text
  | _ => none

/-- The value of a truth literal whose text denotes one. -/
def asBool? (l : Literal) : Option Bool :=
  match l.kind, l.text with
  | .bool, "true" => some true
  | .bool, "false" => some false
  | _, _ => none

end Literal

/-! ## Functions -/

/-- The functions that a tag can call. -/
inductive FunctionName where
  | base64 | cidr | findInMap | getAtt | getAzs | ifElse | importValue | join | select | split
  | sub | transform | ref
  deriving DecidableEq, Inhabited

namespace FunctionName

/-- The tag that calls the function. -/
def tag : FunctionName → String
  | .base64 => "!Base64"
  | .cidr => "!Cidr"
  | .findInMap => "!FindInMap"
  | .getAtt => "!GetAtt"
  | .getAzs => "!GetAZs"
  | .ifElse => "!If"
  | .importValue => "!ImportValue"
  | .join => "!Join"
  | .select => "!Select"
  | .split => "!Split"
  | .sub => "!Sub"
  | .transform => "!Transform"
  | .ref => "!Ref"

/-- The function that a tag calls. -/
def ofTag? (tag : String) : Option FunctionName :=
  [base64, cidr, findInMap, getAtt, getAzs, ifElse, importValue, join, select, split, sub,
    transform, ref].find? (·.tag == tag)

/-- A function is found by its own tag. -/
@[simp] theorem ofTag?_tag (f : FunctionName) : ofTag? f.tag = some f := by
  cases f <;> rfl

/-- A function found by a tag has that tag. -/
theorem tag_of_ofTag? {t : String} {f : FunctionName} (h : ofTag? t = some f) : f.tag = t := by
  simpa using List.find?_some h

end FunctionName

/-- A call of a function. -/
inductive Call where
  | base64 (value : NodeId)
  | cidr (ipBlock count cidrBits : NodeId)
  | findInMap (mapName topLevelKey secondLevelKey : NodeId)
  | getAtt (resourceName attributeName : NodeId) (target : Option NodeId)
  | getAzs (region : NodeId)
  | ifElse (condition ifTrue ifFalse : NodeId)
  | importValue (sharedValue : NodeId)
  | join (delimiter values : NodeId)
  | select (index values : NodeId)
  | split (delimiter source : NodeId)
  | sub (format : NodeId) (parameters : Option NodeId)
  | transform (name parameters : NodeId)
  | ref (resourceName : NodeId) (target : Option NodeId)
  deriving DecidableEq

namespace Call

/-- The function called. -/
def name : Call → FunctionName
  | .base64 .. => .base64
  | .cidr .. => .cidr
  | .findInMap .. => .findInMap
  | .getAtt .. => .getAtt
  | .getAzs .. => .getAzs
  | .ifElse .. => .ifElse
  | .importValue .. => .importValue
  | .join .. => .join
  | .select .. => .select
  | .split .. => .split
  | .sub .. => .sub
  | .transform .. => .transform
  | .ref .. => .ref

/-- The operands, in authored order. -/
def operands : Call → List NodeId
  | .base64 value => [value]
  | .cidr ipBlock count cidrBits => [ipBlock, count, cidrBits]
  | .findInMap mapName topLevelKey secondLevelKey => [mapName, topLevelKey, secondLevelKey]
  | .getAtt resourceName attributeName _ => [resourceName, attributeName]
  | .getAzs region => [region]
  | .ifElse condition ifTrue ifFalse => [condition, ifTrue, ifFalse]
  | .importValue sharedValue => [sharedValue]
  | .join delimiter values => [delimiter, values]
  | .select index values => [index, values]
  | .split delimiter source => [delimiter, source]
  | .sub format parameters => format :: parameters.toList
  | .transform name parameters => [name, parameters]
  | .ref resourceName _ => [resourceName]

/-- The call of a function with these operands, if the function takes that many. -/
def ofOperands? (name : FunctionName) (operands : List NodeId) (target : Option NodeId) :
    Option Call :=
  match name, operands with
  | .base64, [value] => some (.base64 value)
  | .cidr, [ipBlock, count, cidrBits] => some (.cidr ipBlock count cidrBits)
  | .findInMap, [mapName, topLevelKey, secondLevelKey] =>
    some (.findInMap mapName topLevelKey secondLevelKey)
  | .getAtt, [resourceName, attributeName] => some (.getAtt resourceName attributeName target)
  | .getAzs, [region] => some (.getAzs region)
  | .ifElse, [condition, ifTrue, ifFalse] => some (.ifElse condition ifTrue ifFalse)
  | .importValue, [sharedValue] => some (.importValue sharedValue)
  | .join, [delimiter, values] => some (.join delimiter values)
  | .select, [index, values] => some (.select index values)
  | .split, [delimiter, source] => some (.split delimiter source)
  | .sub, [format] => some (.sub format none)
  | .sub, [format, parameters] => some (.sub format (some parameters))
  | .transform, [name, parameters] => some (.transform name parameters)
  | .ref, [resourceName] => some (.ref resourceName target)
  | _, _ => none

/-- Whether the call refers to a declaration by name. -/
def isReference : Call → Bool
  | .getAtt .. => true
  | .ref .. => true
  | _ => false

/-- The declaration that the call is bound to. -/
def target : Call → Option NodeId
  | .getAtt _ _ target => target
  | .ref _ target => target
  | _ => none

/-- The same call bound to another declaration, if it is a reference. -/
def withTarget (f : Call) (target : Option NodeId) : Call :=
  match f with
  | .getAtt resourceName attributeName _ => .getAtt resourceName attributeName target
  | .ref resourceName _ => .ref resourceName target
  | f => f

/-- The operand that names the declaration referred to. -/
def referenceName : Call → Option NodeId
  | .getAtt resourceName _ _ => some resourceName
  | .ref resourceName _ => some resourceName
  | _ => none

/-- The same call with other operands, put in place of the old ones in order. -/
def withOperands (f : Call) (operands : List NodeId) : Call :=
  (ofOperands? f.name operands f.target).getD f

/-- Takes an operand out of the call; only the parameters of `!Sub` can be taken out. -/
def remove (f : Call) (child : NodeId) : Removal Call :=
  match f with
  | .sub format (some parameters) =>
    if parameters = child then .removed (.sub format none)
    else if format = child then .required
    else .notFound
  | f => if child ∈ f.operands then .required else .notFound

end Call

/-! ## Conditions -/

/-- The operators that form conditions. -/
inductive ConditionName where
  | and | or | not | equals | reference | existence
  deriving DecidableEq, Inhabited

namespace ConditionName

/-- The tag of the operator. -/
def tag : ConditionName → String
  | .and => "!And"
  | .or => "!Or"
  | .not => "!Not"
  | .equals => "!Equals"
  | .reference => "!Condition"
  | .existence => "!Exists"

/-- The operator that a tag stands for. -/
def ofTag? (tag : String) : Option ConditionName :=
  [and, or, not, equals, reference, existence].find? (·.tag == tag)

/-- An operator is found by its own tag. -/
@[simp] theorem ofTag?_tag (c : ConditionName) : ofTag? c.tag = some c := by
  cases c <;> rfl

/-- An operator found by a tag has that tag. -/
theorem tag_of_ofTag? {t : String} {c : ConditionName} (h : ofTag? t = some c) : c.tag = t := by
  simpa using List.find?_some h

end ConditionName

/-- A condition. -/
inductive Condition where
  | and (operands : List NodeId)
  | or (operands : List NodeId)
  | not (operand : NodeId)
  | equals (left right : NodeId)
  | reference (name : NodeId) (target : Option NodeId)
  | existence (name : NodeId) (target : Option NodeId)
  deriving DecidableEq

namespace Condition

/-- The operator of the condition. -/
def name : Condition → ConditionName
  | .and .. => .and
  | .or .. => .or
  | .not .. => .not
  | .equals .. => .equals
  | .reference .. => .reference
  | .existence .. => .existence

/-- The operands, in authored order. -/
def operands : Condition → List NodeId
  | .and operands => operands
  | .or operands => operands
  | .not operand => [operand]
  | .equals left right => [left, right]
  | .reference name _ => [name]
  | .existence name _ => [name]

/-- The condition with these operands, if the operator takes that many. -/
def ofOperands? (name : ConditionName) (operands : List NodeId) (target : Option NodeId) :
    Option Condition :=
  match name, operands with
  | .and, operands => some (.and operands)
  | .or, operands => some (.or operands)
  | .not, [operand] => some (.not operand)
  | .equals, [left, right] => some (.equals left right)
  | .reference, [name] => some (.reference name target)
  | .existence, [name] => some (.existence name target)
  | _, _ => none

/-- Whether the condition refers to a declaration by name. -/
def isReference : Condition → Bool
  | .reference .. => true
  | .existence .. => true
  | _ => false

/-- The declaration that the condition is bound to. -/
def target : Condition → Option NodeId
  | .reference _ target => target
  | .existence _ target => target
  | _ => none

/-- The same condition bound to another declaration, if it is a reference. -/
def withTarget (c : Condition) (target : Option NodeId) : Condition :=
  match c with
  | .reference name _ => .reference name target
  | .existence name _ => .existence name target
  | c => c

/-- The operand that names the declaration referred to. -/
def referenceName : Condition → Option NodeId
  | .reference name _ => some name
  | .existence name _ => some name
  | _ => none

/-- The same condition with other operands, put in place of the old ones in order. -/
def withOperands (c : Condition) (operands : List NodeId) : Condition :=
  (ofOperands? c.name operands c.target).getD c

/-- Takes an operand out of the condition, which no condition allows. -/
def remove (c : Condition) (child : NodeId) : Removal Condition :=
  if child ∈ c.operands then .required else .notFound

end Condition

/-! ## Objects -/

/-- The entries of an object, in the order of insertion. -/
abbrev Entries := List (Key × NodeId)

namespace Entries

/-- The value of the first entry with a given key. -/
def get? (entries : Entries) (key : String) : Option NodeId :=
  (entries.find? (·.1.text == key)).map Prod.snd

/-- Whether there is an entry with a given key. -/
def contains (entries : Entries) (key : String) : Bool :=
  entries.any (·.1.text == key)

/-- The keys of the entries. -/
def keys (entries : Entries) : List String :=
  entries.map (·.1.text)

/-- A key has a value exactly if there is an entry with it. -/
theorem get?_isSome (entries : Entries) (key : String) :
    (entries.get? key).isSome = entries.contains key := by
  rw [get?, contains, Option.isSome_map, Bool.eq_iff_iff, List.find?_isSome, List.any_eq_true]

end Entries

/-! ## Expressions -/

/-- An expression. The keys of an object stand in the order of insertion. -/
inductive Expression where
  /-- A scalar. -/
  | literal (literal : Literal)
  /-- A sequence of values. -/
  | list (items : List NodeId)
  /-- A mapping from keys to values. -/
  | object (entries : Entries)
  /-- A call of a function. -/
  | call (call : Call)
  /-- A condition. -/
  | condition (condition : Condition)
  deriving DecidableEq

namespace Expression

/-- The short name of the form of the expression; for functions and conditions their tag. -/
def kindName : Expression → String
  | .literal _ => "Literal"
  | .list _ => "List"
  | .object _ => "Object"
  | .call f => f.name.tag
  | .condition c => c.name.tag

/-- The nodes that the expression owns, in order. -/
def children : Expression → List NodeId
  | .literal _ => []
  | .list items => items
  | .object entries => entries.map Prod.snd
  | .call f => f.operands
  | .condition c => c.operands

/-- The same expression with other children, put in place of the old ones in order. -/
def withChildren (e : Expression) (ids : List NodeId) : Expression :=
  match e with
  | .literal l => .literal l
  | .list _ => .list ids
  | .object entries => .object (List.zipWith (fun entry id => (entry.1, id)) entries ids)
  | .call f => .call (f.withOperands ids)
  | .condition c => .condition (c.withOperands ids)

/-- Whether the expression refers to a declaration by name. -/
def isReference : Expression → Bool
  | .call f => f.isReference
  | .condition c => c.isReference
  | _ => false

/-- The declaration that the expression is bound to. -/
def target : Expression → Option NodeId
  | .call f => f.target
  | .condition c => c.target
  | _ => none

/-- The same expression bound to another declaration, if it is a reference. -/
def withTarget (e : Expression) (target : Option NodeId) : Expression :=
  match e with
  | .call f => .call (f.withTarget target)
  | .condition c => .condition (c.withTarget target)
  | e => e

/-- The node that names the declaration referred to. -/
def referenceName : Expression → Option NodeId
  | .call f => f.referenceName
  | .condition c => c.referenceName
  | _ => none

/-- Takes a child out of the expression: its first item or entry in a list or object. -/
def remove (e : Expression) (child : NodeId) : Removal Expression :=
  match e with
  | .literal _ => .notFound
  | .list items => if child ∈ items then .removed (.list (items.erase child)) else .notFound
  | .object entries =>
    if child ∈ entries.map Prod.snd then .removed (.object (entries.eraseP (·.2 == child)))
    else .notFound
  | .call f => (f.remove child).map .call
  | .condition c => (c.remove child).map .condition

end Expression

end InfraModule
