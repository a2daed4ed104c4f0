import InfraModule.Parse.Basic
import InfraModule.Text.Blank
import InfraModule.Text.Integer

/-!
# Reading values

Uninterpreted values, and the values that need no declarations: literals, lists of texts, and
expressions. What has the wrong shape is reported and skipped. In a mapping, a key that is no scalar
is reported and skipped with its value; entries whose value is left out are left out too.
-/

namespace InfraModule.Parse

open ParseM

/-- Takes a key. One that is no scalar is skipped together with its value. -/
def key : ParseM (Option Key) := do
  let e ← current
  match e.kind with
  | .scalar text _ =>
    let location ← here
    advance
    return some ⟨text, location⟩
  | _ =>
    report "expected a literal key" (← here)
    skip
    skip
    return none

/-! ## Uninterpreted values -/

/-- One entry of a mapping, added to those before. -/
def rawEntry (value : ParseM (Option RawValue)) (entries : List (Key × RawValue)) :
    ParseM (Option (List (Key × RawValue))) := do
  let some key ← key | return some entries
  let some value ← value | return some entries
  return some (entries ++ [(key, value)])

/-- A value with at most `levels` containers nested in each other. -/
def rawValueWithin (levels : Nat) : ParseM (Option RawValue) := do
  let start ← here
  match (← current).kind with
  | .scalar text tag =>
    advance
    return some (.scalar tag start text)
  | .sequenceStart tag =>
    match levels with
    | 0 => tooDeep
    | levels + 1 =>
      nested do
        let items ← collect .sequence (rawValueWithin levels)
        return some (.sequence tag (← closeFrom start) items)
  | .mappingStart tag =>
    match levels with
    | 0 => tooDeep
    | levels + 1 =>
      nested do
        let entries ← foldUntilClose .mapping (rawEntry (rawValueWithin levels)) []
        return some (.mapping tag (← closeFrom start) (entries.getD []))
  | _ => refuse "expected a map, sequence, or literal"

/-- A value without regard to what its tags mean. -/
def rawValue : ParseM (Option RawValue) := do
  rawValueWithin (← levels)

/-! ## Literals -/

/-- An untagged scalar that `convert` accepts. -/
def scalar (message : String) (convert : String → Option Literal) : ParseM (Option NodeId) := do
  let e ← current
  let literal := match e.kind with
    | .scalar text none => convert text
    | _ => none
  match literal with
  | some literal =>
    let location ← here
    advance
    some <$> add (.expression (.literal literal)) location
  | none => refuse message

/-- A text, which is kept as it is. -/
def string : ParseM (Option NodeId) :=
  scalar "expected a literal string" fun text => some (.string text)

/-- An integer of 64 bits, which is kept in its shortest form. -/
def int : ParseM (Option NodeId) :=
  scalar "expected a literal integer" fun text =>
    (Text.Integer.read? (Text.trim text)).map Literal.int

/-- The truth value that a text names, in letters of either case. -/
def readBool? (text : String) : Option Bool :=
  match Text.lowerAscii (Text.trim text) with
  | "true" => some true
  | "false" => some false
  | _ => none

/-- A truth value. -/
def bool : ParseM (Option NodeId) :=
  scalar "expected a literal boolean" fun text => (readBool? text).map Literal.bool

/-! ## Expressions -/

/-- A value with at most `levels` containers nested in each other, given a meaning. -/
def expressionWithin (levels : Nat) : ParseM (Option NodeId) := do
  let some value ← rawValueWithin levels | return none
  build (Resolve.value value)

/-- A condition with at most `levels` containers nested in each other. -/
def conditionWithin (levels : Nat) : ParseM (Option NodeId) := do
  let some value ← rawValueWithin levels | return none
  build (Resolve.condition value)

/-- Whether an untagged container starts at the cursor. -/
def atPlain (container : Container) : ParseM Bool := do
  return (← current).kind = container.plainStart

/-- A reader of untagged containers of one kind; anything else is refused. -/
def plain {α : Type} (container : Container) (body : ParseM (Option α)) : ParseM (Option α) := do
  if ← atPlain container then body
  else refuse s!"expected a {container.name}"

/-- A list of texts. -/
def stringListWithin (levels : Nat) : ParseM (Option NodeId) :=
  plain .sequence do
    let start ← here
    match levels with
    | 0 => tooDeep
    | _ + 1 =>
      let (items, location) ← nested do
        let items ← collect .sequence string
        return (items, ← closeFrom start)
      some <$> add (.collection items) location

/-- A list of texts. -/
def stringList : ParseM (Option NodeId) := do
  stringListWithin (← levels)

/-- A value, given a meaning. -/
def expression : ParseM (Option NodeId) := do
  expressionWithin (← levels)

/-- A condition. -/
def condition : ParseM (Option NodeId) := do
  conditionWithin (← levels)

end InfraModule.Parse
