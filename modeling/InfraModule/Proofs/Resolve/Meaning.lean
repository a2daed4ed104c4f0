import InfraModule.Proofs.Tree.Term
import InfraModule.Resolve

/-!
# The meaning of uninterpreted values

What resolving makes of a value, and what it reports, depends on the value alone. `meaning` is the
term of the node that is made, if one is, with the mistakes that are reported on the way, in order;
`conditionMeaning` is the same where a condition is demanded. Neither looks at a tree.
-/

namespace InfraModule

/-- An answer and the mistakes that were found on the way to it. -/
structure Verdict (α : Type) where
  /-- The answer. -/
  answer : α
  /-- The mistakes, first to last. -/
  mistakes : List Diagnostic

namespace Verdict

variable {α β : Type}

instance : Monad Verdict where
  pure a := ⟨a, []⟩
  bind v f := ⟨(f v.answer).answer, v.mistakes ++ (f v.answer).mistakes⟩

/-- To return an answer gives it. -/
@[simp] theorem answer_pure (a : α) : (pure a : Verdict α).answer = a := rfl

/-- To return an answer reports nothing. -/
@[simp] theorem mistakes_pure (a : α) : (pure a : Verdict α).mistakes = [] := rfl

/-- Of two verdicts in a row, the second answers. -/
@[simp] theorem answer_bind (v : Verdict α) (f : α → Verdict β) :
    (v >>= f).answer = (f v.answer).answer := rfl

/-- Of two verdicts in a row, the mistakes are told in order. -/
@[simp] theorem mistakes_bind (v : Verdict α) (f : α → Verdict β) :
    (v >>= f).mistakes = v.mistakes ++ (f v.answer).mistakes := rfl

instance : LawfulMonad Verdict :=
  .mk' Verdict (fun _ => congrArg (mk _) (List.append_nil _)) (fun _ _ => rfl)
    (fun _ _ _ => congrArg (mk _) (List.append_assoc ..))

/-- A function is applied to the answer. -/
@[simp] theorem answer_map (f : α → β) (v : Verdict α) : (f <$> v).answer = f v.answer := rfl

/-- What a function makes of the answer reports nothing more. -/
@[simp] theorem mistakes_map (f : α → β) (v : Verdict α) : (f <$> v).mistakes = v.mistakes :=
  List.append_nil _

/-- A mistake for which there is no answer. -/
def refuse (message : String) (location : Location) : Verdict (Option α) :=
  ⟨none, [⟨.error, message, location⟩]⟩

/-- A refusal gives no answer. -/
@[simp] theorem answer_refuse (message : String) (location : Location) :
    (refuse message location : Verdict (Option α)).answer = none := rfl

/-- A refusal reports one error. -/
@[simp] theorem mistakes_refuse (message : String) (location : Location) :
    (refuse message location : Verdict (Option α)).mistakes = [⟨.error, message, location⟩] := rfl

/-- The same mistakes, where there need not be an answer. -/
def reported (message : String) (location : Location) : Verdict Unit :=
  ⟨(), [⟨.error, message, location⟩]⟩

end Verdict

namespace Resolve

open Verdict

/-! ## Values -/

/-- The meaning of a function on a scalar. -/
def scalarMeaning (f : FunctionName) (location : Location) (text : String) :
    Verdict (Option Term) :=
  match f with
  | .getAtt =>
    let (resourceName, attributeName) := splitAttribute text
    return some (.call .getAtt [.text resourceName, .text attributeName])
  | .sub => return some (.call .sub [.text text])
  | .ref => return some (.call .ref [.text text])
  | f =>
    match f.ofAnyValue? with
    | some _ => return some (.call f [.text text])
    | none => refuse (invalidParameters f.tag) location

/-- The meaning of an operand that must be an untagged scalar. -/
def textMeaning (tag : String) (operand : RawValue) : Verdict (Option Term) :=
  match operand with
  | .scalar none _ text => return some (.text text)
  | operand => refuse (firstNotLiteral tag) operand.location

/-- The meaning of an operand that must name a condition. -/
def nameMeaning (tag : String) (operand : RawValue) : Verdict (Option Term) :=
  match operand with
  | .scalar none _ text => return some (.named text)
  | operand => refuse (firstNotLiteral tag) operand.location

/-- The name that `!Transform` calls, once its mapping is known to have the right shape. -/
def transformName (location : Location) (entries : List (Key × RawValue)) :
    Verdict (Option String) :=
  let tag := FunctionName.transform.tag
  match firstEntry? "Name" entries with
  | none => refuse s!"{tag} missing 'Name'" location
  | some name =>
    match name.plainScalar? with
    | none => refuse s!"{tag} 'Name' must be a literal value" name.location
    | some text =>
      match firstEntry? "Parameters" entries with
      | none => refuse s!"{tag} missing 'Parameters'" location
      | some parameters =>
        if parameters.isPlainMapping then return some text
        else refuse s!"{tag} 'Parameters' must be a map" parameters.location

mutual

/-- The meaning of a value. -/
def meaning : RawValue → Verdict (Option Term)
  | .scalar none _ text => return some (.text text)
  | .scalar (some tag) location text =>
    match FunctionName.ofTag? tag with
    | none => refuse s!"unknown tag '{tag}'" location
    | some f => scalarMeaning f location text
  | .sequence none _ items => do return some (.list (← itemMeanings items))
  | .sequence (some tag) location items =>
    match FunctionName.ofTag? tag with
    | none => refuse s!"unknown tag '{tag}'" location
    | some f =>
      match f.ofAnyValue?, f.signature with
      | some _, _ => do return some (.call f [.list (← itemMeanings items)])
      | none, some roles =>
        if roles.length ≠ items.length then refuse (wrongCount tag roles.length) location
        else do return (← operandMeanings tag roles items).map (.call f)
      | none, none => refuse (invalidParameters tag) location
  | .mapping none _ entries => do return some (.object (← entryMeanings [] entries))
  | .mapping (some tag) location entries =>
    match FunctionName.ofTag? tag with
    | none => refuse s!"unknown tag '{tag}'" location
    | some .transform => do
      match ← transformName location entries with
      | none => return none
      | some name =>
        return (← parametersMeaning entries).map fun parameters =>
          .call .transform [.text name, parameters]
    | some f =>
      match f.ofAnyValue? with
      | some _ => do return some (.call f [.object (← entryMeanings [] entries)])
      | none => refuse (invalidParameters tag) location
termination_by structural r => r

/-- The meanings of the items of a list that have one. -/
def itemMeanings : List RawValue → Verdict (List Term)
  | [] => return []
  | item :: items => do
    let term ← meaning item
    return term.toList ++ (← itemMeanings items)
termination_by structural items => items

/-- The meanings of the entries of an object that have one, under keys that occur for the first
time. -/
def entryMeanings (seen : List String) :
    List (Key × RawValue) → Verdict (List (String × Term))
  | [] => return []
  | (key, item) :: entries => do
    if key.text ∈ seen then
      reported s!"duplicate key '{key.text}'" key.location
      entryMeanings seen entries
    else
      let term ← meaning item
      return (term.map (key.text, ·)).toList ++ (← entryMeanings (key.text :: seen) entries)
termination_by structural entries => entries

/-- The meanings of operands in their roles; none if any of them has no meaning. -/
def operandMeanings (tag : String) (roles : List Role) :
    List RawValue → Verdict (Option (List Term))
  | [] => return some []
  | item :: items => do
    let term ← match roles.head? with
      | some .text => textMeaning tag item
      | some .conditionName => nameMeaning tag item
      | some .parameters =>
        match item with
        | .mapping none _ entries => do pure (some (.object (← entryMeanings [] entries)))
        | item => refuse s!"{tag} second parameter must be a map" item.location
      | _ => meaning item
    match term with
    | none => return none
    | some term => return (← operandMeanings tag roles.tail items).map (term :: ·)
termination_by structural items => items

/-- The meaning of the first `Parameters` entry, a mapping. -/
def parametersMeaning : List (Key × RawValue) → Verdict (Option Term)
  | [] => return none
  | (key, item) :: entries =>
    if key.text = "Parameters" then
      match item with
      | .mapping _ _ entries => do return some (.object (← entryMeanings [] entries))
      | _ => return none
    else parametersMeaning entries
termination_by structural entries => entries

end

/-! ## Conditions -/

/-- The meaning of `!And` or `!Or` over the meanings of its operands, if it may have that many. -/
def connectiveMeaning (c : ConditionName) (tag : String) (location : Location) (count : Nat)
    (operands : Verdict (Option (List Term))) : Verdict (Option Term) :=
  if count < minConditionOperands ∨ maxConditionOperands < count then
    refuse s!"{tag} expects between {minConditionOperands} and {maxConditionOperands} parameters"
      location
  else do return (← operands).map (.condition c)

mutual

/-- The meaning of a condition. -/
def conditionMeaning : RawValue → Verdict (Option Term)
  | .scalar none _ text => return some (.named text)
  | .scalar (some tag) location text =>
    match ConditionName.ofTag? tag with
    | none => refuse s!"unknown condition tag '{tag}'" location
    | some .reference => return some (.named text)
    | some .existence => return some (.condition .existence [.text text])
    | some _ => refuse (invalidParameters tag) location
  | .sequence none location _ =>
    refuse "expected a condition name or condition function" location
  | .sequence (some tag) location items =>
    match ConditionName.ofTag? tag, items with
    | none, _ => refuse s!"unknown condition tag '{tag}'" location
    | some .and, items => connectiveMeaning .and tag location items.length (conditionMeanings items)
    | some .or, items => connectiveMeaning .or tag location items.length (conditionMeanings items)
    | some .not, [operand] => do
      return (← conditionMeaning operand).map fun operand => .condition .not [operand]
    | some .not, _ => refuse (wrongCount tag 1) location
    | some .equals, [left, right] => do
      let left ← meaning left
      let right ← meaning right
      match left, right with
      | some left, some right => return some (.condition .equals [left, right])
      | _, _ => return none
    | some .equals, _ => refuse (wrongCount tag 2) location
    | some _, _ => refuse (invalidParameters tag) location
  | .mapping none location _ =>
    refuse "expected a condition name or condition function" location
  | .mapping (some tag) location _ =>
    match ConditionName.ofTag? tag with
    | none => refuse s!"unknown condition tag '{tag}'" location
    | some _ => refuse (invalidParameters tag) location
termination_by structural r => r

/-- The meanings of conditions; none if any of them has no meaning. -/
def conditionMeanings : List RawValue → Verdict (Option (List Term))
  | [] => return some []
  | item :: items => do
    match ← conditionMeaning item with
    | none => return none
    | some term => return (← conditionMeanings items).map (term :: ·)
termination_by structural items => items

end

end Resolve

end InfraModule
