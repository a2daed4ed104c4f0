import InfraModule.Proofs.Resolve.Value

/-!
# What steps of building tell

A step of building reports by appending to what was told and takes nothing back (`BuildM.Tells`).
That holds in any tree, sound or not, and of steps that fail as well, so that what was told at one
point can be found in what has been told at any later one. Giving meaning to a value or a condition
is such a step.
-/

namespace InfraModule

open Result

namespace BuildM

variable {α β : Type}

/-- Whether it succeeds or fails, the step only adds to what was told. -/
def Tells (m : BuildM α) : Prop :=
  ∀ b : Build, ∃ mistakes, b.Told mistakes (final (m b))

namespace Tells

variable {m : BuildM α}

/-- To return a value tells nothing. -/
theorem pure (a : α) : Tells (Pure.pure a : BuildM α) := fun b => ⟨[], b.told_refl⟩

/-- Two steps in a row only add to what was told if both do. -/
theorem bind {f : α → BuildM β} (hm : Tells m) (hf : ∀ a, Tells (f a)) : Tells (m >>= f) := by
  intro b
  obtain ⟨mistakes, htold⟩ := hm b
  cases hmb : m b with
  | error e b' =>
    rw [bind_of_error hmb]
    rw [hmb] at htold
    exact ⟨mistakes, htold⟩
  | ok a b' =>
    rw [bind_of_ok hmb]
    rw [hmb] at htold
    obtain ⟨later, hlater⟩ := hf a b'
    exact ⟨mistakes ++ later, htold.trans hlater⟩

/-- What a function makes of the answer tells nothing more. -/
theorem map (f : α → β) (hm : Tells m) : Tells (f <$> m) := by
  rw [map_eq_pure_bind]
  exact hm.bind fun a => pure (f a)

/-- A report is added to what was told. -/
theorem report (message : String) (l : Location) : Tells (report message l) :=
  fun _ => ⟨[⟨.error, message, l⟩], Diagnostics.toList_error ..⟩

/-- An operation on the tree tells nothing. -/
theorem onTree (operation : TreeM α) : Tells (onTree operation) := by
  intro b
  obtain ⟨tree, diagnostics⟩ := b
  refine ⟨[], ?_⟩
  rw [Build.Told, List.append_nil, BuildM.onTree]
  cases operation tree <;> rfl

/-- To add an expression tells nothing. -/
theorem add (expression : Expression) (l : Location) : Tells (add expression l) :=
  onTree _

/-- To give no node tells nothing. -/
theorem none : Tells (Pure.pure .none : BuildM (Option NodeId)) := pure _

/-- A refusal is added to what was told. -/
theorem refuse (message : String) (l : Location) : Tells (refuse message l) :=
  (report message l).bind fun _ => none

/-- To add a text tells nothing. -/
theorem addText (text : String) (l : Location) : Tells (addText text l) :=
  add _ l

/-- To add a call tells nothing. -/
theorem addCall (call : Call) (l : Location) : Tells (addCall call l) :=
  (add _ l).map _

/-- To add a condition tells nothing. -/
theorem addCondition (condition : Condition) (l : Location) : Tells (addCondition condition l) :=
  (add _ l).map _

/-- To add a named condition tells nothing. -/
theorem addNamedCondition (name : String) (l : Location) : Tells (addNamedCondition name l) :=
  (addText name l).bind fun _ => add _ l

end Tells

end BuildM

namespace Resolve

open BuildM

/-! ## Operands -/

/-- A function on a scalar only adds to what was told. -/
theorem tells_onScalar (f : FunctionName) (l : Location) (text : String) :
    Tells (onScalar f l text) := by
  cases f with
  | getAtt => exact (Tells.addText _ l).bind fun _ => (Tells.addText _ l).bind fun _ => .addCall _ l
  | sub | ref | base64 | getAzs | importValue =>
    exact (Tells.addText text l).bind fun _ => .addCall _ l
  | _ => exact .refuse _ l

/-- An operand that is to be a text only adds to what was told. -/
theorem tells_textOperand (tag : String) (operand : RawValue) : Tells (textOperand tag operand) := by
  unfold textOperand
  split
  · exact (Tells.addText _ _).map _
  · exact .refuse _ _

/-- An operand that is to name a condition only adds to what was told. -/
theorem tells_conditionNameOperand (tag : String) (operand : RawValue) :
    Tells (conditionNameOperand tag operand) := by
  unfold conditionNameOperand
  split
  · exact (Tells.addNamedCondition _ _).map _
  · exact .refuse _ _

/-- What a `!Transform` mapping lacks is added to what was told. -/
theorem tells_checkTransform (l : Location) (entries : List (Key × RawValue)) :
    Tells (checkTransform l entries) := by
  have hfail (message : String) (l : Location) :
      Tells (do report message l; return (none : Option (String × Location))) :=
    (Tells.report message l).bind fun _ => .pure _
  unfold checkTransform
  dsimp only
  split
  · exact hfail _ l
  · split
    · exact hfail _ _
    · split
      · exact hfail _ l
      · split
        · exact .pure _
        · exact hfail _ _

/-! ## Lists and objects -/

section Containers

variable {items : List RawValue} {entries : List (Key × RawValue)}

/-- Filling a list only adds to what was told if its items do. -/
theorem tells_valueItems (h : ∀ r ∈ items, Tells (value r)) (list : NodeId) :
    Tells (valueItems list items) := by
  induction items with
  | nil => exact .pure _
  | cons item items ih =>
    obtain ⟨hitem, hitems⟩ := List.forall_mem_cons.mp h
    rw [valueItems]
    refine hitem.bind fun given => ?_
    cases given with
    | none => exact ih hitems
    | some child => exact (Tells.onTree _).bind fun _ => ih hitems

/-- Filling an object only adds to what was told if its values do. -/
theorem tells_valueEntries (h : ∀ entry ∈ entries, Tells (value entry.2)) (object : NodeId)
    (seen : List String) : Tells (valueEntries object seen entries) := by
  induction entries generalizing seen with
  | nil => exact .pure _
  | cons entry entries ih =>
    obtain ⟨key, item⟩ := entry
    obtain ⟨hitem, hentries⟩ := List.forall_mem_cons.mp h
    rw [valueEntries]
    split
    · exact (Tells.report _ _).bind fun _ => ih hentries seen
    · refine hitem.bind fun given => ?_
      cases given with
      | none => exact ih hentries _
      | some child => exact ((Tells.onTree _).map _).bind fun _ => ih hentries _

/-- What is done with a list after filling it only adds to what was told. -/
theorem tells_filledList {f : NodeId → BuildM (Option NodeId)} (h : ∀ r ∈ items, Tells (value r))
    (hf : ∀ list, Tells (f list)) (l : Location) :
    Tells (do let list ← add (.list []) l; valueItems list items; f list) :=
  (Tells.add _ l).bind fun list => (tells_valueItems h list).bind fun _ => hf list

/-- What is done with an object after filling it only adds to what was told. -/
theorem tells_filledObject {f : NodeId → BuildM (Option NodeId)}
    (h : ∀ entry ∈ entries, Tells (value entry.2)) (hf : ∀ object, Tells (f object))
    (l : Location) :
    Tells (do let object ← add (.object []) l; valueEntries object [] entries; f object) :=
  (Tells.add _ l).bind fun object => (tells_valueEntries h object []).bind fun _ => hf object

/-! ## Operands in their roles -/

/-- Neither the value nor, if it is a mapping, its entries take back what was told. -/
def TellsAll (r : RawValue) : Prop :=
  Tells (value r) ∧ ∀ tag l entries, r = .mapping tag l entries →
    ∀ entry ∈ entries, Tells (value entry.2)

/-- An operand in a role only adds to what was told if its value does. -/
theorem tells_operand {item : RawValue} (h : TellsAll item) (tag : String) (role : Option Role) :
    Tells (operand tag role item) := by
  match role, item with
  | none, _ | some .value, _ => exact h.1
  | some .text, item => exact tells_textOperand tag item
  | some .conditionName, item => exact tells_conditionNameOperand tag item
  | some .parameters, .mapping none l entries =>
    exact tells_filledObject (h.2 _ _ _ rfl) (fun _ => .pure _) l
  | some .parameters, .mapping (some _) .. | some .parameters, .scalar ..
  | some .parameters, .sequence .. => exact .refuse _ _

/-- Operands in their roles only add to what was told if their values do. -/
theorem tells_operands (h : ∀ r ∈ items, TellsAll r) (tag : String) (roles : List Role) :
    Tells (operands tag roles items) := by
  induction items generalizing roles with
  | nil => exact .pure _
  | cons item items ih =>
    obtain ⟨hitem, hitems⟩ := List.forall_mem_cons.mp h
    rw [operands_cons]
    refine (tells_operand hitem tag roles.head?).bind fun given => ?_
    cases given with
    | none => exact .pure _
    | some first => exact (ih hitems roles.tail).map _

/-- The parameters of a `!Transform` only add to what was told if the values do. -/
theorem tells_transformParameters (h : ∀ entry ∈ entries, TellsAll entry.2) :
    Tells (transformParameters entries) := by
  induction entries with
  | nil => exact .none
  | cons entry entries ih =>
    obtain ⟨key, item⟩ := entry
    obtain ⟨hitem, hentries⟩ := List.forall_mem_cons.mp h
    unfold transformParameters
    split
    · cases item with
      | mapping tag l entries => exact tells_filledObject (hitem.2 _ _ _ rfl) (fun _ => .pure _) l
      | scalar | sequence => exact .none
    · exact ih hentries

/-! ## Values -/

/-- A call of operands in their roles only adds to what was told. -/
theorem tells_call (f : FunctionName) (h : ∀ r ∈ items, TellsAll r) (tag : String)
    (roles : List Role) (l : Location) :
    Tells (do
      if roles.length ≠ items.length then refuse (wrongCount tag roles.length) l
      else
        match (← operands tag roles items).bind (Call.ofOperands? f · none) with
        | some call => addCall call l
        | none => return none) := by
  split
  · exact .refuse _ l
  · refine (tells_operands h tag roles).bind fun given => ?_
    split
    · exact .addCall _ l
    · exact .none

/-- A `!Transform` only adds to what was told. -/
theorem tells_transform (h : ∀ entry ∈ entries, TellsAll entry.2) (l : Location) :
    Tells (do
      match ← checkTransform l entries with
      | none => return none
      | some (name, nameLocation) =>
        let name ← addText name nameLocation
        match ← transformParameters entries with
        | none => return none
        | some parameters => addCall (.transform name parameters) l) := by
  refine (tells_checkTransform l entries).bind fun checked => ?_
  split
  · exact .none
  · refine (Tells.addText _ _).bind fun name => (tells_transformParameters h).bind fun given => ?_
    split
    · exact .none
    · exact .addCall _ l

end Containers

/-- Giving meaning to a value takes nothing back. -/
theorem tells_value (r : RawValue) : Tells (value r) := by
  suffices TellsAll r from this.1
  induction r using RawValue.induction with
  | scalar tag l text =>
    refine ⟨?_, by simp⟩
    cases tag with
    | none => exact (Tells.addText text l).map _
    | some tag =>
      rw [value]
      split
      · exact .refuse _ l
      · exact tells_onScalar _ l text
  | sequence tag l items ih =>
    refine ⟨?_, by simp⟩
    have hitems : ∀ r ∈ items, Tells (value r) := fun r hr => (ih r hr).1
    cases tag with
    | none =>
      rw [value]
      exact tells_filledList hitems (fun _ => .pure _) l
    | some tag =>
      rw [value]
      split
      · exact .refuse _ l
      · split
        · exact tells_filledList hitems (fun _ => .addCall _ l) l
        · exact tells_call _ ih tag _ l
        · exact .refuse _ l
  | mapping tag l entries ih =>
    have hentries : ∀ entry ∈ entries, Tells (value entry.2) := fun entry h => (ih entry h).1
    refine ⟨?_, fun tag' l' entries' h => by cases h; exact hentries⟩
    cases tag with
    | none =>
      rw [value]
      exact tells_filledObject hentries (fun _ => .pure _) l
    | some tag =>
      rw [value]
      split
      · exact .refuse _ l
      · exact tells_transform ih l
      · split
        · exact tells_filledObject hentries (fun _ => .addCall _ l) l
        · exact .refuse _ l

/-! ## Conditions -/

/-- A wrong number of operands is added to what was told. -/
theorem tells_wrongConditionCount (tag : String) (l : Location) (count : Nat) :
    Tells (wrongConditionCount tag l count) := by
  unfold wrongConditionCount
  split
  · exact (Tells.report _ l).bind fun _ => .pure _
  · exact .pure _

/-- Conditions only add to what was told if each does. -/
theorem tells_allConditions {items : List RawValue} (h : ∀ r ∈ items, Tells (condition r)) :
    Tells (allConditions items) := by
  induction items with
  | nil => exact .pure _
  | cons item items ih =>
    obtain ⟨hitem, hitems⟩ := List.forall_mem_cons.mp h
    rw [allConditions]
    refine hitem.bind fun given => ?_
    cases given with
    | none => exact .pure _
    | some first => exact (ih hitems).map _

/-- A connective only adds to what was told if its operands do. -/
theorem tells_connective (connective : List NodeId → Condition) {items : List RawValue}
    (h : ∀ r ∈ items, Tells (condition r)) (tag : String) (l : Location) :
    Tells (do
      if ← wrongConditionCount tag l items.length then return none
      match ← allConditions items with
      | some operands => addCondition (connective operands) l
      | none => return none) := by
  refine (tells_wrongConditionCount tag l items.length).bind fun wrong => ?_
  cases wrong with
  | true => exact .none
  | false =>
    refine (tells_allConditions h).bind fun given => ?_
    cases given with
    | none => exact .none
    | some ids => exact .addCondition _ l

/-- Giving meaning to a condition takes nothing back. -/
theorem tells_condition (r : RawValue) : Tells (condition r) := by
  induction r using RawValue.induction with
  | scalar tag l text =>
    have hname : Tells (some <$> addNamedCondition text l) := (Tells.addNamedCondition text l).map _
    cases tag with
    | none => exact hname
    | some tag =>
      rw [condition]
      split
      · exact .refuse _ l
      · exact hname
      · exact (Tells.addText text l).bind fun _ => .addCondition _ l
      · exact .refuse _ l
  | sequence tag l items ih =>
    cases tag with
    | none => exact .refuse _ l
    | some tag =>
      unfold condition
      split
      · exact .refuse _ l
      · exact tells_connective .and ih tag l
      · exact tells_connective .or ih tag l
      · refine (ih _ List.mem_cons_self).bind fun given => ?_
        cases given with
        | none => exact .none
        | some operand => exact .addCondition _ l
      · exact .refuse _ l
      · refine (tells_value _).bind fun left => (tells_value _).bind fun right => ?_
        split
        · exact .addCondition _ l
        · exact .none
      · exact .refuse _ l
      · exact .refuse _ l
  | mapping tag l entries =>
    cases tag with
    | none => exact .refuse _ l
    | some tag =>
      rw [condition]
      split <;> exact .refuse _ l

end Resolve

end InfraModule
