import InfraModule.Proofs.Resolve.Value
import InfraModule.Proofs.Tree.Graft

/-!
# Resolving behind a tree

What resolving makes of a value does not depend on what was built before: behind other nodes and
other diagnostics it gives the same nodes with their ids shifted, and reports the same mistakes
(`BuildM.Shifts`).
-/

namespace InfraModule

/-- What was built and told, and what was built and told after it. -/
def Build.graft (b c : Build) : Build :=
  ⟨b.tree.graft c.tree, ⟨b.diagnostics.messages ++ c.diagnostics.messages⟩⟩

namespace BuildM

variable {α α' β β' : Type} {b : Build}

/-- Where the one succeeds alone, the other does the same behind `b`: it gives `f` of the answer. -/
def Carries (b : Build) (m : BuildM α) (m' : BuildM β) (f : α → β) : Prop :=
  ∀ c, c.tree.Loose → ∀ a d, m c = .ok a d → m' (b.graft c) = .ok (f a) (b.graft d) ∧ d.tree.Loose

/-- Behind `b` the step gives the same node as alone, with its id shifted. -/
abbrev Shifts (b : Build) (m : BuildM (Option NodeId)) : Prop :=
  Carries b m m (Option.map b.tree.shift)

namespace Carries

variable {m : BuildM α} {m' : BuildM α'} {f : α → α'}

/-- To return corresponding answers carries over. -/
theorem pure {a : α} {a' : α'} (h : f a = a') :
    Carries b (Pure.pure a) (Pure.pure a') f := by
  intro c hc x d hok
  cases hok
  exact ⟨h ▸ rfl, hc⟩

/-- Two steps in a row carry over if both do. -/
theorem bind {k : α → BuildM β} {k' : α' → BuildM β'} {h : β → β'} (hm : Carries b m m' f)
    (hk : ∀ a, Carries b (k a) (k' (f a)) h) : Carries b (m >>= k) (m' >>= k') h := by
  intro c hc a d hok
  cases hmc : m c with
  | error e u =>
    rw [Result.bind_of_error hmc] at hok
    cases hok
  | ok x u =>
    rw [Result.bind_of_ok hmc] at hok
    obtain ⟨hfirst, hu⟩ := hm c hc x u hmc
    rw [Result.bind_of_ok hfirst]
    exact hk x u hu a d hok

/-- Functions that agree on corresponding answers carry over. -/
theorem map {g : α → β} {g' : α' → β'} {h : β → β'} (hm : Carries b m m' f)
    (hg : ∀ a, h (g a) = g' (f a)) : Carries b (g <$> m) (g' <$> m') h := by
  rw [map_eq_pure_bind, map_eq_pure_bind]
  exact hm.bind fun a => pure (hg a)

/-- An operation on the tree carries over as a step if it does as an operation. -/
theorem onTree {operation : TreeM α} {operation' : TreeM α'}
    (h : TreeM.Carries b.tree operation operation' f) :
    Carries b (onTree operation) (onTree operation') f := by
  intro c hc a d hok
  obtain ⟨tree, diagnostics⟩ := c
  simp only [BuildM.onTree] at hok
  cases hop : operation tree with
  | error e u => simp [hop] at hok
  | ok x u =>
    rw [hop] at hok
    cases hok
    obtain ⟨hbehind, hu⟩ := h tree hc a u hop
    exact ⟨by simp only [BuildM.onTree, Build.graft, hbehind], hu⟩

/-- A report carries over; it comes behind those before. -/
theorem report (message : String) (l : Location) :
    Carries b (report message l) (report message l) id := by
  intro c hc a d hok
  cases hok
  refine ⟨?_, hc⟩
  change EStateM.Result.ok _ _ = EStateM.Result.ok _ _
  simp [Build.graft, Diagnostics.error, Diagnostics.push]

end Carries

/-! ## Making nodes -/

section Nodes

variable (hb : b.tree.Sound)

include hb

/-- An expression without target is added behind `b` with its operands shifted. -/
theorem carries_add {e e' : Expression} (he : e.mapChildren b.tree.shift = e')
    (htarget : e.target = none) (l : Location) : Carries b (add e l) (add e' l) b.tree.shift :=
  Carries.onTree (he ▸ TreeM.carries_add hb (n := .expression e) htarget l)

/-- A text is added behind `b` as it is alone. -/
theorem carries_addText (text : String) (l : Location) :
    Carries b (addText text l) (addText text l) b.tree.shift :=
  carries_add hb rfl rfl l

/-- A call without target is added behind `b` with its operands shifted. -/
theorem carries_addCall {call call' : Call} (hcall : call.mapOperands b.tree.shift = call')
    (htarget : call.target = none) (l : Location) :
    Carries b (addCall call l) (addCall call' l) (Option.map b.tree.shift) :=
  (carries_add (e := .call call) hb (congrArg Expression.call hcall) htarget l).map fun _ => rfl

/-- A condition without target is added behind `b` with its operands shifted. -/
theorem carries_addCondition {condition condition' : Condition}
    (hcondition : condition.mapOperands b.tree.shift = condition')
    (htarget : condition.target = none) (l : Location) :
    Carries b (addCondition condition l) (addCondition condition' l)
      (Option.map b.tree.shift) :=
  (carries_add (e := .condition condition) hb (congrArg Expression.condition hcondition) htarget
    l).map fun _ => rfl

/-- An entry is inserted behind `b` with the object and the value shifted. -/
theorem carries_insertEntry (object : NodeId) (key : Key) (child : NodeId) :
    Carries b (discard <| onTree (.insertEntry object key child))
      (discard <| onTree (.insertEntry (b.tree.shift object) key (b.tree.shift child))) id :=
  Carries.map (Carries.onTree (TreeM.carries_insertEntry hb object key child)) fun _ => rfl

/-- A named condition is added behind `b` as it is alone. -/
theorem carries_addNamedCondition (name : String) (l : Location) :
    Carries b (addNamedCondition name l) (addNamedCondition name l) b.tree.shift :=
  (carries_addText hb name l).bind fun _ => carries_add hb rfl rfl l

end Nodes

/-- Where no node is given, none is given behind `b`. -/
theorem shifts_none : Shifts b (pure none) :=
  Carries.pure rfl

/-- A refusal behind `b` is the refusal alone. -/
theorem shifts_refuse (message : String) (l : Location) : Shifts b (refuse message l) :=
  (Carries.report message l).bind fun _ => shifts_none

end BuildM

/-- A function is called on renamed operands as it is on the operands. -/
theorem Call.ofOperands?_map (f : FunctionName) (ids : List NodeId) (target : Option NodeId)
    {g : NodeId → NodeId} :
    ofOperands? f (ids.map g) target = (ofOperands? f ids target).map (mapOperands g) := by
  cases f <;>
    match ids with
    | [] | [_] | [_, _] | [_, _, _] | _ :: _ :: _ :: _ :: _ => rfl

/-- A call that is made of operands alone has no target. -/
theorem Call.target_of_ofOperands? {f : FunctionName} {ids : List NodeId} {call : Call}
    (h : ofOperands? f ids none = some call) : call.target = none := by
  unfold ofOperands? at h
  split at h <;> cases h <;> rfl

namespace Resolve

open BuildM

variable {b : Build} (hb : b.tree.Sound)

include hb

/-! ## Operands -/

/-- A function on a scalar gives the same call behind `b`, shifted. -/
theorem shifts_onScalar (f : FunctionName) (l : Location) (text : String) :
    Shifts b (onScalar f l text) := by
  cases f with
  | getAtt =>
    refine (carries_addText hb _ l).bind fun resource => ?_
    refine (carries_addText hb _ l).bind fun name => ?_
    exact carries_addCall hb rfl rfl l
  | sub | ref | base64 | getAzs | importValue =>
    exact (carries_addText hb text l).bind fun _ => carries_addCall hb rfl rfl l
  | _ => exact shifts_refuse _ l

/-- An operand that is a text gives the same node behind `b`, shifted. -/
theorem shifts_textOperand (tag : String) (operand : RawValue) :
    Shifts b (textOperand tag operand) := by
  unfold textOperand
  split
  · exact (carries_addText hb _ _).map fun _ => rfl
  · exact shifts_refuse _ _

/-- An operand that names a condition gives the same node behind `b`, shifted. -/
theorem shifts_conditionNameOperand (tag : String) (operand : RawValue) :
    Shifts b (conditionNameOperand tag operand) := by
  unfold conditionNameOperand
  split
  · exact (carries_addNamedCondition hb _ _).map fun _ => rfl
  · exact shifts_refuse _ _

omit hb in
/-- What a `!Transform` mapping lacks does not depend on what was built. -/
theorem carries_checkTransform (l : Location) (entries : List (Key × RawValue)) :
    Carries b (checkTransform l entries) (checkTransform l entries) id := by
  have hfail (message : String) (l : Location) : Carries b
      (do report message l; return (none : Option (String × Location)))
      (do report message l; return none) id :=
    (Carries.report message l).bind fun _ => Carries.pure rfl
  unfold checkTransform
  dsimp only
  split
  · exact hfail _ l
  · split
    · exact hfail _ _
    · split
      · exact hfail _ l
      · split
        · exact Carries.pure rfl
        · exact hfail _ _

/-! ## Filling lists and objects -/

/-- A list behind `b` is filled as it is alone, if its items are made so. -/
theorem carries_valueItems {items : List RawValue} (h : ∀ r ∈ items, Shifts b (value r))
    (list : NodeId) :
    Carries b (valueItems list items) (valueItems (b.tree.shift list) items) id := by
  induction items with
  | nil =>
    rw [valueItems, valueItems]
    exact Carries.pure rfl
  | cons item items ih =>
    obtain ⟨hitem, hitems⟩ := List.forall_mem_cons.mp h
    rw [valueItems, valueItems]
    refine hitem.bind fun given => ?_
    cases given with
    | none => exact ih hitems
    | some child =>
      exact (Carries.onTree (TreeM.carries_pushChild hb list child)).bind fun _ => ih hitems

/-- An object behind `b` is filled as it is alone, if its values are made so. -/
theorem carries_valueEntries {entries : List (Key × RawValue)}
    (h : ∀ entry ∈ entries, Shifts b (value entry.2)) (object : NodeId) (seen : List String) :
    Carries b (valueEntries object seen entries)
      (valueEntries (b.tree.shift object) seen entries) id := by
  induction entries generalizing seen with
  | nil =>
    rw [valueEntries, valueEntries]
    exact Carries.pure rfl
  | cons entry entries ih =>
    obtain ⟨key, item⟩ := entry
    obtain ⟨hitem, hentries⟩ := List.forall_mem_cons.mp h
    rw [valueEntries, valueEntries]
    split
    · exact (Carries.report _ _).bind fun _ => ih hentries seen
    · refine hitem.bind fun given => ?_
      cases given with
      | none => exact ih hentries _
      | some child =>
        exact (carries_insertEntry hb object key child).bind fun _ => ih hentries _

/-- A list is made empty and then filled. -/
theorem shifts_filledList {k : NodeId → BuildM (Option NodeId)} {items : List RawValue}
    (h : ∀ r ∈ items, Shifts b (value r))
    (hk : ∀ list, Carries b (k list) (k (b.tree.shift list)) (Option.map b.tree.shift))
    (l : Location) :
    Shifts b (do let list ← add (.list []) l; valueItems list items; k list) :=
  (carries_add hb rfl rfl l).bind fun list => (carries_valueItems hb h list).bind fun _ => hk list

/-- An object is made empty and then filled. -/
theorem shifts_filledObject {k : NodeId → BuildM (Option NodeId)}
    {entries : List (Key × RawValue)} (h : ∀ entry ∈ entries, Shifts b (value entry.2))
    (hk : ∀ object, Carries b (k object) (k (b.tree.shift object)) (Option.map b.tree.shift))
    (l : Location) :
    Shifts b (do let object ← add (.object []) l; valueEntries object [] entries; k object) :=
  (carries_add hb rfl rfl l).bind fun object =>
    (carries_valueEntries hb h object []).bind fun _ => hk object

/-- A list is made behind `b` as it is alone. -/
theorem shifts_list {items : List RawValue} (h : ∀ r ∈ items, Shifts b (value r)) (l : Location) :
    Shifts b (do let list ← add (.list []) l; valueItems list items; return some list) :=
  shifts_filledList hb h (fun _ => Carries.pure rfl) l

/-- An object is made behind `b` as it is alone. -/
theorem shifts_object {entries : List (Key × RawValue)}
    (h : ∀ entry ∈ entries, Shifts b (value entry.2)) (l : Location) :
    Shifts b (do
      let object ← add (.object []) l
      valueEntries object [] entries
      return some object) :=
  shifts_filledObject hb h (fun _ => Carries.pure rfl) l

/-! ## Operands in their roles -/

/-- The value, and the object of its entries if it has some, do not depend on what was built. -/
def Shiftable (b : Build) (r : RawValue) : Prop :=
  Shifts b (value r) ∧
    ∀ tag l entries, r = .mapping tag l entries → ∀ entry ∈ entries, Shifts b (value entry.2)

/-- An operand in a role gives the same node behind `b`, shifted. -/
theorem shifts_operand {item : RawValue} (h : Shiftable b item) (tag : String)
    (role : Option Role) : Shifts b (operand tag role item) := by
  match role, item with
  | none, _ | some .value, _ => exact h.1
  | some .text, item => exact shifts_textOperand hb tag item
  | some .conditionName, item => exact shifts_conditionNameOperand hb tag item
  | some .parameters, .mapping none l entries =>
    exact shifts_object hb (h.2 _ _ _ rfl) l
  | some .parameters, .mapping (some _) .. | some .parameters, .scalar ..
  | some .parameters, .sequence .. => exact shifts_refuse _ _

/-- Operands in their roles give the same nodes behind `b`, shifted. -/
theorem carries_operands {items : List RawValue} (h : ∀ r ∈ items, Shiftable b r) (tag : String)
    (roles : List Role) : Carries b (operands tag roles items) (operands tag roles items)
      (Option.map (List.map b.tree.shift)) := by
  induction items generalizing roles with
  | nil =>
    rw [operands]
    exact Carries.pure rfl
  | cons item items ih =>
    obtain ⟨hitem, hitems⟩ := List.forall_mem_cons.mp h
    rw [operands_cons]
    refine (shifts_operand hb hitem tag roles.head?).bind fun given => ?_
    cases given with
    | none => exact Carries.pure rfl
    | some first =>
      refine (ih hitems roles.tail).bind fun others => Carries.pure ?_
      cases others <;> rfl

/-- The parameters of a `!Transform` give the same node behind `b`, shifted. -/
theorem shifts_transformParameters {entries : List (Key × RawValue)}
    (h : ∀ entry ∈ entries, Shiftable b entry.2) : Shifts b (transformParameters entries) := by
  induction entries with
  | nil =>
    rw [transformParameters]
    exact shifts_none
  | cons entry entries ih =>
    obtain ⟨key, item⟩ := entry
    obtain ⟨hitem, hentries⟩ := List.forall_mem_cons.mp h
    unfold transformParameters
    by_cases hkey : key.text = "Parameters"
    · rw [if_pos hkey]
      cases item with
      | mapping tag l entries => exact shifts_object hb (hitem.2 _ _ _ rfl) l
      | scalar tag l text => exact shifts_none
      | sequence tag l items => exact shifts_none
    · rw [if_neg hkey]
      exact ih hentries

/-! ## Values -/

/-- A function on any value gives the same call behind `b`, shifted. -/
theorem shifts_addCall_ofAnyValue {f : FunctionName} {call : NodeId → Call}
    (hcall : f.ofAnyValue? = some call) (operand : NodeId) (l : Location) :
    Carries b (addCall (call operand) l) (addCall (call (b.tree.shift operand)) l)
      (Option.map b.tree.shift) := by
  cases f <;> cases hcall <;> exact carries_addCall hb rfl rfl l

/-- A function that takes any value is called on the object of a mapping. -/
theorem shifts_callOnObject {f : FunctionName} {call : NodeId → Call}
    (hcall : f.ofAnyValue? = some call) {entries : List (Key × RawValue)}
    (h : ∀ entry ∈ entries, Shifts b (value entry.2)) (l : Location) :
    Shifts b (do
      let object ← add (.object []) l
      valueEntries object [] entries
      addCall (call object) l) :=
  shifts_filledObject hb h (fun object => shifts_addCall_ofAnyValue hb hcall object l) l

/-- Out of a sequence under a tag that has a signature, the call is made. -/
theorem shifts_call (f : FunctionName) {items : List RawValue}
    (h : ∀ r ∈ items, Shiftable b r) (tag : String) (roles : List Role) (l : Location) :
    Shifts b (do
      if roles.length ≠ items.length then refuse (wrongCount tag roles.length) l
      else
        match (← operands tag roles items).bind (Call.ofOperands? f · none) with
        | some call => addCall call l
        | none => return none) := by
  split
  · exact shifts_refuse _ l
  · refine (carries_operands hb h tag roles).bind fun given => ?_
    cases given with
    | none => exact shifts_none
    | some ids =>
      simp only [Option.map_some, Option.bind_some, Call.ofOperands?_map]
      cases hcall : Call.ofOperands? f ids none with
      | none => exact shifts_none
      | some call => exact carries_addCall hb rfl (Call.target_of_ofOperands? hcall) l

/-- Out of a mapping under the tag of `!Transform`, the call is made. -/
theorem shifts_transform {entries : List (Key × RawValue)}
    (h : ∀ entry ∈ entries, Shiftable b entry.2) (l : Location) :
    Shifts b (do
      match ← checkTransform l entries with
      | none => return none
      | some (name, nameLocation) =>
        let name ← addText name nameLocation
        match ← transformParameters entries with
        | none => return none
        | some parameters => addCall (.transform name parameters) l) := by
  refine (carries_checkTransform l entries).bind fun checked => ?_
  match checked with
  | none => exact shifts_none
  | some (name, nameLocation) =>
    refine (carries_addText hb name nameLocation).bind fun name => ?_
    refine (shifts_transformParameters hb h).bind fun given => ?_
    cases given with
    | none => exact shifts_none
    | some parameters => exact carries_addCall hb rfl rfl l

/-- What a value becomes does not depend on what was built before. -/
theorem shifts_value (r : RawValue) : Shifts b (value r) := by
  -- What is made of the entries of a mapping is carried along, for the tags that use them directly.
  suffices Shiftable b r from this.1
  induction r using RawValue.induction with
  | scalar tag l text =>
    refine ⟨?_, by simp⟩
    cases tag with
    | none => exact (carries_addText hb text l).map fun _ => rfl
    | some tag =>
      rw [value]
      cases FunctionName.ofTag? tag with
      | none => exact shifts_refuse _ l
      | some f => exact shifts_onScalar hb f l text
  | sequence tag l items ih =>
    refine ⟨?_, by simp⟩
    have hitems (r : RawValue) (hr : r ∈ items) : Shifts b (value r) := (ih r hr).1
    cases tag with
    | none =>
      rw [value]
      exact shifts_list hb hitems l
    | some tag =>
      rw [value]
      cases FunctionName.ofTag? tag with
      | none => exact shifts_refuse _ l
      | some f =>
        dsimp only
        cases hcall : f.ofAnyValue? with
        | some call =>
          exact shifts_filledList hb hitems
            (fun list => shifts_addCall_ofAnyValue hb hcall list l) l
        | none =>
          cases f.signature with
          | some roles => exact shifts_call hb f ih tag roles l
          | none => exact shifts_refuse _ l
  | mapping tag l entries ih =>
    have hentries (entry : Key × RawValue) (h : entry ∈ entries) : Shifts b (value entry.2) :=
      (ih entry h).1
    refine ⟨?_, fun tag' l' entries' h => by cases h; exact hentries⟩
    cases tag with
    | none =>
      rw [value]
      exact shifts_object hb hentries l
    | some tag =>
      rw [value]
      cases FunctionName.ofTag? tag with
      | none => exact shifts_refuse _ l
      | some f =>
        cases f with
        | transform => exact shifts_transform hb ih l
        | base64 => exact shifts_callOnObject hb (f := .base64) rfl hentries l
        | getAzs => exact shifts_callOnObject hb (f := .getAzs) rfl hentries l
        | importValue => exact shifts_callOnObject hb (f := .importValue) rfl hentries l
        | _ => exact shifts_refuse _ l

/-! ## Conditions -/

omit hb in
/-- Whether a connective has a wrong number of operands does not depend on what was built. -/
theorem carries_wrongConditionCount (tag : String) (l : Location) (count : Nat) :
    Carries b (wrongConditionCount tag l count) (wrongConditionCount tag l count) id := by
  unfold wrongConditionCount
  split
  · exact (Carries.report _ l).bind fun _ => Carries.pure rfl
  · exact Carries.pure rfl

omit hb in
/-- Conditions give the same nodes behind `b`, shifted. -/
theorem carries_allConditions {items : List RawValue}
    (h : ∀ r ∈ items, Shifts b (condition r)) :
    Carries b (allConditions items) (allConditions items) (Option.map (List.map b.tree.shift)) := by
  induction items with
  | nil =>
    rw [allConditions]
    exact Carries.pure rfl
  | cons item items ih =>
    obtain ⟨hitem, hitems⟩ := List.forall_mem_cons.mp h
    rw [allConditions]
    refine hitem.bind fun given => ?_
    cases given with
    | none => exact Carries.pure rfl
    | some first =>
      refine (ih hitems).bind fun others => Carries.pure ?_
      cases others <;> rfl

/-- `!And` and `!Or` are made over their items, if these are neither too few nor too many. -/
theorem shifts_connective (connective : List NodeId → Condition)
    (hmap : ∀ ids, (connective ids).mapOperands b.tree.shift = connective (ids.map b.tree.shift))
    (htarget : ∀ ids, (connective ids).target = none) {items : List RawValue}
    (h : ∀ r ∈ items, Shifts b (condition r)) (tag : String) (l : Location) :
    Shifts b (do
      if ← wrongConditionCount tag l items.length then return none
      match ← allConditions items with
      | some operands => addCondition (connective operands) l
      | none => return none) := by
  refine (carries_wrongConditionCount tag l items.length).bind fun wrong => ?_
  cases wrong with
  | true => exact shifts_none
  | false =>
    refine (carries_allConditions h).bind fun given => ?_
    cases given with
    | none => exact shifts_none
    | some ids => exact carries_addCondition hb (hmap ids) (htarget ids) l

/-- What a condition becomes does not depend on what was built before. -/
theorem shifts_condition (r : RawValue) : Shifts b (condition r) := by
  induction r using RawValue.induction with
  | scalar tag l text =>
    have hname : Shifts b (some <$> addNamedCondition text l) :=
      (carries_addNamedCondition hb text l).map fun _ => rfl
    cases tag with
    | none => exact hname
    | some tag =>
      rw [condition]
      match ConditionName.ofTag? tag with
      | some .reference => exact hname
      | some .existence =>
        exact (carries_addText hb text l).bind fun name => carries_addCondition hb rfl rfl l
      | none | some .and | some .or | some .not | some .equals => exact shifts_refuse _ l
  -- A sequence is a connective, a negation or a comparison, by its tag and its length.
  | sequence tag l items ih =>
    cases tag with
    | none => exact shifts_refuse _ l
    | some tag =>
      unfold condition
      match ConditionName.ofTag? tag, items with
      | some .and, items =>
        exact shifts_connective hb .and (fun _ => rfl) (fun _ => rfl) ih tag l
      | some .or, items =>
        exact shifts_connective hb .or (fun _ => rfl) (fun _ => rfl) ih tag l
      | some .not, [operand] =>
        refine (ih operand List.mem_cons_self).bind fun given => ?_
        cases given with
        | none => exact shifts_none
        | some operand => exact carries_addCondition hb rfl rfl l
      | some .equals, [left, right] =>
        refine (shifts_value hb left).bind fun given => ?_
        refine (shifts_value hb right).bind fun given' => ?_
        match given, given' with
        | some left, some right => exact carries_addCondition hb rfl rfl l
        | none, _ | some _, none => exact shifts_none
      | some .not, [] | some .not, _ :: _ :: _ | some .equals, [] | some .equals, [_]
      | some .equals, _ :: _ :: _ :: _ | some .reference, _ | some .existence, _ | none, _ =>
        exact shifts_refuse _ l
  | mapping tag l entries ih =>
    cases tag with
    | none => exact shifts_refuse _ l
    | some tag =>
      rw [condition]
      cases ConditionName.ofTag? tag with
      | none | some c => exact shifts_refuse _ l

end Resolve

end InfraModule
