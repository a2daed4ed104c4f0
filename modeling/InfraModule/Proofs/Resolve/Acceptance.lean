import InfraModule.Proofs.Resolve.Shape

/-!
# What is accepted and what is reported

Resolving gives a node for exactly the values of an accepted shape, and the node is what the tag of
the value says. A value without a node is reported: at least one error is recorded.
-/

namespace InfraModule

open Result BuildM

/-! ## Mistakes -/

namespace Verdict

variable {α β : Type} {v : Verdict α}

/-- All mistakes are errors. -/
def OnlyErrors (v : Verdict α) : Prop :=
  ∀ d ∈ v.mistakes, d.severity = .error

/-- All mistakes are errors, and where there is no answer there is a mistake. -/
structure Reported (v : Verdict (Option α)) : Prop where
  /-- All mistakes are errors. -/
  onlyErrors : v.OnlyErrors
  /-- Without an answer there is a mistake. -/
  ne_nil : v.answer = none → v.mistakes ≠ []

/-- An answer without mistakes has only errors for mistakes. -/
theorem onlyErrors_pure (a : α) : (pure a : Verdict α).OnlyErrors := by
  simp [OnlyErrors]

/-- A mistake that is reported is an error. -/
theorem onlyErrors_reported (message : String) (l : Location) :
    (reported message l).OnlyErrors := by
  simp [OnlyErrors, reported]

/-- Two verdicts in a row have only errors for mistakes if both have. -/
theorem OnlyErrors.bind {f : α → Verdict β} (hv : v.OnlyErrors) (hf : (f v.answer).OnlyErrors) :
    (v >>= f).OnlyErrors := by
  rw [OnlyErrors, mistakes_bind]
  exact List.forall_mem_append.mpr ⟨hv, hf⟩

/-- An answer that is certain needs no mistake. -/
theorem OnlyErrors.bind_some {f : α → β} (hv : v.OnlyErrors) :
    (v >>= fun a => pure (some (f a)) : Verdict (Option β)).Reported :=
  ⟨hv.bind (onlyErrors_pure _), by simp⟩

/-- A node needs no report. -/
theorem reported_pure (a : α) : (pure (some a) : Verdict (Option α)).Reported :=
  ⟨onlyErrors_pure _, by simp⟩

/-- A refusal is reported. -/
theorem reported_refuse (message : String) (l : Location) :
    (refuse message l : Verdict (Option α)).Reported :=
  ⟨by simp [OnlyErrors], by simp⟩

/-- A verdict that rests on another has a mistake of the other where that has no answer. -/
theorem Reported.bind {v : Verdict (Option α)} {f : Option α → Verdict (Option β)}
    (hv : v.Reported) (hnone : (f none).mistakes = [])
    (hsome : ∀ a, v.answer = some a → (f (some a)).Reported) : (v >>= f).Reported := by
  cases hanswer : v.answer with
  | none =>
    refine ⟨hv.onlyErrors.bind ?_, fun _ => ?_⟩
    · simp [hanswer, OnlyErrors, hnone]
    · simpa [hanswer, hnone] using hv.ne_nil hanswer
  | some a =>
    have ha := hsome a hanswer
    refine ⟨hv.onlyErrors.bind (hanswer ▸ ha.onlyErrors), fun h => ?_⟩
    rw [answer_bind, hanswer] at h
    rw [mistakes_bind, hanswer]
    exact List.append_ne_nil_of_right_ne_nil _ (ha.ne_nil h)

/-- What a function makes of an answer needs no further report. -/
theorem Reported.map {v : Verdict (Option α)} (hv : v.Reported) (f : α → β) :
    (do return (← v).map f : Verdict (Option β)).Reported :=
  hv.bind rfl fun _ _ => reported_pure _

end Verdict

namespace Resolve

variable {items : List RawValue} {entries : List (Key × RawValue)}

open Verdict

/-- The meanings of items report only errors if that of each item does. -/
theorem onlyErrors_itemMeanings (h : ∀ r ∈ items, (meaning r).OnlyErrors) :
    (itemMeanings items).OnlyErrors := by
  induction items with
  | nil => exact onlyErrors_pure _
  | cons item items ih =>
    obtain ⟨hitem, hitems⟩ := List.forall_mem_cons.mp h
    rw [itemMeanings]
    exact hitem.bind ((ih hitems).bind (onlyErrors_pure _))

/-- The meanings of entries report only errors if that of each value does. -/
theorem onlyErrors_entryMeanings (h : ∀ entry ∈ entries, (meaning entry.2).OnlyErrors)
    (seen : List String) : (entryMeanings seen entries).OnlyErrors := by
  induction entries generalizing seen with
  | nil => exact onlyErrors_pure _
  | cons entry entries ih =>
    obtain ⟨key, item⟩ := entry
    obtain ⟨hitem, hentries⟩ := List.forall_mem_cons.mp h
    rw [entryMeanings]
    split
    · exact (onlyErrors_reported _ _).bind (ih hentries _)
    · exact hitem.bind ((ih hentries _).bind (onlyErrors_pure _))

/-- What an operand means in its role is reported if what it means as a value is. -/
theorem reported_operandMeaning {item : RawValue} (h : (meaning item).Reported)
    (hentries : ∀ tag l entries, item = .mapping tag l entries →
      (entryMeanings [] entries).OnlyErrors) (tag : String) (role : Option Role) :
    (operandMeaning tag role item).Reported := by
  match role, item with
  | none, _ | some .value, _ => exact h
  | some .text, .scalar none .. | some .conditionName, .scalar none .. => exact reported_pure _
  | some .text, .scalar (some _) .. | some .text, .sequence .. | some .text, .mapping ..
  | some .conditionName, .scalar (some _) .. | some .conditionName, .sequence ..
  | some .conditionName, .mapping .. | some .parameters, .scalar ..
  | some .parameters, .sequence .. | some .parameters, .mapping (some _) .. =>
    exact reported_refuse _ _
  | some .parameters, .mapping none l entries => exact (hentries _ _ _ rfl).bind_some

/-- Operands that are not all accepted are reported. -/
theorem reported_operandMeanings (tag : String) (roles : List Role)
    (h : ∀ r ∈ items, ∀ role, (operandMeaning tag role r).Reported) :
    (operandMeanings tag roles items).Reported := by
  induction items generalizing roles with
  | nil => exact reported_pure _
  | cons item items ih =>
    obtain ⟨hitem, hitems⟩ := List.forall_mem_cons.mp h
    rw [operandMeanings_cons]
    exact (hitem _).bind rfl fun term _ => (ih roles.tail hitems).map (term :: ·)

/-- A `!Transform` without a name is reported. -/
theorem reported_transformName (l : Location) (entries : List (Key × RawValue)) :
    (transformName l entries).Reported := by
  unfold transformName
  match firstEntry? "Name" entries, firstEntry? "Parameters" entries with
  | some (.scalar none ..), some (.mapping none ..) => exact reported_pure _
  | none, _ | some (.scalar (some _) ..), _ | some (.sequence ..), _ | some (.mapping ..), _
  | some (.scalar none ..), none | some (.scalar none ..), some (.scalar ..)
  | some (.scalar none ..), some (.sequence ..)
  | some (.scalar none ..), some (.mapping (some _) ..) => exact reported_refuse _ _

/-- A value without a meaning is reported. -/
theorem reported_meaning (r : RawValue) : (meaning r).Reported := by
  -- The entries of a mapping are carried along, for the tags that read them directly.
  suffices (meaning r).Reported ∧ ∀ tag l entries, r = .mapping tag l entries →
    (entryMeanings [] entries).OnlyErrors from this.1
  induction r using RawValue.induction with
  | scalar tag l text =>
    refine ⟨?_, by rintro _ _ _ ⟨⟩⟩
    cases tag with
    | none => exact reported_pure _
    | some tag =>
      rw [meaning]
      cases FunctionName.ofTag? tag with
      | none => exact reported_refuse _ _
      | some f => cases f <;> first | exact reported_pure _ | exact reported_refuse _ _
  | sequence tag l items ih =>
    refine ⟨?_, by rintro _ _ _ ⟨⟩⟩
    have hitems := onlyErrors_itemMeanings fun r hr => (ih r hr).1.onlyErrors
    cases tag with
    | none => exact hitems.bind_some
    | some tag =>
      rw [meaning]
      cases FunctionName.ofTag? tag with
      | none => exact reported_refuse _ _
      | some f =>
        dsimp only
        cases f.ofAnyValue? with
        | some call => exact hitems.bind_some
        | none =>
          cases f.signature with
          | none => exact reported_refuse _ _
          | some roles =>
            dsimp only
            split
            · exact reported_refuse _ _
            · refine (reported_operandMeanings tag roles fun r hr => ?_).map _
              exact reported_operandMeaning (ih r hr).1 (ih r hr).2 tag
  | mapping tag l entries ih =>
    have hentries := onlyErrors_entryMeanings fun entry hentry => (ih entry hentry).1.onlyErrors
    refine ⟨?_, fun tag' l' entries' h => by cases h; exact hentries []⟩
    cases tag with
    | none => exact (hentries []).bind_some
    | some tag =>
      rw [meaning]
      cases FunctionName.ofTag? tag with
      | none => exact reported_refuse _ _
      | some f =>
        cases f with
        | base64 | getAzs | importValue => exact (hentries []).bind_some
        | transform =>
          refine (reported_transformName l entries).bind rfl fun name hname => ?_
          -- A mapping with a name has parameters.
          obtain ⟨-, l', parameters, hparameters⟩ := transformName_eq_some_iff.mp hname
          obtain ⟨entry, hentry, heq⟩ := mem_entries_of_first hparameters
          rw [parametersMeaning_of_mapping hparameters]
          exact ((ih entry hentry).2 _ _ _ heq).bind_some.map _
        | _ => exact reported_refuse _ _

/-- Conditions that are not all accepted are reported. -/
theorem reported_conditionMeanings (h : ∀ r ∈ items, (conditionMeaning r).Reported) :
    (conditionMeanings items).Reported := by
  induction items with
  | nil => exact reported_pure _
  | cons item items ih =>
    obtain ⟨hitem, hitems⟩ := List.forall_mem_cons.mp h
    rw [conditionMeanings]
    exact hitem.bind rfl fun term _ => (ih hitems).map (term :: ·)

/-- A connective that is not accepted is reported. -/
theorem reported_connectiveMeaning (h : ∀ r ∈ items, (conditionMeaning r).Reported)
    (c : ConditionName) (tag : String) (l : Location) (count : Nat) :
    (connectiveMeaning c tag l count (conditionMeanings items)).Reported := by
  unfold connectiveMeaning
  split
  · exact reported_refuse _ _
  · exact (reported_conditionMeanings h).map _

/-- `!Equals` looks at both values, so that either may be the one without a meaning. -/
theorem reported_equals (l : Location) (left right : RawValue) :
    (conditionMeaning (.sequence (some ConditionName.equals.tag) l [left, right])).Reported := by
  rw [conditionMeaning_equals]
  have hleft := reported_meaning left
  have hright := reported_meaning right
  refine ⟨hleft.onlyErrors.bind (hright.onlyErrors.bind ?_), fun h => ?_⟩
  · cases (meaning left).answer <;> cases (meaning right).answer <;> exact onlyErrors_pure _
  · rw [mistakes_bind, mistakes_bind]
    cases hleftAnswer : (meaning left).answer with
    | none => exact List.append_ne_nil_of_left_ne_nil (hleft.ne_nil hleftAnswer) _
    | some leftTerm =>
      cases hrightAnswer : (meaning right).answer with
      | none =>
        have hne := hright.ne_nil hrightAnswer
        simp [hne]
      | some rightTerm => simp [hleftAnswer, hrightAnswer] at h

/-- A value without a meaning as a condition is reported. -/
theorem reported_conditionMeaning (r : RawValue) : (conditionMeaning r).Reported := by
  induction r using RawValue.induction with
  | scalar tag l text =>
    cases tag with
    | none => exact reported_pure _
    | some tag =>
      rw [conditionMeaning]
      cases ConditionName.ofTag? tag with
      | none => exact reported_refuse _ _
      | some c =>
        cases c with
        | reference | existence => exact reported_pure _
        | _ => exact reported_refuse _ _
  | sequence tag l items ih =>
    cases tag with
    | none => exact reported_refuse _ _
    | some tag =>
      cases hc : ConditionName.ofTag? tag with
      | none =>
        unfold conditionMeaning
        rw [hc]
        exact reported_refuse _ _
      | some c =>
        obtain rfl := ConditionName.tag_of_ofTag? hc
        cases c with
        | and => exact reported_connectiveMeaning ih .and _ l _
        | or => exact reported_connectiveMeaning ih .or _ l _
        -- With another number of operands, `!Not` and `!Equals` are refused.
        | not =>
          rcases items with _ | ⟨operand, _ | _⟩
          · exact reported_refuse _ _
          · exact (ih operand List.mem_cons_self).map _
          · exact reported_refuse _ _
        | equals =>
          rcases items with _ | ⟨left, _ | ⟨right, _ | _⟩⟩
          · exact reported_refuse _ _
          · exact reported_refuse _ _
          · exact reported_equals l left right
          · exact reported_refuse _ _
        | reference | existence => exact reported_refuse _ _
  | mapping tag l entries ih =>
    cases tag with
    | none => exact reported_refuse _ _
    | some tag =>
      rw [conditionMeaning]
      cases ConditionName.ofTag? tag with
      | none | some c => exact reported_refuse _ _

end Resolve

/-! ## Forms of nodes -/

namespace RawValue

/-- The node of a value without a tag is a literal, a list or an object, and otherwise a call of the
function of the tag. -/
def IsValueLabel (r : RawValue) (label : Label) : Prop :=
  match r.tag, r with
  | some tag, _ => ∃ f : FunctionName, label = .call f ∧ f.tag = tag
  | none, .scalar _ _ text => label = .literal (.string text)
  | none, .sequence .. => label = .list
  | none, .mapping .. => ∃ keys, label = .object keys

/-- The node of a condition is one of the operator of the tag; without a tag the condition is
named. -/
def IsConditionLabel (r : RawValue) (label : Label) : Prop :=
  ∃ c : ConditionName, label = .condition c ∧ c.tag = r.tag.getD "!Condition"

end RawValue

namespace Resolve

open Verdict

variable {label : Label} {terms : List Term} {r : RawValue}

/-- The node of a value is what its tag says. -/
theorem isValueLabel (h : (meaning r).answer = some (.node label terms)) :
    r.IsValueLabel label := by
  match r with
  | .scalar none .. | .sequence none .. =>
    cases h
    rfl
  | .mapping none .. =>
    cases h
    exact ⟨_, rfl⟩
  | .scalar (some tag) l text =>
    obtain ⟨f, rfl, hf⟩ := meaning_scalar_eq_some h
    refine ⟨f, ?_, rfl⟩
    cases f <;> cases hf <;> rfl
  | .sequence (some tag) l items =>
    obtain ⟨f, rfl, ⟨call, -, hterm⟩ | ⟨roles, operands, -, -, -, hterm⟩⟩ :=
      meaning_sequence_eq_some h
    · cases hterm
      exact ⟨f, rfl, rfl⟩
    · cases hterm
      exact ⟨f, rfl, rfl⟩
  | .mapping (some tag) l entries =>
    obtain ⟨f, rfl, ⟨call, -, hterm⟩ | ⟨rfl, name, parameters, -, -, hterm⟩⟩ :=
      meaning_mapping_eq_some h
    · cases hterm
      exact ⟨f, rfl, rfl⟩
    · cases hterm
      exact ⟨.transform, rfl, rfl⟩

/-- The node of a condition is what its tag says. -/
theorem isConditionLabel (h : (conditionMeaning r).answer = some (.node label terms)) :
    r.IsConditionLabel label := by
  match r with
  | .scalar none l text =>
    cases h
    exact ⟨.reference, rfl, rfl⟩
  | .scalar (some tag) l text =>
    obtain ⟨rfl, hterm⟩ | ⟨rfl, hterm⟩ := conditionMeaning_scalar_eq_some h
    · cases hterm
      exact ⟨.reference, rfl, rfl⟩
    · cases hterm
      exact ⟨.existence, rfl, rfl⟩
  | .sequence tag l items =>
    obtain ⟨c, rfl, -, -, -, operands, -, hterm⟩ | ⟨rfl, a, operand, rfl, -, hterm⟩ |
      ⟨rfl, a, b, left, right, rfl, -, -, hterm⟩ := conditionMeaning_sequence_eq_some h
    · cases hterm
      exact ⟨c, rfl, rfl⟩
    · cases hterm
      exact ⟨.not, rfl, rfl⟩
    · cases hterm
      exact ⟨.equals, rfl, rfl⟩
  | .mapping tag l entries =>
    rw [answer_conditionMeaning_mapping] at h
    cases h

/-! ## Resolving -/

/-- The step succeeds. It gives a node exactly for a value of the shape, which is then an expression
with a label as demanded; it records errors only, after all that was recorded before, and at least
one where it gives no node. -/
def Decides (step : BuildM (Option NodeId)) (b : Build) (shape : Prop) (demanded : Label → Prop) :
    Prop :=
  ∃ given b' reported, step b = .ok given b' ∧ (given.isSome ↔ shape) ∧
    (∀ id ∈ given, ∃ e, b'.tree.node? id = some (.expression e) ∧ demanded e.label) ∧
    b'.diagnostics.toList = b.diagnostics.toList ++ reported ∧
    (∀ d ∈ reported, d.severity = .error) ∧ (given = none → reported ≠ [])

/-- A step that follows a verdict decides what the verdict has an answer for. -/
theorem decides_of_conveys {step : BuildM (Option NodeId)} {P : Tree → NodeId → Prop}
    {v : Verdict (Option Term)} {b : Build} {shape : Prop} {demanded : Label → Prop}
    (h : Conveys step P v) (hb : b.tree.Sound) (hreported : v.Reported)
    (hshape : v.answer.isSome ↔ shape)
    (hlabel : ∀ label terms, v.answer = some (.node label terms) → demanded label) :
    Decides step b shape demanded := by
  obtain ⟨given, b', hstep, hconveyed⟩ := Post.exists_ok (h b hb) fun _ _ => id
  refine ⟨given, b', v.mistakes, hstep, ?_, ?_, hconveyed.told, hreported.onlyErrors, ?_⟩
  · rw [← hshape]
    cases hanswer : v.answer with
    | none => simp [hconveyed.none_of hanswer]
    | some term =>
      obtain ⟨id, rfl, -⟩ := hconveyed.some_of hanswer
      simp
  · rintro id hid
    cases hanswer : v.answer with
    | none =>
      rw [hconveyed.none_of hanswer] at hid
      cases hid
    | some term =>
      obtain ⟨id', rfl, hdenotes, -⟩ := hconveyed.some_of hanswer
      cases hid
      obtain ⟨label, terms⟩ := term
      obtain ⟨e, hnode, rfl, -⟩ := Tree.denotes_iff.mp hdenotes
      exact ⟨e, hnode, hlabel _ _ hanswer⟩
  · intro hgiven
    refine hreported.ne_nil ?_
    cases hanswer : v.answer with
    | none => rfl
    | some term =>
      obtain ⟨id, hsome, -⟩ := hconveyed.some_of hanswer
      cases hgiven.symm.trans hsome

/-- In whatever tree operations have built, and after whatever was reported, resolving a value or a
condition gives a node exactly if the value has an accepted shape. The node is what the tag says,
and a value without a node is reported. -/
theorem accepts_described (ops : List Operation) (diagnostics : Diagnostics) (r : RawValue) :
    Decides (value r) ⟨Tree.after ops, diagnostics⟩ r.DescribesValue r.IsValueLabel ∧
      Decides (condition r) ⟨Tree.after ops, diagnostics⟩ r.DescribesCondition
        r.IsConditionLabel := by
  have hsound := Tree.sound_after ops
  constructor
  · exact decides_of_conveys (conveys_value r) hsound (reported_meaning r)
      ⟨describesValue_of_isSome, isSome_meaning⟩ fun _ _ => isValueLabel
  · exact decides_of_conveys (conveys_condition r) hsound (reported_conditionMeaning r)
      ⟨describesCondition_of_isSome, isSome_conditionMeaning⟩ fun _ _ => isConditionLabel

end Resolve

end InfraModule
