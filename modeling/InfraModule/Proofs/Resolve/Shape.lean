import InfraModule.Proofs.Resolve.Condition
import InfraModule.Proofs.Tree.Reachable

/-!
# Shapes that resolve

Whether a value gives a node depends on its shape: on its tags, and on the number and kind of the
operands below them. `DescribesValue` and `DescribesCondition` list the shapes that are accepted.
Items of lists and values of objects may have any shape, since those that give no node are left out.
Whatever is not accepted is reported as an error.

A tagged value that means something is taken apart once for each kind of value
(`Resolve.meaning_sequence_eq_some`, `Resolve.conditionMeaning_sequence_eq_some`): which tag it
stands under, and what its parts mean.
-/

namespace InfraModule

open Result BuildM

/-! ## Accepted shapes -/

namespace RawValue

/-- The value has a shape that is accepted as a value. -/
inductive DescribesValue : RawValue → Prop
  /-- Anything without a tag. -/
  | untagged {r : RawValue} (h : r.tag = none) : DescribesValue r
  /-- Anything under `!Base64`. -/
  | base64 {r : RawValue} (h : r.tag = some "!Base64") : DescribesValue r
  /-- Anything under `!GetAZs`. -/
  | getAzs {r : RawValue} (h : r.tag = some "!GetAZs") : DescribesValue r
  /-- Anything under `!ImportValue`. -/
  | importValue {r : RawValue} (h : r.tag = some "!ImportValue") : DescribesValue r
  /-- Three values under `!Cidr`. -/
  | cidr {l : Location} {a b c : RawValue} (ha : DescribesValue a) (hb : DescribesValue b)
    (hc : DescribesValue c) : DescribesValue (.sequence (some "!Cidr") l [a, b, c])
  /-- Three values under `!FindInMap`. -/
  | findInMap {l : Location} {a b c : RawValue} (ha : DescribesValue a) (hb : DescribesValue b)
    (hc : DescribesValue c) : DescribesValue (.sequence (some "!FindInMap") l [a, b, c])
  /-- Two values under `!Select`. -/
  | select {l : Location} {a b : RawValue} (ha : DescribesValue a) (hb : DescribesValue b) :
    DescribesValue (.sequence (some "!Select") l [a, b])
  /-- A scalar under `!GetAtt`. -/
  | getAttText {l : Location} {text : String} : DescribesValue (.scalar (some "!GetAtt") l text)
  /-- An untagged scalar and a value under `!GetAtt`. -/
  | getAtt {l l' : Location} {text : String} {a : RawValue} (ha : DescribesValue a) :
    DescribesValue (.sequence (some "!GetAtt") l [.scalar none l' text, a])
  /-- An untagged scalar and two values under `!If`. -/
  | ifElse {l l' : Location} {text : String} {a b : RawValue} (ha : DescribesValue a)
    (hb : DescribesValue b) : DescribesValue (.sequence (some "!If") l [.scalar none l' text, a, b])
  /-- An untagged scalar and a value under `!Join`. -/
  | join {l l' : Location} {text : String} {a : RawValue} (ha : DescribesValue a) :
    DescribesValue (.sequence (some "!Join") l [.scalar none l' text, a])
  /-- An untagged scalar and a value under `!Split`. -/
  | split {l l' : Location} {text : String} {a : RawValue} (ha : DescribesValue a) :
    DescribesValue (.sequence (some "!Split") l [.scalar none l' text, a])
  /-- A scalar under `!Sub`. -/
  | subText {l : Location} {text : String} : DescribesValue (.scalar (some "!Sub") l text)
  /-- An untagged scalar and an untagged mapping under `!Sub`. -/
  | sub {l l' l'' : Location} {text : String} {entries : List (Key × RawValue)} :
    DescribesValue
      (.sequence (some "!Sub") l [.scalar none l' text, .mapping none l'' entries])
  /-- A mapping under `!Transform` of which the first `Name` is an untagged scalar and the first
  `Parameters` an untagged mapping. -/
  | transform {l l' l'' : Location} {text : String} {entries parameters : List (Key × RawValue)}
    (hname : Resolve.firstEntry? "Name" entries = some (.scalar none l' text))
    (hparameters : Resolve.firstEntry? "Parameters" entries
      = some (.mapping none l'' parameters)) :
    DescribesValue (.mapping (some "!Transform") l entries)
  /-- A scalar under `!Ref`. -/
  | ref {l : Location} {text : String} : DescribesValue (.scalar (some "!Ref") l text)

/-- The value has a shape that is accepted as a condition. -/
inductive DescribesCondition : RawValue → Prop
  /-- An untagged scalar. -/
  | name {l : Location} {text : String} : DescribesCondition (.scalar none l text)
  /-- A scalar under `!Condition`. -/
  | reference {l : Location} {text : String} :
    DescribesCondition (.scalar (some "!Condition") l text)
  /-- A scalar under `!Exists`. -/
  | existence {l : Location} {text : String} : DescribesCondition (.scalar (some "!Exists") l text)
  /-- Two to ten conditions under `!And`. -/
  | and {l : Location} {items : List RawValue} (hmin : 2 ≤ items.length)
    (hmax : items.length ≤ 10) (h : ∀ r ∈ items, DescribesCondition r) :
    DescribesCondition (.sequence (some "!And") l items)
  /-- Two to ten conditions under `!Or`. -/
  | or {l : Location} {items : List RawValue} (hmin : 2 ≤ items.length)
    (hmax : items.length ≤ 10) (h : ∀ r ∈ items, DescribesCondition r) :
    DescribesCondition (.sequence (some "!Or") l items)
  /-- A condition under `!Not`. -/
  | not {l : Location} {r : RawValue} (h : DescribesCondition r) :
    DescribesCondition (.sequence (some "!Not") l [r])
  /-- Two values under `!Equals`. -/
  | equals {l : Location} {a b : RawValue} (ha : DescribesValue a) (hb : DescribesValue b) :
    DescribesCondition (.sequence (some "!Equals") l [a, b])

end RawValue

namespace Resolve

open Verdict

variable {l : Location} {items : List RawValue} {entries : List (Key × RawValue)} {tag text : String}
  {roles : List Role} {f : FunctionName} {term : Term}

/-! ## Values that mean something -/

/-- A tagged scalar that means something stands under the tag of a function on scalars. -/
theorem meaning_scalar_eq_some (h : (meaning (.scalar (some tag) l text)).answer = some term) :
    ∃ f : FunctionName, f.tag = tag ∧ (scalarMeaning f l text).answer = some term := by
  rw [meaning] at h
  cases hf : FunctionName.ofTag? tag with
  | none => simp [hf] at h
  | some f =>
    rw [hf] at h
    exact ⟨f, FunctionName.tag_of_ofTag? hf, h⟩

/-- A tagged sequence that means something stands under the tag of a function. The function takes
any value, or else as many operands as its signature has roles, each with a meaning. -/
theorem meaning_sequence_eq_some (h : (meaning (.sequence (some tag) l items)).answer = some term) :
    ∃ f : FunctionName, f.tag = tag ∧
      ((∃ call, f.ofAnyValue? = some call ∧ term = .call f [.list (itemMeanings items).answer]) ∨
        ∃ roles terms, f.signature = some roles ∧ roles.length = items.length ∧
          (operandMeanings tag roles items).answer = some terms ∧ term = .call f terms) := by
  rw [meaning] at h
  cases hf : FunctionName.ofTag? tag with
  | none => simp [hf] at h
  | some f =>
    refine ⟨f, FunctionName.tag_of_ofTag? hf, ?_⟩
    cases hany : f.ofAnyValue? with
    | some call =>
      simp only [hf, hany] at h
      cases h
      exact .inl ⟨call, rfl, rfl⟩
    | none =>
      cases hroles : f.signature with
      | none => simp [hf, hany, hroles] at h
      | some roles =>
        simp only [hf, hany, hroles] at h
        split at h
        · cases h
        · next hlength =>
          obtain ⟨terms, hterms, rfl⟩ := Option.map_eq_some_iff.mp h
          exact .inr ⟨roles, terms, rfl, not_not.mp hlength, hterms, rfl⟩

/-- A tagged mapping that means something stands under the tag of a function. The function takes
any value, or it is `!Transform` with a name and parameters. -/
theorem meaning_mapping_eq_some
    (h : (meaning (.mapping (some tag) l entries)).answer = some term) :
    ∃ f : FunctionName, f.tag = tag ∧
      ((∃ call, f.ofAnyValue? = some call ∧
          term = .call f [.object (entryMeanings [] entries).answer]) ∨
        f = .transform ∧ ∃ name parameters, (transformName l entries).answer = some name ∧
          (parametersMeaning entries).answer = some parameters ∧
          term = .call .transform [.text name, parameters]) := by
  rw [meaning] at h
  cases hf : FunctionName.ofTag? tag with
  | none => simp [hf] at h
  | some f =>
    refine ⟨f, FunctionName.tag_of_ofTag? hf, ?_⟩
    rw [hf] at h
    cases f with
    | base64 | getAzs | importValue =>
      cases h
      exact .inl ⟨_, rfl, rfl⟩
    | transform =>
      cases hname : (transformName l entries).answer with
      | none => simp [hname] at h
      | some name =>
        simp only [answer_bind, hname] at h
        obtain ⟨parameters, hparameters, rfl⟩ := Option.map_eq_some_iff.mp h
        exact .inr ⟨rfl, name, parameters, rfl, hparameters, rfl⟩
    | _ => cases h

/-- `!And` and `!Or` mean conditions of which there may be as many. -/
theorem connectiveMeaning_eq_some {c : ConditionName} {count : Nat}
    {operands : Verdict (Option (List Term))}
    (h : (connectiveMeaning c tag l count operands).answer = some term) :
    2 ≤ count ∧ count ≤ 10 ∧ ∃ terms, operands.answer = some terms ∧ term = .condition c terms := by
  unfold connectiveMeaning minConditionOperands maxConditionOperands at h
  split at h
  · cases h
  · obtain ⟨terms, hterms, rfl⟩ := Option.map_eq_some_iff.mp h
    exact ⟨by omega, by omega, terms, hterms, rfl⟩

/-- A tagged scalar that means a condition names it or asks for what it names. -/
theorem conditionMeaning_scalar_eq_some
    (h : (conditionMeaning (.scalar (some tag) l text)).answer = some term) :
    ConditionName.reference.tag = tag ∧ term = .named text ∨
      ConditionName.existence.tag = tag ∧ term = .condition .existence [.text text] := by
  rw [conditionMeaning] at h
  cases hc : ConditionName.ofTag? tag with
  | none => simp [hc] at h
  | some c =>
    have htag := ConditionName.tag_of_ofTag? hc
    rw [hc] at h
    cases c with
    | reference =>
      cases h
      exact .inl ⟨htag, rfl⟩
    | existence =>
      cases h
      exact .inr ⟨htag, rfl⟩
    | _ => cases h

/-- A sequence that means a condition stands under the tag of a connective, of a negation of one
condition or of a comparison of two values. -/
theorem conditionMeaning_sequence_eq_some {tag : Option String}
    (h : (conditionMeaning (.sequence tag l items)).answer = some term) :
    (∃ c : ConditionName, tag = some c.tag ∧ (c = .and ∨ c = .or) ∧
        2 ≤ items.length ∧ items.length ≤ 10 ∧
        ∃ terms, (conditionMeanings items).answer = some terms ∧ term = .condition c terms) ∨
      (tag = some ConditionName.not.tag ∧ ∃ r operand, items = [r] ∧
        (conditionMeaning r).answer = some operand ∧ term = .condition .not [operand]) ∨
      (tag = some ConditionName.equals.tag ∧ ∃ a b left right, items = [a, b] ∧
        (meaning a).answer = some left ∧ (meaning b).answer = some right ∧
        term = .condition .equals [left, right]) := by
  cases tag with
  | none => cases h
  | some tag =>
    unfold conditionMeaning at h
    cases hc : ConditionName.ofTag? tag with
    | none => simp [hc] at h
    | some c =>
      obtain rfl := ConditionName.tag_of_ofTag? hc
      rw [hc] at h
      cases c with
      | and | or =>
        obtain ⟨hmin, hmax, hterms⟩ := connectiveMeaning_eq_some h
        exact .inl ⟨_, rfl, by simp, hmin, hmax, hterms⟩
      | not =>
        rcases items with _ | ⟨r, _ | _⟩
        · cases h
        · obtain ⟨operand, hoperand, rfl⟩ := Option.map_eq_some_iff.mp h
          exact .inr (.inl ⟨rfl, r, operand, rfl, hoperand, rfl⟩)
        · cases h
      | equals =>
        rcases items with _ | ⟨a, _ | ⟨b, _ | _⟩⟩
        · cases h
        · cases h
        · cases hleft : (meaning a).answer with
          | none => simp [hleft] at h
          | some left =>
            cases hright : (meaning b).answer with
            | none => simp [hleft, hright] at h
            | some right =>
              simp only [answer_bind, hleft, hright] at h
              cases h
              exact .inr (.inr ⟨rfl, a, b, left, right, rfl, hleft, hright, rfl⟩)
        · cases h
      | reference | existence => cases h

/-- A mapping means no condition. -/
theorem answer_conditionMeaning_mapping (tag : Option String) :
    (conditionMeaning (.mapping tag l entries)).answer = none := by
  cases tag with
  | none => rfl
  | some tag =>
    rw [conditionMeaning]
    cases ConditionName.ofTag? tag <;> rfl

/-! ## Operands -/

/-- An operand that is accepted in its role. -/
def Accepted (role : Role) (item : RawValue) : Prop :=
  match role with
  | .value => (meaning item).answer.isSome
  | .text | .conditionName => ∃ l text, item = .scalar none l text
  | .parameters => ∃ l entries, item = .mapping none l entries

/-- An operand has a meaning in a role if and only if it is accepted in it. -/
theorem isSome_operandMeaning (tag : String) (role : Role) (item : RawValue) :
    (operandMeaning tag (some role) item).answer.isSome ↔ Accepted role item := by
  cases role with
  | value => exact Iff.rfl
  | text | conditionName =>
    rcases item with ⟨_ | tag', l, text⟩ | _ | _
    · exact iff_of_true rfl ⟨l, text, rfl⟩
    all_goals
      refine iff_of_false (by simp [operandMeaning, textMeaning, nameMeaning]) ?_
      rintro ⟨_, _, ⟨⟩⟩
  | parameters =>
    rcases item with _ | _ | ⟨_ | tag', l, entries⟩
    case mapping.none => exact iff_of_true rfl ⟨l, entries, rfl⟩
    all_goals
      refine iff_of_false (by simp [operandMeaning]) ?_
      rintro ⟨_, _, ⟨⟩⟩

/-- Operands are accepted if each is in its role. -/
theorem isSome_operandMeanings (tag : String) (hlength : roles.length = items.length) :
    (operandMeanings tag roles items).answer.isSome ↔ List.Forall₂ Accepted roles items := by
  induction items generalizing roles with
  | nil =>
    rw [List.eq_nil_of_length_eq_zero hlength, operandMeanings]
    exact iff_of_true rfl .nil
  | cons item items ih =>
    obtain ⟨role, roles, rfl⟩ := List.exists_cons_of_length_eq_add_one hlength
    rw [operandMeanings_cons, List.forall₂_cons, ← isSome_operandMeaning tag role item,
      ← ih (by simpa using hlength)]
    cases hanswer : (operandMeaning tag (some role) item).answer <;> simp [hanswer]

/-- A sequence under a tag with a signature is accepted if there is an operand for each role, and
each is accepted in it. -/
theorem isSome_meaning_sequence (hroles : f.signature = some roles) :
    (meaning (.sequence (some f.tag) l items)).answer.isSome
      ↔ List.Forall₂ Accepted roles items := by
  have hany : f.ofAnyValue? = none := by cases f <;> first | rfl | cases hroles
  rw [meaning]
  simp only [FunctionName.ofTag?_tag, hany, hroles]
  by_cases hlength : roles.length = items.length
  · rw [if_neg (not_not.mpr hlength), ← isSome_operandMeanings f.tag hlength]
    simp
  · rw [if_pos hlength]
    exact iff_of_false (by simp) fun h => hlength h.length_eq

/-- Two operands are accepted in two roles. -/
theorem exists_of_accepted_two {first second : Role}
    (h : List.Forall₂ Accepted [first, second] items) :
    ∃ a b, items = [a, b] ∧ Accepted first a ∧ Accepted second b := by
  obtain ⟨a, rest, ha, hrest, rfl⟩ := List.forall₂_cons_left_iff.mp h
  obtain ⟨b, rest, hb, hnil, rfl⟩ := List.forall₂_cons_left_iff.mp hrest
  obtain rfl := List.forall₂_nil_left_iff.mp hnil
  exact ⟨a, b, rfl, ha, hb⟩

/-- Three operands are accepted in three roles. -/
theorem exists_of_accepted_three {first second third : Role}
    (h : List.Forall₂ Accepted [first, second, third] items) :
    ∃ a b c, items = [a, b, c] ∧ Accepted first a ∧ Accepted second b ∧ Accepted third c := by
  obtain ⟨a, rest, ha, hrest, rfl⟩ := List.forall₂_cons_left_iff.mp h
  obtain ⟨b, c, rfl, hb, hc⟩ := exists_of_accepted_two hrest
  exact ⟨a, b, c, rfl, ha, hb, hc⟩

/-! ## The mapping of `!Transform` -/

/-- The first value under a key is that of the first entry if it has the key, and else comes after
it. -/
theorem firstEntry?_cons (key : String) (entry : Key × RawValue) :
    firstEntry? key (entry :: entries)
      = if entry.1.text = key then some entry.2 else firstEntry? key entries := by
  unfold firstEntry?
  by_cases h : entry.1.text = key <;> simp [h]

/-- The first value under a key is that of an entry. -/
theorem mem_entries_of_first {key : String} {r : RawValue} (h : firstEntry? key entries = some r) :
    ∃ entry ∈ entries, entry.2 = r := by
  obtain ⟨entry, hfind, heq⟩ := Option.map_eq_some_iff.mp h
  exact ⟨entry, List.mem_of_find?_eq_some hfind, heq⟩

/-- The parameters are the object of the first `Parameters` entry. -/
theorem parametersMeaning_of_mapping {tag : Option String} {parameters : List (Key × RawValue)}
    (h : firstEntry? "Parameters" entries = some (.mapping tag l parameters)) :
    parametersMeaning entries = do return some (.object (← entryMeanings [] parameters)) := by
  induction entries with
  | nil => cases h
  | cons entry entries ih =>
    obtain ⟨key, item⟩ := entry
    rw [firstEntry?_cons] at h
    unfold parametersMeaning
    by_cases hkey : key.text = "Parameters"
    · rw [if_pos hkey, Option.some_inj] at h
      obtain rfl : item = _ := h
      rw [if_pos hkey]
    · rw [if_neg hkey] at h
      rw [if_neg hkey, ih h]

/-- The mapping has a name if its first `Name` is an untagged scalar and its first `Parameters` an
untagged mapping. -/
theorem transformName_eq_some_iff {name : String} :
    (transformName l entries).answer = some name ↔
      (∃ l', firstEntry? "Name" entries = some (.scalar none l' name)) ∧
        ∃ l'' parameters,
          firstEntry? "Parameters" entries = some (.mapping none l'' parameters) := by
  unfold transformName
  match firstEntry? "Name" entries, firstEntry? "Parameters" entries with
  | none, _ | some (.scalar (some _) ..), _ | some (.sequence ..), _ | some (.mapping ..), _ =>
    simp [RawValue.plainScalar?]
  | some (.scalar none ..), none | some (.scalar none ..), some (.scalar ..)
  | some (.scalar none ..), some (.sequence ..) | some (.scalar none ..), some (.mapping none ..)
  | some (.scalar none ..), some (.mapping (some _) ..) =>
    simp [RawValue.plainScalar?, RawValue.isPlainMapping]

/-- A mapping under `!Transform` means a call if it has a name. -/
theorem isSome_meaning_transform :
    (meaning (.mapping (some FunctionName.transform.tag) l entries)).answer.isSome
      ↔ ∃ name, (transformName l entries).answer = some name := by
  rw [meaning]
  simp only [FunctionName.ofTag?_tag]
  cases hname : (transformName l entries).answer with
  | none => simp [hname]
  | some name =>
    obtain ⟨-, l'', parameters, hparameters⟩ := transformName_eq_some_iff.mp hname
    simp [hname, parametersMeaning_of_mapping hparameters]

/-! ## Values -/

/-- A function that takes any value means something on any. -/
theorem isSome_meaning_anyValue {call : NodeId → Call} (hcall : f.ofAnyValue? = some call)
    {r : RawValue} (hr : r.tag = some f.tag) : (meaning r).answer.isSome := by
  cases r with
  | scalar tag l text =>
    cases hr
    rw [meaning]
    simp only [FunctionName.ofTag?_tag]
    cases f <;> first | rfl | cases hcall
  | sequence tag l items =>
    cases hr
    rw [meaning]
    simp [hcall]
  | mapping tag l entries =>
    cases hr
    rw [meaning]
    cases f <;> first | rfl | cases hcall

/-- A value of an accepted shape means something. -/
theorem isSome_meaning {r : RawValue} (h : r.DescribesValue) : (meaning r).answer.isSome := by
  induction h with
  | @untagged r h =>
    cases r <;> cases h <;> rfl
  | base64 h => exact isSome_meaning_anyValue (f := .base64) rfl h
  | getAzs h => exact isSome_meaning_anyValue (f := .getAzs) rfl h
  | importValue h => exact isSome_meaning_anyValue (f := .importValue) rfl h
  | cidr ha hb hc iha ihb ihc =>
    exact (isSome_meaning_sequence (f := .cidr) rfl).mpr (.cons iha (.cons ihb (.cons ihc .nil)))
  | findInMap ha hb hc iha ihb ihc =>
    exact (isSome_meaning_sequence (f := .findInMap) rfl).mpr
      (.cons iha (.cons ihb (.cons ihc .nil)))
  | select ha hb iha ihb =>
    exact (isSome_meaning_sequence (f := .select) rfl).mpr (.cons iha (.cons ihb .nil))
  | getAttText | subText | ref => rfl
  | getAtt ha iha =>
    exact (isSome_meaning_sequence (f := .getAtt) rfl).mpr (.cons ⟨_, _, rfl⟩ (.cons iha .nil))
  | ifElse ha hb iha ihb =>
    exact (isSome_meaning_sequence (f := .ifElse) rfl).mpr
      (.cons ⟨_, _, rfl⟩ (.cons iha (.cons ihb .nil)))
  | join ha iha =>
    exact (isSome_meaning_sequence (f := .join) rfl).mpr (.cons ⟨_, _, rfl⟩ (.cons iha .nil))
  | split ha iha =>
    exact (isSome_meaning_sequence (f := .split) rfl).mpr (.cons ⟨_, _, rfl⟩ (.cons iha .nil))
  | sub =>
    exact (isSome_meaning_sequence (f := .sub) rfl).mpr
      (.cons ⟨_, _, rfl⟩ (.cons ⟨_, _, rfl⟩ .nil))
  | transform hname hparameters =>
    exact isSome_meaning_transform.mpr
      ⟨_, transformName_eq_some_iff.mpr ⟨⟨_, hname⟩, _, _, hparameters⟩⟩

/-- Any value has an accepted shape under a function that takes any. -/
theorem describesValue_of_anyValue {call : NodeId → Call} (hcall : f.ofAnyValue? = some call)
    {r : RawValue} (hr : r.tag = some f.tag) : r.DescribesValue := by
  cases f with
  | base64 => exact .base64 hr
  | getAzs => exact .getAzs hr
  | importValue => exact .importValue hr
  | _ => cases hcall

/-- Accepted operands have an accepted shape under their function if those that are to be values
have. -/
theorem describesValue_of_accepted (hroles : f.signature = some roles)
    (h : List.Forall₂ Accepted roles items)
    (hvalues : ∀ r ∈ items, (meaning r).answer.isSome → r.DescribesValue) :
    (RawValue.sequence (some f.tag) l items).DescribesValue := by
  cases f with
  | cidr =>
    cases hroles
    obtain ⟨a, b, c, rfl, ha, hb, hc⟩ := exists_of_accepted_three h
    exact .cidr (hvalues a (by simp) ha) (hvalues b (by simp) hb) (hvalues c (by simp) hc)
  | findInMap =>
    cases hroles
    obtain ⟨a, b, c, rfl, ha, hb, hc⟩ := exists_of_accepted_three h
    exact .findInMap (hvalues a (by simp) ha) (hvalues b (by simp) hb) (hvalues c (by simp) hc)
  | select =>
    cases hroles
    obtain ⟨a, b, rfl, ha, hb⟩ := exists_of_accepted_two h
    exact .select (hvalues a (by simp) ha) (hvalues b (by simp) hb)
  | getAtt =>
    cases hroles
    obtain ⟨_, a, rfl, ⟨_, _, rfl⟩, ha⟩ := exists_of_accepted_two h
    exact .getAtt (hvalues a (by simp) ha)
  | ifElse =>
    cases hroles
    obtain ⟨_, a, b, rfl, ⟨_, _, rfl⟩, ha, hb⟩ := exists_of_accepted_three h
    exact .ifElse (hvalues a (by simp) ha) (hvalues b (by simp) hb)
  | join =>
    cases hroles
    obtain ⟨_, a, rfl, ⟨_, _, rfl⟩, ha⟩ := exists_of_accepted_two h
    exact .join (hvalues a (by simp) ha)
  | split =>
    cases hroles
    obtain ⟨_, a, rfl, ⟨_, _, rfl⟩, ha⟩ := exists_of_accepted_two h
    exact .split (hvalues a (by simp) ha)
  | sub =>
    cases hroles
    obtain ⟨_, _, rfl, ⟨_, _, rfl⟩, _, _, rfl⟩ := exists_of_accepted_two h
    exact .sub
  | base64 | getAzs | importValue | transform | ref => cases hroles

/-- A value that means something has an accepted shape. -/
theorem describesValue_of_isSome {r : RawValue} (h : (meaning r).answer.isSome) :
    r.DescribesValue := by
  induction r using RawValue.induction with
  | scalar tag l text =>
    cases tag with
    | none => exact .untagged rfl
    | some tag =>
      obtain ⟨term, hterm⟩ := Option.isSome_iff_exists.mp h
      obtain ⟨f, rfl, hf⟩ := meaning_scalar_eq_some hterm
      cases f with
      | base64 | getAzs | importValue => exact describesValue_of_anyValue rfl rfl
      | getAtt => exact .getAttText
      | sub => exact .subText
      | ref => exact .ref
      | _ => cases hf
  | sequence tag l items ih =>
    cases tag with
    | none => exact .untagged rfl
    | some tag =>
      obtain ⟨term, hterm⟩ := Option.isSome_iff_exists.mp h
      obtain ⟨f, rfl, ⟨call, hcall, -⟩ | ⟨roles, terms, hroles, -⟩⟩ :=
        meaning_sequence_eq_some hterm
      · exact describesValue_of_anyValue hcall rfl
      · exact describesValue_of_accepted hroles ((isSome_meaning_sequence hroles).mp h) ih
  | mapping tag l entries ih =>
    cases tag with
    | none => exact .untagged rfl
    | some tag =>
      obtain ⟨term, hterm⟩ := Option.isSome_iff_exists.mp h
      obtain ⟨f, rfl, ⟨call, hcall, -⟩ | ⟨rfl, name, _, hname, -⟩⟩ := meaning_mapping_eq_some hterm
      · exact describesValue_of_anyValue hcall rfl
      · obtain ⟨⟨_, hname⟩, _, _, hparameters⟩ := transformName_eq_some_iff.mp hname
        exact .transform hname hparameters

/-! ## Conditions -/

/-- Conditions have meanings together if and only if each has one. -/
theorem isSome_conditionMeanings : (conditionMeanings items).answer.isSome
    ↔ ∀ r ∈ items, (conditionMeaning r).answer.isSome := by
  induction items with
  | nil => exact iff_of_true rfl (by simp)
  | cons item items ih =>
    rw [conditionMeanings, List.forall_mem_cons, ← ih]
    cases hanswer : (conditionMeaning item).answer <;> simp [hanswer]

/-- `!And` and `!Or` are accepted on two to ten conditions. -/
theorem isSome_connectiveMeaning (c : ConditionName) (tag : String) (l : Location) :
    (connectiveMeaning c tag l items.length (conditionMeanings items)).answer.isSome
      ↔ 2 ≤ items.length ∧ items.length ≤ 10 ∧
        ∀ r ∈ items, (conditionMeaning r).answer.isSome := by
  rw [← isSome_conditionMeanings]
  unfold connectiveMeaning minConditionOperands maxConditionOperands
  split
  · exact iff_of_false (by simp) (by omega)
  · have hcount : 2 ≤ items.length ∧ items.length ≤ 10 := by omega
    simp [hcount]

/-- A negation means the negation of what its one operand means. -/
theorem conditionMeaning_not (l : Location) (r : RawValue) :
    conditionMeaning (.sequence (some ConditionName.not.tag) l [r]) = do
      return (← conditionMeaning r).map fun operand => .condition .not [operand] := rfl

/-- A comparison means the comparison of what its two sides mean, if both mean something. -/
theorem conditionMeaning_equals (l : Location) (a b : RawValue) :
    conditionMeaning (.sequence (some ConditionName.equals.tag) l [a, b]) = do
      let left ← meaning a
      let right ← meaning b
      match left, right with
      | some left, some right => return some (.condition .equals [left, right])
      | _, _ => return none := rfl

/-- A negation is accepted if and only if its operand is. -/
theorem isSome_meaning_not {r : RawValue} :
    (conditionMeaning (.sequence (some ConditionName.not.tag) l [r])).answer.isSome
      ↔ (conditionMeaning r).answer.isSome := by
  rw [conditionMeaning_not]
  simp

/-- A comparison is accepted if and only if both sides are. -/
theorem isSome_meaning_equals {a b : RawValue} :
    (conditionMeaning (.sequence (some ConditionName.equals.tag) l [a, b])).answer.isSome
      ↔ (meaning a).answer.isSome ∧ (meaning b).answer.isSome := by
  rw [conditionMeaning_equals]
  cases ha : (meaning a).answer <;> cases hb : (meaning b).answer <;> simp [ha, hb]

/-- A value of an accepted shape means a condition. -/
theorem isSome_conditionMeaning {r : RawValue} (h : r.DescribesCondition) :
    (conditionMeaning r).answer.isSome := by
  induction h with
  | name | reference | existence => rfl
  | and hmin hmax h ih => exact (isSome_connectiveMeaning .and _ _).mpr ⟨hmin, hmax, ih⟩
  | or hmin hmax h ih => exact (isSome_connectiveMeaning .or _ _).mpr ⟨hmin, hmax, ih⟩
  | not h ih => exact isSome_meaning_not.mpr ih
  | equals ha hb => exact isSome_meaning_equals.mpr ⟨isSome_meaning ha, isSome_meaning hb⟩

/-- A value that means a condition has an accepted shape. -/
theorem describesCondition_of_isSome {r : RawValue} (h : (conditionMeaning r).answer.isSome) :
    r.DescribesCondition := by
  induction r using RawValue.induction with
  | scalar tag l text =>
    cases tag with
    | none => exact .name
    | some tag =>
      obtain ⟨term, hterm⟩ := Option.isSome_iff_exists.mp h
      obtain ⟨rfl, -⟩ | ⟨rfl, -⟩ := conditionMeaning_scalar_eq_some hterm
      · exact .reference
      · exact .existence
  | sequence tag l items ih =>
    obtain ⟨term, hterm⟩ := Option.isSome_iff_exists.mp h
    obtain ⟨c, rfl, hc, hmin, hmax, terms, hterms, -⟩ | ⟨rfl, a, operand, rfl, ha, -⟩ |
      ⟨rfl, a, b, left, right, rfl, ha, hb, -⟩ := conditionMeaning_sequence_eq_some hterm
    · have hall : ∀ r ∈ items, r.DescribesCondition := fun r hr =>
        ih r hr (isSome_conditionMeanings.mp (Option.isSome_of_eq_some hterms) r hr)
      rcases hc with rfl | rfl
      · exact .and hmin hmax hall
      · exact .or hmin hmax hall
    · exact .not (ih a List.mem_cons_self (Option.isSome_of_eq_some ha))
    · exact .equals (describesValue_of_isSome (Option.isSome_of_eq_some ha))
        (describesValue_of_isSome (Option.isSome_of_eq_some hb))
  | mapping tag l entries ih =>
    rw [answer_conditionMeaning_mapping] at h
    cases h

end Resolve

end InfraModule
