import InfraModule.Proofs.Resolve.NormalForm

/-!
# Entries that are left out

A part of a value is kept if every value around it has an accepted shape and uses it (`Sense.Kept`).
What is reported about such a part alone is reported about the whole value too, so that a repeated
key, or a part that gives no node, does not go unreported.

`!Transform` alone does not read its mapping to the end. It takes the first `Name` and the first
`Parameters` and passes over the others, so that the value without these (`RawValue.trimmed`)
resolves in the same steps. What is written if nothing is reported is therefore the value without
them (`reported_or_passed_over`).
-/

namespace InfraModule

open Result Verdict

/-! ## What `!Transform` uses -/

namespace RawValue

/-- The first entry under each of some keys. -/
def firsts (keys : List String) : List (Key × RawValue) → List (Key × RawValue)
  | [] => []
  | (key, item) :: entries =>
    if key.text ∈ keys then (key, item) :: firsts (keys.erase key.text) entries
    else firsts keys entries

mutual

/-- The value with only the first `Name` and the first `Parameters` of each `!Transform`. -/
def trimmed : RawValue → RawValue
  | .scalar tag l text => .scalar tag l text
  | .sequence tag l items => .sequence tag l (trimmedItems items)
  | .mapping tag l entries =>
    .mapping tag l
      (if tag = some "!Transform" then firsts ["Name", "Parameters"] (trimmedEntries entries)
      else trimmedEntries entries)
termination_by structural r => r

/-- The items of a sequence with only these. -/
def trimmedItems : List RawValue → List RawValue
  | [] => []
  | item :: items => item.trimmed :: trimmedItems items
termination_by structural items => items

/-- The entries of a mapping with only these in their values. -/
def trimmedEntries : List (Key × RawValue) → List (Key × RawValue)
  | [] => []
  | (key, item) :: entries => (key, item.trimmed) :: trimmedEntries entries
termination_by structural entries => entries

end

variable {tag : Option String} {l : Location} {items : List RawValue}
  {entries : List (Key × RawValue)} {key : String} {keys : List String}

/-- Items are trimmed one by one. -/
theorem trimmedItems_eq_map : ∀ items : List RawValue, trimmedItems items = items.map trimmed
  | [] => rfl
  | item :: items => congrArg (item.trimmed :: ·) (trimmedItems_eq_map items)

/-- Entries keep their keys, and their values are trimmed one by one. -/
theorem trimmedEntries_eq_map : ∀ entries : List (Key × RawValue),
    trimmedEntries entries = entries.map fun entry => (entry.1, entry.2.trimmed)
  | [] => rfl
  | (key, item) :: entries =>
    congrArg ((key, item.trimmed) :: ·) (trimmedEntries_eq_map entries)

/-- A trimmed value stands where the value does. -/
@[simp] theorem location_trimmed (r : RawValue) : r.trimmed.location = r.location := by
  cases r <;> rfl

/-- Trimming leaves scalars as they are. -/
@[simp] theorem plainScalar?_trimmed (r : RawValue) : r.trimmed.plainScalar? = r.plainScalar? := by
  cases r <;> rfl

/-- A trimmed mapping without a tag is one still. -/
@[simp] theorem isPlainMapping_trimmed (r : RawValue) :
    r.trimmed.isPlainMapping = r.isPlainMapping := by
  rcases r with _ | _ | ⟨_ | _, _, _⟩ <;> rfl

/-- The first value under a key is trimmed with the entries. -/
theorem firstEntry?_trimmedEntries (key : String) (entries : List (Key × RawValue)) :
    Resolve.firstEntry? key (trimmedEntries entries)
      = (.map trimmed <| Resolve.firstEntry? key entries) := by
  induction entries with
  | nil => rfl
  | cons entry entries ih =>
    rw [trimmedEntries, Resolve.firstEntry?_cons, Resolve.firstEntry?_cons, ih]
    split <;> rfl

/-- Among the first entries under some keys, each of these keys has the same first value. -/
theorem firstEntry?_firsts (h : key ∈ keys) (entries : List (Key × RawValue)) :
    Resolve.firstEntry? key (firsts keys entries) = Resolve.firstEntry? key entries := by
  induction entries generalizing keys with
  | nil => rfl
  | cons entry entries ih =>
    rw [firsts, Resolve.firstEntry?_cons]
    split
    · rw [Resolve.firstEntry?_cons]
      split
      · rfl
      · next hne => exact ih ((List.mem_erase_of_ne (Ne.symm hne)).mpr h)
    · next hkey =>
      rw [if_neg fun heq : entry.1.text = key => hkey (heq ▸ h)]
      exact ih h

/-- The entries kept are the first ones under their keys. -/
theorem firstEntry?_of_mem_firsts (hkeys : keys.Nodup) {entry : Key × RawValue}
    (h : entry ∈ firsts keys entries) :
    entry.1.text ∈ keys ∧ Resolve.firstEntry? entry.1.text entries = some entry.2 := by
  induction entries generalizing keys with
  | nil => cases h
  | cons first entries ih =>
    rw [firsts] at h
    rw [Resolve.firstEntry?_cons]
    split at h
    · next hfirst =>
      rcases List.mem_cons.mp h with rfl | h
      · exact ⟨hfirst, if_pos rfl⟩
      · obtain ⟨hmem, hentry⟩ := ih (hkeys.erase _) h
        obtain ⟨hne, hmem⟩ := hkeys.mem_erase_iff.mp hmem
        exact ⟨hmem, by rw [if_neg (Ne.symm hne), hentry]⟩
    · next hfirst =>
      obtain ⟨hmem, hentry⟩ := ih hkeys h
      have hne : first.1.text ≠ entry.1.text := fun heq => hfirst (heq ▸ hmem)
      exact ⟨hmem, by rw [if_neg hne, hentry]⟩

/-- Of keys that all occur, each occurs once in the entries kept. -/
theorem keys_firsts_perm (hkeys : keys.Nodup)
    (h : ∀ key ∈ keys, ∃ r, Resolve.firstEntry? key entries = some r) :
    ((firsts keys entries).map (·.1.text)).Perm keys := by
  induction entries generalizing keys with
  | nil =>
    obtain rfl : keys = [] := List.eq_nil_iff_forall_not_mem.mpr fun key hkey => by
      simpa [Resolve.firstEntry?] using h key hkey
    exact .nil
  | cons entry entries ih =>
    simp only [Resolve.firstEntry?_cons] at h
    rw [firsts]
    split
    · next hkey =>
      refine .trans (.cons _ ?_) (List.perm_cons_erase hkey).symm
      refine ih (hkeys.erase _) fun key hmem => ?_
      obtain ⟨hne, hmem⟩ := hkeys.mem_erase_iff.mp hmem
      simpa only [if_neg (Ne.symm hne)] using h key hmem
    · next hkey =>
      refine ih hkeys fun key hmem => ?_
      simpa only [if_neg fun heq : entry.1.text = key => hkey (heq ▸ hmem)] using h key hmem

/-- A sequence is exact if its items are. -/
theorem TransformsExact.sequence (h : ∀ r ∈ items, r.TransformsExact) :
    (RawValue.sequence tag l items).TransformsExact := by
  rintro l' entries' (_ | ⟨hr, hpart⟩ | _)
  exact h _ hr l' entries' hpart

/-- A mapping is exact if its values are, and under `!Transform` it must have the two keys and no
others. -/
theorem TransformsExact.mapping
    (hkeys : tag = some "!Transform" → (entries.map (·.1.text)).Perm ["Name", "Parameters"])
    (h : ∀ entry ∈ entries, entry.2.TransformsExact) :
    (RawValue.mapping tag l entries).TransformsExact := by
  rintro l' entries' (_ | _ | ⟨hentry, hpart⟩)
  · exact hkeys rfl
  · exact h _ hentry l' entries' hpart

end RawValue

namespace Resolve

open BuildM RawValue

variable {tag : Option String} {l : Location} {items : List RawValue} {r : RawValue}
  {entries : List (Key × RawValue)} {seen : List String} {roles : List Role}

/-! ## The same steps -/

/-- A list is filled in the same steps if trimming keeps the steps of its items. -/
theorem valueItems_trimmed (h : ∀ r ∈ items, value r.trimmed = value r) (list : NodeId) :
    valueItems list (trimmedItems items) = valueItems list items := by
  induction items with
  | nil => rfl
  | cons item items ih =>
    obtain ⟨hitem, hitems⟩ := List.forall_mem_cons.mp h
    rw [trimmedItems, valueItems, valueItems, hitem, ih hitems]

/-- An object is filled in the same steps if trimming keeps the steps of its values. -/
theorem valueEntries_trimmed (h : ∀ entry ∈ entries, value entry.2.trimmed = value entry.2)
    (object : NodeId) (seen : List String) :
    valueEntries object seen (trimmedEntries entries) = valueEntries object seen entries := by
  induction entries generalizing seen with
  | nil => rfl
  | cons entry entries ih =>
    obtain ⟨hentry, hentries⟩ := List.forall_mem_cons.mp h
    rw [trimmedEntries, valueEntries, valueEntries, hentry, ih hentries, ih hentries]

/-- The value and the object of its entries are made in the same steps. -/
def SameSteps (r : RawValue) : Prop :=
  value r.trimmed = value r ∧ ∀ tag l entries, r = .mapping tag l entries →
    ∀ object, valueEntries object [] (trimmedEntries entries) = valueEntries object [] entries

/-- An operand in a role is made in the same steps if its value is. -/
theorem operand_trimmed (h : SameSteps r) (tag : String) (role : Option Role) :
    operand tag role r.trimmed = operand tag role r := by
  match role, r with
  | none, _ | some .value, _ => exact h.1
  | some .text, .scalar .. | some .text, .sequence .. | some .text, .mapping ..
  | some .conditionName, .scalar .. | some .conditionName, .sequence ..
  | some .conditionName, .mapping .. | some .parameters, .scalar ..
  | some .parameters, .sequence .. | some .parameters, .mapping (some _) .. => rfl
  | some .parameters, .mapping none l entries =>
    refine bind_congr fun object => ?_
    rw [if_neg (by simp), h.2 _ _ _ rfl]

/-- Operands in their roles are made in the same steps if their values are. -/
theorem operands_trimmed (h : ∀ r ∈ items, SameSteps r) (tag : String) (roles : List Role) :
    operands tag roles (trimmedItems items) = operands tag roles items := by
  induction items generalizing roles with
  | nil => rfl
  | cons item items ih =>
    obtain ⟨hitem, hitems⟩ := List.forall_mem_cons.mp h
    rw [trimmedItems, operands_cons, operands_cons, operand_trimmed hitem, ih hitems]

/-- The parameters are those of the first `Parameters` entry. -/
theorem transformParameters_of_mapping {parameters : List (Key × RawValue)}
    (h : firstEntry? "Parameters" entries = some (.mapping tag l parameters)) :
    transformParameters entries = do
      let object ← add (.object []) l
      valueEntries object [] parameters
      return some object := by
  induction entries with
  | nil => cases h
  | cons entry entries ih =>
    obtain ⟨key, item⟩ := entry
    rw [firstEntry?_cons] at h
    unfold transformParameters
    by_cases hkey : key.text = "Parameters"
    · rw [if_pos hkey, Option.some_inj] at h
      obtain rfl : item = _ := h
      rw [if_pos hkey]
    · rw [if_neg hkey] at h
      rw [if_neg hkey, ih h]

/-- A mapping under `!Transform` is resolved through its first `Name` and its first `Parameters`. -/
theorem value_trimmed_transform (h : ∀ entry ∈ entries, SameSteps entry.2) (l : Location) :
    value (RawValue.mapping (some FunctionName.transform.tag) l entries).trimmed
      = value (.mapping (some FunctionName.transform.tag) l entries) := by
  have hfirst (key : String) (hkey : key ∈ ["Name", "Parameters"]) :
      firstEntry? key (firsts ["Name", "Parameters"] (trimmedEntries entries))
        = (.map trimmed <| firstEntry? key entries) := by
    rw [firstEntry?_firsts hkey, firstEntry?_trimmedEntries]
  have hcheck : checkTransform l (firsts ["Name", "Parameters"] (trimmedEntries entries))
      = checkTransform l entries := by
    unfold checkTransform
    rw [hfirst "Name" (by simp), hfirst "Parameters" (by simp)]
    cases firstEntry? "Name" entries with
    | none => rfl
    | some name => cases firstEntry? "Parameters" entries <;> simp
  have htag : some FunctionName.transform.tag = some "!Transform" := rfl
  rw [trimmed, if_pos htag, value, value]
  simp only [FunctionName.ofTag?_tag]
  rw [hcheck]
  refine funext fun b => bind_congr_of_ok fun checked b' hb' => ?_
  obtain ⟨-, hname, -⟩ := (succeeds_checkTransform l entries).of_ok hb'
  cases checked with
  | none => rfl
  | some checked =>
    -- A mapping with a name has parameters.
    obtain ⟨-, l', parameters, hparameters⟩ := transformName_eq_some_iff.mp hname.symm
    obtain ⟨entry, hentry, heq⟩ := mem_entries_of_first hparameters
    have htrimmed := hfirst "Parameters" (by simp)
    rw [hparameters, Option.map_some, trimmed, if_neg (by simp)] at htrimmed
    simp only [transformParameters_of_mapping hparameters,
      transformParameters_of_mapping htrimmed, (h entry hentry).2 _ _ _ heq]

/-- A value is resolved without what its `!Transform` mappings do not use. -/
theorem value_trimmed (r : RawValue) : value r.trimmed = value r := by
  suffices SameSteps r from this.1
  induction r using RawValue.induction with
  | scalar tag l text => exact ⟨rfl, by rintro _ _ _ ⟨⟩⟩
  | sequence tag l items ih =>
    refine ⟨?_, by rintro _ _ _ ⟨⟩⟩
    have hitems := valueItems_trimmed fun r hr => (ih r hr).1
    have hlength : (trimmedItems items).length = items.length := by
      rw [trimmedItems_eq_map, List.length_map]
    rw [trimmed]
    cases tag with
    | none => simp only [value, hitems]
    | some tag => simp only [value, hitems, hlength, operands_trimmed ih]
  | mapping tag l entries ih =>
    have hentries := valueEntries_trimmed fun entry hentry => (ih entry hentry).1
    refine ⟨?_, fun tag' l' entries' h => by cases h; exact fun object => hentries object []⟩
    by_cases htag : tag = some "!Transform"
    · exact htag ▸ value_trimmed_transform ih l
    · rw [trimmed, if_neg htag]
      cases tag with
      | none => simp only [value, hentries]
      | some tag =>
        rw [value, value]
        cases hf : FunctionName.ofTag? tag with
        | none => rfl
        | some f =>
          obtain rfl := FunctionName.tag_of_ofTag? hf
          cases f with
          | transform => exact absurd rfl htag
          | _ => simp only [hentries]

/-- Conditions are made in the same steps if trimming keeps those of each. -/
theorem allConditions_trimmed (h : ∀ r ∈ items, condition r.trimmed = condition r) :
    allConditions (trimmedItems items) = allConditions items := by
  induction items with
  | nil => rfl
  | cons item items ih =>
    obtain ⟨hitem, hitems⟩ := List.forall_mem_cons.mp h
    rw [trimmedItems, allConditions, allConditions, hitem, ih hitems]

/-- A condition is resolved in the same steps when it is trimmed. -/
theorem condition_trimmed (r : RawValue) : condition r.trimmed = condition r := by
  induction r using RawValue.induction with
  | scalar tag l text => rfl
  | sequence tag l items ih =>
    have hitems := allConditions_trimmed ih
    rw [trimmed]
    cases tag with
    | none => rfl
    | some tag =>
      have hlength : (trimmedItems items).length = items.length := by
        rw [trimmedItems_eq_map, List.length_map]
      unfold condition
      cases ConditionName.ofTag? tag with
      | none => rfl
      | some name =>
        cases name with
        | and | or => simp only [hlength, hitems]
        | reference | existence => rfl
        | not =>
          rcases items with _ | ⟨operand, _ | ⟨second, items⟩⟩
          · rfl
          · simp only [trimmedItems, ih operand List.mem_cons_self]
          · rfl
        | equals =>
          rcases items with _ | ⟨left, _ | ⟨right, _ | ⟨third, items⟩⟩⟩
          · rfl
          · rfl
          · simp only [trimmedItems, value_trimmed]
          · rfl
  | mapping tag l entries => cases tag <;> rfl

/-! ## Parts that are kept -/

/-- What a value is resolved as. -/
inductive Sense where
  /-- A value. -/
  | value
  /-- A condition. -/
  | condition

namespace Sense

/-- Resolving in this sense. -/
def resolve : Sense → RawValue → BuildM (Option NodeId)
  | .value => Resolve.value
  | .condition => Resolve.condition

/-- The shapes that are accepted in this sense. -/
def Accepts : Sense → RawValue → Prop
  | .value => DescribesValue
  | .condition => DescribesCondition

/-- The spelling of a value that resolved in this sense. -/
def normal : Sense → RawValue → Written
  | .value => RawValue.normal
  | .condition => conditionNormal

/-- What a value means in this sense. -/
def read : Sense → RawValue → Verdict (Option Term)
  | .value => meaning
  | .condition => conditionMeaning

/-- What a node is in this sense. -/
def IsNode : Sense → Tree → NodeId → Prop
  | .value => Tree.IsValue
  | .condition => Tree.IsCondition

/-- The values directly in a value that its tag uses, and the sense in which it does. Of a mapping
these are the values under new keys. -/
inductive Uses : Sense → RawValue → Sense → RawValue → Prop
  /-- An item of a sequence. -/
  | item {tag : Option String} {l : Location} {items : List RawValue} {r : RawValue}
    (h : r ∈ items) : Uses .value (.sequence tag l items) .value r
  /-- A value whose key does not occur before it. -/
  | entry {tag : Option String} {l : Location} {before after : List (Key × RawValue)} {key : Key}
    {r : RawValue} (htag : tag ≠ some "!Transform") (hnew : key.text ∉ before.map (·.1.text)) :
    Uses .value (.mapping tag l (before ++ (key, r) :: after)) .value r
  /-- The first name or the first parameters of a macro. -/
  | transform {l : Location} {entries : List (Key × RawValue)} {key : String} {r : RawValue}
    (hkey : key ∈ ["Name", "Parameters"]) (h : firstEntry? key entries = some r) :
    Uses .value (.mapping (some "!Transform") l entries) .value r
  /-- An operand of a condition. -/
  | operand {tag : Option String} {l : Location} {items : List RawValue} {r : RawValue}
    (htag : tag ≠ some "!Equals") (h : r ∈ items) :
    Uses .condition (.sequence tag l items) .condition r
  /-- A side of a comparison. -/
  | side {l : Location} {items : List RawValue} {r : RawValue} (h : r ∈ items) :
    Uses .condition (.sequence (some "!Equals") l items) .value r

/-- A part of a value is kept if every value around it has an accepted shape and uses it. -/
inductive Kept (s : Sense) (r : RawValue) : Sense → RawValue → Prop
  /-- The value itself. -/
  | self : Kept s r s r
  /-- What a kept part uses. -/
  | part {s' s'' : Sense} {q p : RawValue} (h : Kept s r s' q) (haccepts : s'.Accepts q)
    (huses : s'.Uses q s'' p) : Kept s r s'' p

variable (s : Sense)

/-- Resolving in a sense makes what the value means in the sense. -/
theorem conveys (r : RawValue) : Conveys (s.resolve r) s.IsNode (s.read r) := by
  cases s with
  | value => exact conveys_value r
  | condition => exact conveys_condition r

/-- A value that is not accepted in a sense is reported. -/
theorem reported (r : RawValue) : (s.read r).Reported := by
  cases s with
  | value => exact reported_meaning r
  | condition => exact reported_conditionMeaning r

/-- A value has a meaning in a sense if and only if its shape is accepted. -/
theorem accepts_iff (r : RawValue) : s.Accepts r ↔ (s.read r).answer.isSome := by
  cases s with
  | value => exact ⟨isSome_meaning, describesValue_of_isSome⟩
  | condition => exact ⟨isSome_conditionMeaning, describesCondition_of_isSome⟩

/-- A value that is read without a mistake is written in the normal form of its sense. -/
theorem writes (r : RawValue) (h : r.TransformsExact) : Writes (s.read r) (s.normal r) := by
  cases s with
  | value => exact writes_meaning r h
  | condition => exact writes_conditionMeaning r h

/-- A trimmed value is resolved in the same steps, in either sense. -/
theorem resolve_trimmed (r : RawValue) : s.resolve r.trimmed = s.resolve r := by
  cases s with
  | value => exact value_trimmed r
  | condition => exact condition_trimmed r

variable {s}

/-- Where nothing is reported, the shape is accepted. -/
theorem accepts_of_silent (h : (s.read r).mistakes = []) : s.Accepts r := by
  rw [accepts_iff, Option.isSome_iff_ne_none]
  exact fun hnone => (s.reported r).ne_nil hnone h

end Sense

/-! ## Reports on what is kept -/

/-- What is reported about an item is reported about the items. -/
theorem sublist_itemMeanings (h : r ∈ items) :
    (meaning r).mistakes.Sublist (itemMeanings items).mistakes := by
  induction items with
  | nil => cases h
  | cons item items ih =>
    rw [itemMeanings]
    simp only [mistakes_bind, mistakes_pure, List.append_nil]
    rcases List.mem_cons.mp h with rfl | h
    · exact List.sublist_append_left ..
    · exact (ih h).trans (List.sublist_append_right ..)

/-- What is reported about a value under a new key is reported about the entries. -/
theorem sublist_entryMeanings {before after : List (Key × RawValue)} {key : Key}
    (hseen : key.text ∉ seen) (hnew : key.text ∉ before.map (·.1.text)) :
    (meaning r).mistakes.Sublist
      (entryMeanings seen (before ++ (key, r) :: after)).mistakes := by
  induction before generalizing seen with
  | nil =>
    rw [List.nil_append, entryMeanings, if_neg hseen]
    exact List.sublist_append_left ..
  | cons entry before ih =>
    rw [List.map_cons, List.mem_cons, not_or] at hnew
    rw [List.cons_append, entryMeanings]
    split
    · exact (ih hseen hnew.2).trans (List.sublist_append_right ..)
    · have hunseen : key.text ∉ entry.1.text :: seen := by simp [hseen, hnew.1]
      refine (ih hunseen hnew.2).trans ?_
      rw [mistakes_bind, mistakes_bind, mistakes_pure, List.append_nil]
      exact List.sublist_append_right ..

/-- An operand that is accepted in its role has no mistakes but those of its own. -/
theorem mistakes_operandMeaning {role : Role} (h : Accepted role r) (tag : String) :
    (operandMeaning tag (some role) r).mistakes = (meaning r).mistakes := by
  cases role with
  | value => rfl
  | text | conditionName | parameters =>
    obtain ⟨l, _, rfl⟩ := h
    rfl

/-- What is reported about an accepted operand is reported about the operands. -/
theorem sublist_operandMeanings (h : List.Forall₂ Accepted roles items) (tag : String)
    (hr : r ∈ items) : (meaning r).mistakes.Sublist (operandMeanings tag roles items).mistakes := by
  induction h with
  | nil => cases hr
  | @cons role item roles items hrole hroles ih =>
    obtain ⟨term, hterm⟩ :=
      Option.isSome_iff_exists.mp ((isSome_operandMeaning tag role item).mpr hrole)
    rw [operandMeanings_cons, List.head?_cons, mistakes_bind, hterm, mistakes_operandMeaning hrole]
    rcases List.mem_cons.mp hr with rfl | hr
    · exact List.sublist_append_left ..
    · refine (ih hr).trans ?_
      simp

/-- What is reported about one of some accepted conditions is reported about them all. -/
theorem sublist_conditionMeanings (h : ∀ r ∈ items, (conditionMeaning r).answer.isSome)
    (hr : r ∈ items) :
    (conditionMeaning r).mistakes.Sublist (conditionMeanings items).mistakes := by
  induction items with
  | nil => cases hr
  | cons item items ih =>
    obtain ⟨hitem, hitems⟩ := List.forall_mem_cons.mp h
    obtain ⟨term, hterm⟩ := Option.isSome_iff_exists.mp hitem
    rw [conditionMeanings, mistakes_bind, hterm]
    rcases List.mem_cons.mp hr with rfl | hr
    · exact List.sublist_append_left ..
    · refine (ih hitems hr).trans ?_
      simp

/-- What is reported about a condition under an accepted connective is reported about the
connective. -/
theorem sublist_connectiveMeaning {c : ConditionName} {tag : String}
    (h : (connectiveMeaning c tag l items.length (conditionMeanings items)).answer.isSome)
    (hr : r ∈ items) : (conditionMeaning r).mistakes.Sublist
      (connectiveMeaning c tag l items.length (conditionMeanings items)).mistakes := by
  have hall := sublist_conditionMeanings ((isSome_connectiveMeaning c tag l).mp h).2.2 hr
  unfold connectiveMeaning at h ⊢
  split at h
  · cases h
  · next hcount =>
    rw [if_neg hcount, mistakes_bind, mistakes_pure, List.append_nil]
    exact hall

/-- An accepted mapping is reported on as its entries are. -/
theorem mistakes_meaning_mapping (htag : tag ≠ some "!Transform")
    (h : (meaning (.mapping tag l entries)).answer.isSome) :
    (meaning (.mapping tag l entries)).mistakes = (entryMeanings [] entries).mistakes := by
  cases tag with
  | none => exact List.append_nil _
  | some tag =>
    rw [meaning] at h ⊢
    cases hf : FunctionName.ofTag? tag with
    | none => simp [hf] at h
    | some f =>
      obtain rfl := FunctionName.tag_of_ofTag? hf
      rw [hf] at h
      cases f with
      | base64 | getAzs | importValue => exact List.append_nil _
      | transform => exact absurd rfl htag
      | _ => cases h

/-- What is reported about an item is reported about a sequence that means something. -/
theorem sublist_meaning_sequence (haccepts : (meaning (.sequence tag l items)).answer.isSome)
    (h : r ∈ items) : (meaning r).mistakes.Sublist (meaning (.sequence tag l items)).mistakes := by
  have hlist := sublist_itemMeanings h
  cases tag with
  | none => simpa [meaning] using hlist
  | some tag =>
    obtain ⟨term, hterm⟩ := Option.isSome_iff_exists.mp haccepts
    obtain ⟨f, rfl, ⟨call, hany, -⟩ | ⟨roles, terms, hroles, -⟩⟩ := meaning_sequence_eq_some hterm
    · simpa [meaning, hany] using hlist
    · have hany : f.ofAnyValue? = none := by cases f <;> first | rfl | cases hroles
      have hoperands := (isSome_meaning_sequence hroles).mp haccepts
      simpa [meaning, hany, hroles, hoperands.length_eq] using
        sublist_operandMeanings hoperands f.tag h

/-- What is reported about a part that is used is reported about the value. -/
theorem sublist_of_uses {s s' : Sense} {r p : RawValue} (haccepts : s.Accepts r)
    (huses : s.Uses r s' p) : (s'.read p).mistakes.Sublist (s.read r).mistakes := by
  rw [Sense.accepts_iff] at haccepts
  -- One case for each way in which a tag uses a part.
  cases huses with
  | item h => exact sublist_meaning_sequence haccepts h
  | @entry tag l before after key _ htag hnew =>
    dsimp only [Sense.read] at haccepts ⊢
    rw [mistakes_meaning_mapping htag haccepts]
    exact sublist_entryMeanings (by simp) hnew
  | @transform l entries key _ hkey h =>
    obtain ⟨name, hname⟩ := isSome_meaning_transform.mp haccepts
    obtain ⟨⟨l', hfirst⟩, l'', parameters, hsecond⟩ := transformName_eq_some_iff.mp hname
    simp only [List.mem_cons, List.not_mem_nil, or_false] at hkey
    rcases hkey with rfl | rfl
    · obtain rfl := Option.some_inj.mp (hfirst.symm.trans h)
      exact List.nil_sublist _
    · obtain rfl := Option.some_inj.mp (hsecond.symm.trans h)
      have hmeaning := parametersMeaning_of_mapping hsecond
      have htag : FunctionName.ofTag? "!Transform" = some .transform :=
        FunctionName.ofTag?_tag .transform
      simp [Sense.read, meaning, htag, hname, hmeaning]
  | @operand tag l items _ htag h =>
    obtain ⟨term, hterm⟩ := Option.isSome_iff_exists.mp haccepts
    obtain ⟨c, rfl, rfl | rfl, -⟩ | ⟨rfl, a, operand, rfl, -⟩ | ⟨rfl, -⟩ :=
      conditionMeaning_sequence_eq_some hterm
    · exact sublist_connectiveMeaning haccepts h
    · exact sublist_connectiveMeaning haccepts h
    · obtain rfl := List.mem_singleton.mp h
      dsimp only [Sense.read]
      rw [conditionMeaning_not, mistakes_bind]
      exact List.sublist_append_left ..
    · exact absurd rfl htag
  | @side l items _ h =>
    dsimp only [Sense.read] at haccepts ⊢
    rcases items with _ | ⟨left, _ | ⟨right, _ | _⟩⟩
    · cases haccepts
    · cases haccepts
    · have hequals : conditionMeaning (.sequence (some "!Equals") l [left, right]) = _ :=
        conditionMeaning_equals l left right
      rw [hequals, mistakes_bind, mistakes_bind]
      rcases List.mem_pair.mp h with rfl | rfl
      · exact List.sublist_append_left ..
      · exact (List.sublist_append_left ..).trans (List.sublist_append_right ..)
    · cases haccepts

/-- What is reported about a part that is kept is reported about the value. -/
theorem sublist_of_kept {s s' : Sense} {r p : RawValue} (h : s.Kept r s' p) :
    (s'.read p).mistakes.Sublist (s.read r).mistakes := by
  induction h with
  | self => exact .refl _
  | part h haccepts huses ih => exact (sublist_of_uses haccepts huses).trans ih

/-- The keys that occur in `seen` or earlier in the list. -/
def repeatedKeys (seen : List String) : List (Key × RawValue) → List Key
  | [] => []
  | (key, _) :: entries =>
    if key.text ∈ seen then key :: repeatedKeys seen entries
    else repeatedKeys (key.text :: seen) entries

/-- The report on a key that occurred before. -/
def repetition (key : Key) : Diagnostic :=
  ⟨.error, s!"duplicate key '{key.text}'", key.location⟩

/-- Each repetition of a key is reported. -/
theorem sublist_repeatedKeys (seen : List String) (entries : List (Key × RawValue)) :
    ((repeatedKeys seen entries).map repetition).Sublist (entryMeanings seen entries).mistakes := by
  induction entries generalizing seen with
  | nil => exact .slnil
  | cons entry entries ih =>
    rw [repeatedKeys, entryMeanings]
    split
    · exact (ih seen).cons_cons _
    · rw [mistakes_bind, mistakes_bind, mistakes_pure, List.append_nil]
      exact (ih _).trans (List.sublist_append_right ..)

/-! ## What is written -/

/-- Where nothing is reported about entries, nothing is reported about any of their values. -/
theorem silent_entryMeanings (hsilent : (entryMeanings seen entries).mistakes = [])
    {entry : Key × RawValue} (h : entry ∈ entries) : (meaning entry.2).mistakes = [] := by
  induction entries generalizing seen with
  | nil => cases h
  | cons first entries ih =>
    rw [entryMeanings] at hsilent
    split at hsilent
    · cases hsilent
    · rw [mistakes_bind, mistakes_bind, List.append_eq_nil_iff, List.append_eq_nil_iff] at hsilent
      rcases List.mem_cons.mp h with rfl | h
      · exact hsilent.1
      · exact ih hsilent.2.1 h

/-- A macro that is accepted without a report keeps a name and parameters. -/
theorem transformsExact_transform
    (ih : ∀ entry ∈ entries, ∀ {s : Sense}, (s.read entry.2).mistakes = [] →
      entry.2.trimmed.TransformsExact)
    (haccepts : Sense.Accepts .value (.mapping (some "!Transform") l entries))
    (hsilent : (meaning (.mapping (some "!Transform") l entries)).mistakes = []) :
    (RawValue.mapping (some "!Transform") l
      (firsts ["Name", "Parameters"] (trimmedEntries entries))).TransformsExact := by
  have hnodup : ["Name", "Parameters"].Nodup := by decide
  obtain ⟨name, hname⟩ := isSome_meaning_transform.mp (isSome_meaning haccepts)
  obtain ⟨⟨l', hfirst⟩, l'', parameters, hsecond⟩ := transformName_eq_some_iff.mp hname
  refine .mapping (fun _ => keys_firsts_perm hnodup fun key hkey => ?_) fun entry hentry => ?_
  · rw [firstEntry?_trimmedEntries]
    simp only [List.mem_cons, List.not_mem_nil, or_false] at hkey
    rcases hkey with rfl | rfl
    · exact ⟨_, by rw [hfirst, Option.map_some]⟩
    · exact ⟨_, by rw [hsecond, Option.map_some]⟩
  · obtain ⟨hkey, hentry⟩ := firstEntry?_of_mem_firsts hnodup hentry
    rw [firstEntry?_trimmedEntries] at hentry
    obtain ⟨q, hq, hentry⟩ := Option.map_eq_some_iff.mp hentry
    obtain ⟨entry', hmem, rfl⟩ := mem_entries_of_first hq
    have hsub := sublist_of_uses haccepts (.transform hkey hq)
    exact hentry ▸ ih entry' hmem (List.sublist_nil.mp (hsilent ▸ hsub))

/-- If nothing is reported, each macro has a name and parameters, and keeps no more than these. -/
theorem transformsExact_trimmed {s : Sense} (hsilent : (s.read r).mistakes = []) :
    r.trimmed.TransformsExact := by
  induction r using RawValue.induction generalizing s with
  | scalar tag l text => rintro l' entries' (_ | _ | _)
  | sequence tag l items ih =>
    have haccepts := Sense.accepts_of_silent hsilent
    refine .sequence fun item hitem => ?_
    rw [trimmedItems_eq_map] at hitem
    obtain ⟨q, hq, rfl⟩ := List.mem_map.mp hitem
    -- Every item of an accepted sequence is used, so nothing is reported about it.
    obtain ⟨s', huses⟩ : ∃ s', s.Uses (.sequence tag l items) s' q := by
      cases s with
      | value => exact ⟨_, .item hq⟩
      | condition =>
        by_cases htag : tag = some "!Equals"
        · subst htag
          exact ⟨_, .side hq⟩
        · exact ⟨_, .operand htag hq⟩
    exact ih q hq (List.sublist_nil.mp (hsilent ▸ sublist_of_uses haccepts huses))
  | mapping tag l entries ih =>
    have haccepts := Sense.accepts_of_silent hsilent
    cases s with
    | condition => cases haccepts
    | value =>
      rw [trimmed]
      by_cases htag : tag = some "!Transform"
      · subst htag
        rw [if_pos rfl]
        exact transformsExact_transform ih haccepts hsilent
      · rw [if_neg htag]
        dsimp only [Sense.read] at hsilent
        rw [mistakes_meaning_mapping htag (isSome_meaning haccepts)] at hsilent
        refine .mapping (fun h => absurd h htag) fun entry hentry => ?_
        rw [trimmedEntries_eq_map] at hentry
        obtain ⟨q, hq, rfl⟩ := List.mem_map.mp hentry
        exact ih q hq (s := .value) (silent_entryMeanings hsilent hq)

/-- What is told about a value covers every part of it that is kept. -/
structure Covers (s : Sense) (r : RawValue) (told : List Diagnostic) : Prop where
  /-- What is told about a kept part alone is told, and it is something if there is no node. -/
  kept : ∀ s' p, s.Kept r s' p → ∃ own : List Diagnostic, own.Sublist told ∧
    (¬ s'.Accepts p → own ≠ []) ∧ ∀ b : Build, b.tree.Sound →
      ∃ given b', s'.resolve p b = .ok given b' ∧ b.Told own b'
  /-- A repeated key of a kept mapping is told, unless the mapping stands under `!Transform`. -/
  repeated : ∀ tag l entries, s.Kept r .value (.mapping tag l entries) →
    DescribesValue (.mapping tag l entries) → tag ≠ some "!Transform" →
      ((repeatedKeys [] entries).map repetition).Sublist told

/-- What is reported when a value is read covers every part of it that is kept. -/
theorem covers_mistakes (s : Sense) (r : RawValue) : Covers s r (s.read r).mistakes where
  kept s' p hkept := by
    refine ⟨(s'.read p).mistakes, sublist_of_kept hkept, fun hno hsilent => ?_, fun b hb => ?_⟩
    · exact hno (Sense.accepts_of_silent hsilent)
    · obtain ⟨given, b', hresolve, hconveyed⟩ :=
        Post.exists_ok (s'.conveys p b hb) fun _ _ hno => hno
      exact ⟨given, b', hresolve, hconveyed.told⟩
  repeated tag l entries hkept haccepts htag := by
    have hmistakes := mistakes_meaning_mapping htag (isSome_meaning haccepts)
    exact (hmistakes ▸ sublist_repeatedKeys [] entries).trans (sublist_of_kept hkept)

/-- In whatever tree operations have built, what is told about a value covers what its kept mappings
drop, but for what `!Transform` passes over: the value resolves in the same steps without that. If
nothing is told, the node is written as the value stands without that, in normal form. -/
theorem reported_or_passed_over (ops : List Operation) (diagnostics : Diagnostics) (s : Sense)
    (r : RawValue) : s.resolve r.trimmed = s.resolve r ∧
      ∃ given b' told, s.resolve r ⟨Tree.after ops, diagnostics⟩ = .ok given b' ∧
        Build.Told ⟨Tree.after ops, diagnostics⟩ told b' ∧ Covers s r told ∧
        (told = [] → ∃ id, given = some id ∧ b'.tree.write id = .ok (s.normal r.trimmed)) := by
  have hsound := Tree.sound_after ops
  refine ⟨s.resolve_trimmed r, ?_⟩
  obtain ⟨given, b', hresolve, hconveyed⟩ :=
    Post.exists_ok (s.conveys r ⟨Tree.after ops, diagnostics⟩ hsound) fun _ _ hno => hno
  refine ⟨given, b', (s.read r).mistakes, hresolve, hconveyed.told, covers_mistakes s r,
    fun hsilent => ?_⟩
  have hwrites := s.writes r.trimmed (transformsExact_trimmed hsilent)
  obtain ⟨given', b'', hresolve', hwritten⟩ : WritesBack s.resolve s.normal
      ⟨Tree.after ops, diagnostics⟩ r.trimmed :=
    writesBack_of_conveys (s.conveys r.trimmed) hsound hwrites
  rw [s.resolve_trimmed, hresolve] at hresolve'
  cases hresolve'
  refine hwritten (Diagnostics.ext_toList ?_)
  simpa [Build.Told, hsilent] using hconveyed.told

/-- A second name of a macro is lost, and nothing is reported. -/
theorem second_name_lost :
    let r : RawValue := .mapping (some "!Transform") default
      [(⟨"Name", default⟩, .scalar none default "A"), (⟨"Name", default⟩, .scalar none default "B"),
        (⟨"Parameters", default⟩, .mapping none default [])]
    ∃ id b, value r ⟨Tree.after [], {}⟩ = .ok (some id) b ∧ b.diagnostics = {} ∧
      b.tree.write id = .ok
        (.tagged "!Transform" (.mapping [("Name", .text "A"), ("Parameters", .mapping [])])) := by
  intro r
  obtain ⟨id, b, hb, hsilent⟩ : ∃ id b,
      value r ⟨Tree.after [], {}⟩ = .ok (some id) b ∧ b.diagnostics = {} := ⟨_, _, rfl, rfl⟩
  have hconveyed := (conveys_value r _ (Tree.sound_after [])).of_ok hb
  have hanswer : (meaning r).answer = some (.call .transform [.text "A", .object []]) := rfl
  obtain ⟨id', hid, hdenotes, -, hmade⟩ := hconveyed.some_of hanswer
  cases hid
  exact ⟨id, b, hb, hsilent, hdenotes.write_eq hmade.sound⟩

end Resolve

end InfraModule
