import InfraModule.Proofs.Resolve.Acceptance
import InfraModule.Proofs.Resolve.RoundTrip
import Mathlib.Data.List.Permutation
import Mathlib.Data.List.TakeWhile

/-!
# What is written for a value that resolved

A value that resolves without a mistake is written as it stands, up to its spelling. `!GetAtt` on a
scalar is written on two texts, `!Transform` with its name first, and a condition that is only named
with the tag of one. `RawValue.normal` and `RawValue.conditionNormal` are the values in this
spelling; they are computed without a tree, a term or the resolver.

Nothing is lost only because what is lost is reported: the items that are left out, the keys that
are repeated, the operands of the wrong shape. The exception is `!Transform`, of which further
entries are passed over in silence, so that its mappings must hold the two it reads and no others.
-/

namespace InfraModule

open Result Verdict

/-! ## Normal forms -/

/-- The entries under a key in front of the others. -/
def Written.keyFirst (key : String) (entries : List (String × Written)) :
    List (String × Written) :=
  entries.filter (·.1 = key) ++ entries.filter (·.1 ≠ key)

namespace RawValue

mutual

/-- The value in the spelling that expressions are written in. -/
def normal : RawValue → Written
  | .scalar tag _ text =>
    if tag = some "!GetAtt" then
      .tagged "!GetAtt" (.sequence
        [.text (Resolve.splitAttribute text).1, .text (Resolve.splitAttribute text).2])
    else .under tag (.text text)
  | .sequence tag _ items => .under tag (.sequence (normalItems items))
  | .mapping tag _ entries =>
    .under tag (.mapping
      (if tag = some "!Transform" then Written.keyFirst "Name" (normalEntries entries)
      else normalEntries entries))
termination_by structural r => r

/-- The items of a sequence in this spelling. -/
def normalItems : List RawValue → List Written
  | [] => []
  | item :: items => item.normal :: normalItems items
termination_by structural items => items

/-- The entries of a mapping in this spelling. -/
def normalEntries : List (Key × RawValue) → List (String × Written)
  | [] => []
  | (key, item) :: entries => (key.text, item.normal) :: normalEntries entries
termination_by structural entries => entries

end

mutual

/-- The value in the spelling that conditions are written in. Only under `!Equals` do values stand
in a condition. -/
def conditionNormal : RawValue → Written
  | .scalar tag _ text => .tagged (tag.getD "!Condition") (.text text)
  | .sequence tag _ items =>
    .under tag (.sequence
      (if tag = some "!Equals" then normalItems items else conditionNormalItems items))
  | .mapping tag _ entries => .under tag (.mapping (normalEntries entries))
termination_by structural r => r

/-- Conditions in this spelling. -/
def conditionNormalItems : List RawValue → List Written
  | [] => []
  | item :: items => item.conditionNormal :: conditionNormalItems items
termination_by structural items => items

end

/-- Every `!Transform` mapping in the value holds one `Name`, one `Parameters` and nothing else. -/
def TransformsExact (r : RawValue) : Prop :=
  ∀ l entries, r.HasPart (.mapping (some "!Transform") l entries) →
    (entries.map (·.1.text)).Perm ["Name", "Parameters"]

section

variable {tag : Option String} {l : Location} {items : List RawValue}
  {entries : List (Key × RawValue)}

/-- The items of an exact sequence are exact. -/
theorem TransformsExact.of_mem_items (h : (RawValue.sequence tag l items).TransformsExact) :
    ∀ r ∈ items, r.TransformsExact :=
  fun _ hr l' entries hpart => h l' entries (.item hr hpart)

/-- The values of an exact mapping are exact. -/
theorem TransformsExact.of_mem_entries (h : (RawValue.mapping tag l entries).TransformsExact) :
    ∀ entry ∈ entries, entry.2.TransformsExact :=
  fun _ hentry l' entries' hpart => h l' entries' (.value hentry hpart)

end

/-- Items are spelt one by one. -/
theorem normalItems_eq_map : ∀ items : List RawValue, normalItems items = items.map normal
  | [] => rfl
  | item :: items => congrArg (item.normal :: ·) (normalItems_eq_map items)

/-- Entries keep the texts of their keys, and their values are spelt one by one. -/
theorem normalEntries_eq_map : ∀ entries : List (Key × RawValue),
    normalEntries entries = entries.map fun entry => (entry.1.text, entry.2.normal)
  | [] => rfl
  | (key, item) :: entries =>
    congrArg ((key.text, item.normal) :: ·) (normalEntries_eq_map entries)

/-- A value without `!GetAtt` on a scalar and without `!Transform` is in normal form. -/
theorem normal_eq_written (r : RawValue)
    (hscalar : ∀ l text, ¬ r.HasPart (.scalar (some "!GetAtt") l text))
    (hmapping : ∀ l entries, ¬ r.HasPart (.mapping (some "!Transform") l entries)) :
    r.normal = r.written := by
  induction r using RawValue.induction with
  | scalar tag l text =>
    rw [normal, written, if_neg]
    rintro rfl
    exact hscalar l text (.self _)
  | sequence tag l items ih =>
    rw [normal, written, normalItems_eq_map, writtenItems_eq_map, List.map_congr_left]
    exact fun r hr => ih r hr (fun l text h => hscalar l text (.item hr h))
      fun l entries h => hmapping l entries (.item hr h)
  | mapping tag l entries ih =>
    have hentries : normalEntries entries = writtenEntries entries := by
      rw [normalEntries_eq_map, writtenEntries_eq_map]
      refine List.map_congr_left fun entry hentry => congrArg (entry.1.text, ·) ?_
      exact ih entry hentry (fun l text h => hscalar l text (.value hentry h))
        fun l entries h => hmapping l entries (.value hentry h)
    rw [normal, written, if_neg, hentries]
    rintro rfl
    exact hmapping l entries (.self _)

end RawValue

namespace Resolve

variable {l : Location} {items : List RawValue} {entries : List (Key × RawValue)} {w : Written}
  {terms : List Term} {roles : List Role} {f : FunctionName}

/-! ## The dot of an attribute -/

/-- A text is split at its first dot, or else is the first part whole. -/
def SplitAtDot (text : String) (parts : String × String) : Prop :=
  '.' ∉ parts.1.toList ∧
    (text = parts.1 ++ "." ++ parts.2 ∨ '.' ∉ text.toList ∧ parts = (text, ""))

/-- The two parts of an attribute are those before and after the first dot. -/
theorem splitAtDot_splitAttribute (text : String) : SplitAtDot text (splitAttribute text) := by
  have hfirst : '.' ∉ text.toList.takeWhile (· ≠ '.') := fun hmem => by
    simpa using List.mem_takeWhile_imp hmem
  have hboth := List.takeWhile_append_dropWhile (p := (· ≠ '.')) (l := text.toList)
  refine ⟨by simpa [splitAttribute] using hfirst, ?_⟩
  cases hrest : text.toList.dropWhile (· ≠ '.') with
  | nil =>
    rw [hrest, List.append_nil] at hboth
    refine Or.inr ⟨hboth ▸ hfirst, ?_⟩
    rw [splitAttribute, hboth, hrest]
    simp
  | cons c rest =>
    have hhead := List.head?_dropWhile_not (· ≠ '.') text.toList
    rw [hrest] at hhead
    obtain rfl : c = '.' := by simpa using hhead
    refine Or.inl (String.toList_inj.mp ?_)
    rw [hrest] at hboth
    rw [splitAttribute, hrest]
    simpa using hboth.symm

/-! ## Values -/

/-- Without a mistake there is an answer, and it is written so. -/
def Writes (v : Verdict (Option Term)) (w : Written) : Prop :=
  v.mistakes = [] → v.answer.map Term.written = some w

/-- An answer is written as its term. -/
theorem writes_pure (term : Term) : Writes (pure (some term)) term.written :=
  fun _ => rfl

/-- A refusal is not silent. -/
theorem writes_refuse (message : String) (l : Location) : Writes (refuse message l) w := by
  intro h
  cases h

/-- An answer that is certain is written so if it is without a mistake. -/
theorem writes_some {α : Type} {v : Verdict α} {around : α → Term}
    (h : v.mistakes = [] → (around v.answer).written = w) :
    Writes (do return some (around (← v))) w := by
  intro hsilent
  rw [mistakes_bind, mistakes_pure, List.append_nil] at hsilent
  exact congrArg some (h hsilent)

/-- An answer that rests on another is written so if the other is without a mistake. -/
theorem writes_map {α : Type} {v : Verdict (Option α)} {around : α → Term}
    (h : v.mistakes = [] → ∃ a, v.answer = some a ∧ (around a).written = w) :
    Writes (do return (← v).map around) w := by
  intro hsilent
  rw [mistakes_bind, mistakes_pure, List.append_nil] at hsilent
  obtain ⟨a, ha, hwritten⟩ := h hsilent
  rw [answer_bind, answer_pure, ha, Option.map_some, Option.map_some, hwritten]

/-- Items about which nothing is reported are written in their normal forms. -/
theorem written_itemMeanings (h : ∀ r ∈ items, Writes (meaning r) r.normal)
    (hsilent : (itemMeanings items).mistakes = []) :
    (itemMeanings items).answer.map Term.written = RawValue.normalItems items := by
  induction items with
  | nil => rfl
  | cons item items ih =>
    obtain ⟨hitem, hitems⟩ := List.forall_mem_cons.mp h
    rw [itemMeanings] at hsilent ⊢
    simp only [mistakes_bind, mistakes_pure, List.append_nil, List.append_eq_nil_iff] at hsilent
    obtain ⟨term, hterm, hwritten⟩ := Option.map_eq_some_iff.mp (hitem hsilent.1)
    rw [RawValue.normalItems, ← ih hitems hsilent.2, ← hwritten]
    simp [hterm]

/-- Entries about which nothing is reported are written in their normal forms. -/
theorem written_entryMeanings (h : ∀ entry ∈ entries, Writes (meaning entry.2) entry.2.normal)
    (seen : List String) (hsilent : (entryMeanings seen entries).mistakes = []) :
    (entryMeanings seen entries).answer.map (fun entry => (entry.1, entry.2.written))
      = RawValue.normalEntries entries := by
  induction entries generalizing seen with
  | nil => rfl
  | cons entry entries ih =>
    obtain ⟨key, item⟩ := entry
    obtain ⟨hitem, hentries⟩ := List.forall_mem_cons.mp h
    rw [entryMeanings] at hsilent ⊢
    split at hsilent
    · cases hsilent
    · next hkey =>
      simp only [mistakes_bind, mistakes_pure, List.append_nil, List.append_eq_nil_iff] at hsilent
      obtain ⟨term, hterm, hwritten⟩ := Option.map_eq_some_iff.mp (hitem hsilent.1)
      rw [if_neg hkey, RawValue.normalEntries, ← ih hentries _ hsilent.2, ← hwritten]
      simp [hterm]

/-- The list of a sequence is written as the sequence. -/
theorem written_list_itemMeanings (h : ∀ r ∈ items, Writes (meaning r) r.normal)
    (hsilent : (itemMeanings items).mistakes = []) :
    (Term.list (itemMeanings items).answer).written
      = .sequence (RawValue.normalItems items) := by
  rw [Term.written_list, written_itemMeanings h hsilent]

/-- The object of a mapping is written as the mapping. -/
theorem written_object_entryMeanings
    (h : ∀ entry ∈ entries, Writes (meaning entry.2) entry.2.normal)
    (hsilent : (entryMeanings [] entries).mistakes = []) :
    (Term.object (entryMeanings [] entries).answer).written
      = .mapping (RawValue.normalEntries entries) := by
  rw [Term.written_object (nodup_entryMeanings [] entries).1, written_entryMeanings h [] hsilent]

/-- An operand is written in its role as it stands. -/
theorem written_operandMeaning {item : RawValue} (h : Writes (meaning item) item.normal)
    (tag : String) (role : Role)
    (hsilent : (operandMeaning tag (some role) item).mistakes = []) :
    ∃ term, (operandMeaning tag (some role) item).answer = some term ∧
      role.write term.written = item.normal := by
  match role, item with
  | .value, _ => exact Option.map_eq_some_iff.mp (h hsilent)
  | .text, .scalar none .. | .conditionName, .scalar none .. => exact ⟨_, rfl, rfl⟩
  | .parameters, .mapping none .. => exact Option.map_eq_some_iff.mp (h hsilent)
  | .text, .scalar (some _) .. | .text, .sequence .. | .text, .mapping ..
  | .conditionName, .scalar (some _) .. | .conditionName, .sequence ..
  | .conditionName, .mapping .. | .parameters, .scalar .. | .parameters, .sequence ..
  | .parameters, .mapping (some _) .. => cases hsilent

/-- Operands are written in their roles as they stand, in order. -/
theorem written_operandMeanings (h : ∀ r ∈ items, Writes (meaning r) r.normal) (tag : String)
    (hlength : roles.length = items.length)
    (hsilent : (operandMeanings tag roles items).mistakes = []) :
    ∃ terms, (operandMeanings tag roles items).answer = some terms ∧
      roles.length = terms.length ∧
      List.zipWith (fun role w => role.write w) roles (terms.map Term.written)
        = RawValue.normalItems items := by
  induction items generalizing roles with
  | nil =>
    obtain rfl := List.eq_nil_of_length_eq_zero hlength
    exact ⟨[], rfl, rfl, rfl⟩
  | cons item items ih =>
    obtain ⟨role, roles, rfl⟩ := List.exists_cons_of_length_eq_add_one hlength
    obtain ⟨hitem, hitems⟩ := List.forall_mem_cons.mp h
    rw [operandMeanings_cons] at hsilent ⊢
    rw [mistakes_bind, List.append_eq_nil_iff] at hsilent
    obtain ⟨hfirst, hrest⟩ := hsilent
    obtain ⟨term, hterm, hwritten⟩ := written_operandMeaning hitem tag role hfirst
    rw [List.head?_cons, hterm] at hrest
    rw [mistakes_bind, mistakes_pure, List.append_nil] at hrest
    obtain ⟨terms, hterms, hcount, hothers⟩ := ih hitems (by simpa using hlength) hrest
    dsimp only [List.tail_cons] at hterms hcount hothers
    refine ⟨term :: terms, ?_, congrArg (· + 1) hcount, ?_⟩
    · simp [hterm, hterms]
    · rw [RawValue.normalItems, ← hwritten, ← hothers]
      rfl

/-- A function on a sequence of operands is written on the operands. -/
theorem writes_operandMeanings (hroles : f.signature = some roles)
    (h : ∀ r ∈ items, Writes (meaning r) r.normal) (hlength : roles.length = items.length) :
    Writes (do return (← operandMeanings f.tag roles items).map (.call f))
      (.tagged f.tag (.sequence (RawValue.normalItems items))) := by
  refine writes_map fun hsilent => ?_
  obtain ⟨terms, hterms, hcount, hwritten⟩ := written_operandMeanings h f.tag hlength hsilent
  refine ⟨terms, hterms, ?_⟩
  rw [Term.written_call, FunctionName.writeOperands_of_signature hroles (by simpa using hcount),
    hwritten]

/-- A function on any value is written on the mapping of which it takes the object. -/
theorem writes_object_ofAnyValue {call : NodeId → Call} (hcall : f.ofAnyValue? = some call)
    (h : ∀ entry ∈ entries, Writes (meaning entry.2) entry.2.normal) :
    Writes (do return some (.call f [.object (← entryMeanings [] entries)]))
      (.tagged f.tag (.mapping (RawValue.normalEntries entries))) := by
  refine writes_some fun hsilent => ?_
  rw [written_ofAnyValue hcall, written_object_entryMeanings h hsilent]
  rfl

/-- A function on a scalar is written on the scalar, but for `!GetAtt`. -/
theorem writes_scalarMeaning (f : FunctionName) (l : Location) (text : String) :
    Writes (scalarMeaning f l text) (RawValue.scalar (some f.tag) l text).normal := by
  cases f with
  | getAtt | base64 | getAzs | importValue | sub | ref => exact fun _ => rfl
  | _ => exact writes_refuse _ _

/-- Two entries under `Name` and `Parameters`, in either order. -/
theorem exists_transform_entries (h : (entries.map (·.1.text)).Perm ["Name", "Parameters"]) :
    ∃ name parameters, (name ∈ entries ∧ parameters ∈ entries) ∧
      firstEntry? "Name" entries = some name.2 ∧
      firstEntry? "Parameters" entries = some parameters.2 ∧
      Written.keyFirst "Name" (RawValue.normalEntries entries)
        = [("Name", name.2.normal), ("Parameters", parameters.2.normal)] := by
  obtain ⟨first, second, rfl⟩ := List.length_eq_two.mp (by simpa using h.length_eq)
  have hkeys : first.1.text = "Name" ∧ second.1.text = "Parameters" ∨
      first.1.text = "Parameters" ∧ second.1.text = "Name" := by
    simpa using List.perm_pair.mp h
  rcases hkeys with ⟨hfirst, hsecond⟩ | ⟨hfirst, hsecond⟩
  · refine ⟨first, second, by simp, ?_⟩
    simp [Written.keyFirst, firstEntry?, RawValue.normalEntries_eq_map, hfirst, hsecond]
  · refine ⟨second, first, by simp, ?_⟩
    simp [Written.keyFirst, firstEntry?, RawValue.normalEntries_eq_map, hfirst, hsecond]

/-- `!Transform` is written with its name first. -/
theorem writes_transform (h : ∀ entry ∈ entries, Writes (meaning entry.2) entry.2.normal)
    (hexact : (entries.map (·.1.text)).Perm ["Name", "Parameters"]) :
    Writes (meaning (.mapping (some FunctionName.transform.tag) l entries))
      (.tagged FunctionName.transform.tag
        (.mapping (Written.keyFirst "Name" (RawValue.normalEntries entries)))) := by
  intro hsilent
  obtain ⟨name, parameters, ⟨-, hmem⟩, hname, hparameters, hnormal⟩ :=
    exists_transform_entries hexact
  rw [meaning] at hsilent ⊢
  simp only [FunctionName.ofTag?_tag] at hsilent ⊢
  rw [mistakes_bind, List.append_eq_nil_iff] at hsilent
  obtain ⟨hcheck, hrest⟩ := hsilent
  obtain ⟨text, htext⟩ := Option.ne_none_iff_exists'.mp
    fun hnone => (reported_transformName l entries).ne_nil hnone hcheck
  obtain ⟨⟨l', hfirst⟩, l'', values, hsecond⟩ := transformName_eq_some_iff.mp htext
  have hvalue : name.2 = .scalar none l' text := Option.some_inj.mp (hname.symm.trans hfirst)
  have hobject : parameters.2 = .mapping none l'' values :=
    Option.some_inj.mp (hparameters.symm.trans hsecond)
  -- The parameters mean what they mean as a value of their own.
  have hmeaning : parametersMeaning entries = meaning parameters.2 := by
    rw [parametersMeaning_of_mapping hsecond, hobject]
    rfl
  rw [htext, hmeaning] at hrest
  rw [mistakes_bind, mistakes_pure, List.append_nil] at hrest
  obtain ⟨term, hterm, hwritten⟩ := Option.map_eq_some_iff.mp (h parameters hmem hrest)
  rw [answer_bind, htext]
  dsimp only
  rw [hmeaning, answer_bind, hterm, hnormal, hvalue, ← hwritten]
  exact congrArg some (Term.written_call ..)

/-- A value that means something without a mistake is written in normal form. -/
theorem writes_meaning (r : RawValue) (h : r.TransformsExact) : Writes (meaning r) r.normal := by
  induction r using RawValue.induction with
  | scalar tag l text =>
    cases tag with
    | none => exact writes_pure (.text text)
    | some tag =>
      rw [meaning]
      cases hf : FunctionName.ofTag? tag with
      | none => exact writes_refuse _ _
      | some f =>
        obtain rfl := FunctionName.tag_of_ofTag? hf
        exact writes_scalarMeaning f l text
  | sequence tag l items ih =>
    have hitems : ∀ r ∈ items, Writes (meaning r) r.normal :=
      fun r hr => ih r hr (h.of_mem_items r hr)
    cases tag with
    | none => exact writes_some (written_list_itemMeanings hitems)
    | some tag =>
      rw [meaning]
      cases hf : FunctionName.ofTag? tag with
      | none => exact writes_refuse _ _
      | some f =>
        obtain rfl := FunctionName.tag_of_ofTag? hf
        dsimp only
        cases hany : f.ofAnyValue? with
        | some call =>
          refine writes_some fun hsilent => ?_
          rw [written_ofAnyValue hany, written_list_itemMeanings hitems hsilent]
          rfl
        | none =>
          cases hroles : f.signature with
          | none => exact writes_refuse _ _
          | some roles =>
            dsimp only
            split
            · exact writes_refuse _ _
            · next hlength => exact writes_operandMeanings hroles hitems (not_not.mp hlength)
  -- The mapping of `!Transform` must hold its two keys only, since others go unreported.
  | mapping tag l entries ih =>
    have hentries : ∀ entry ∈ entries, Writes (meaning entry.2) entry.2.normal :=
      fun entry hentry => ih entry hentry (h.of_mem_entries entry hentry)
    cases tag with
    | none => exact writes_some (written_object_entryMeanings hentries)
    | some tag =>
      cases hf : FunctionName.ofTag? tag with
      | none =>
        rw [meaning, hf]
        exact writes_refuse _ _
      | some f =>
        obtain rfl := FunctionName.tag_of_ofTag? hf
        cases f with
        | base64 | getAzs | importValue =>
          exact writes_object_ofAnyValue rfl hentries
        | transform => exact writes_transform hentries (h l entries (.self _))
        | _ => exact writes_refuse _ _

/-! ## Conditions -/

/-- Conditions about which nothing is reported are written in their normal forms. -/
theorem written_conditionMeanings
    (h : ∀ r ∈ items, Writes (conditionMeaning r) r.conditionNormal)
    (hsilent : (conditionMeanings items).mistakes = []) :
    (conditionMeanings items).answer.map (List.map Term.written)
      = some (RawValue.conditionNormalItems items) := by
  induction items with
  | nil => rfl
  | cons item items ih =>
    obtain ⟨hitem, hitems⟩ := List.forall_mem_cons.mp h
    rw [conditionMeanings] at hsilent ⊢
    rw [mistakes_bind, List.append_eq_nil_iff] at hsilent
    obtain ⟨hfirst, hrest⟩ := hsilent
    obtain ⟨term, hterm, hwritten⟩ := Option.map_eq_some_iff.mp (hitem hfirst)
    rw [hterm] at hrest
    rw [mistakes_bind, mistakes_pure, List.append_nil] at hrest
    obtain ⟨terms, hterms, hothers⟩ := Option.map_eq_some_iff.mp (ih hitems hrest)
    simp [RawValue.conditionNormalItems, hterm, hterms, hwritten, hothers]

/-- `!And` and `!Or` are written on their operands. -/
theorem writes_connectiveMeaning {c : ConditionName}
    (hwrite : ∀ ws, c.writeOperands ws = .sequence ws)
    (h : ∀ r ∈ items, Writes (conditionMeaning r) r.conditionNormal) (l : Location) :
    Writes (connectiveMeaning c c.tag l items.length (conditionMeanings items))
      (.tagged c.tag (.sequence (RawValue.conditionNormalItems items))) := by
  unfold connectiveMeaning
  split
  · exact writes_refuse _ _
  · refine writes_map fun hsilent => ?_
    obtain ⟨terms, hterms, hwritten⟩ :=
      Option.map_eq_some_iff.mp (written_conditionMeanings h hsilent)
    exact ⟨terms, hterms, by rw [Term.written_condition, hwrite, hwritten]⟩

/-- `!Not` is written on its operand. -/
theorem writes_not {r : RawValue} (h : Writes (conditionMeaning r) r.conditionNormal) :
    Writes (conditionMeaning (.sequence (some ConditionName.not.tag) l [r]))
      (.tagged ConditionName.not.tag (.sequence [r.conditionNormal])) := by
  rw [conditionMeaning_not]
  refine writes_map fun hsilent => ?_
  obtain ⟨term, hterm, hwritten⟩ := Option.map_eq_some_iff.mp (h hsilent)
  exact ⟨term, hterm, hwritten ▸ Term.written_condition ..⟩

/-- `!Equals` is written on its two values. -/
theorem writes_equals {left right : RawValue} (hleft : Writes (meaning left) left.normal)
    (hright : Writes (meaning right) right.normal) :
    Writes (conditionMeaning (.sequence (some ConditionName.equals.tag) l [left, right]))
      (.tagged ConditionName.equals.tag (.sequence [left.normal, right.normal])) := by
  intro hsilent
  rw [conditionMeaning_equals] at hsilent ⊢
  rw [mistakes_bind, mistakes_bind, List.append_eq_nil_iff, List.append_eq_nil_iff] at hsilent
  obtain ⟨leftTerm, hleftTerm, hleftWritten⟩ := Option.map_eq_some_iff.mp (hleft hsilent.1)
  obtain ⟨rightTerm, hrightTerm, hrightWritten⟩ := Option.map_eq_some_iff.mp (hright hsilent.2.1)
  rw [answer_bind, answer_bind, hleftTerm, hrightTerm, ← hleftWritten, ← hrightWritten]
  exact congrArg some (Term.written_condition ..)

/-- A value that means a condition without a mistake is written in normal form. -/
theorem writes_conditionMeaning (r : RawValue) (h : r.TransformsExact) :
    Writes (conditionMeaning r) r.conditionNormal := by
  induction r using RawValue.induction with
  | scalar tag l text =>
    cases tag with
    | none => exact writes_pure (.named text)
    | some tag =>
      rw [conditionMeaning]
      cases hc : ConditionName.ofTag? tag with
      | none => exact writes_refuse _ _
      | some c =>
        obtain rfl := ConditionName.tag_of_ofTag? hc
        cases c with
        | reference => exact writes_pure (.named text)
        | existence => exact writes_pure (.condition .existence [.text text])
        | _ => exact writes_refuse _ _
  | sequence tag l items ih =>
    have hitems : ∀ r ∈ items, Writes (conditionMeaning r) r.conditionNormal :=
      fun r hr => ih r hr (h.of_mem_items r hr)
    cases tag with
    | none => exact writes_refuse _ _
    | some tag =>
      cases hc : ConditionName.ofTag? tag with
      | none =>
        unfold conditionMeaning
        rw [hc]
        exact writes_refuse _ _
      | some c =>
        obtain rfl := ConditionName.tag_of_ofTag? hc
        cases c with
        | and => exact writes_connectiveMeaning (c := .and) (fun _ => rfl) hitems l
        | or => exact writes_connectiveMeaning (c := .or) (fun _ => rfl) hitems l
        -- With another number of operands, `!Not` and `!Equals` are refused.
        | not =>
          rcases items with _ | ⟨operand, _ | _⟩
          · exact writes_refuse _ _
          · exact writes_not (hitems operand List.mem_cons_self)
          · exact writes_refuse _ _
        | equals =>
          rcases items with _ | ⟨left, _ | ⟨right, _ | _⟩⟩
          · exact writes_refuse _ _
          · exact writes_refuse _ _
          · exact writes_equals (writes_meaning left (h.of_mem_items left (by simp)))
              (writes_meaning right (h.of_mem_items right (by simp)))
          · exact writes_refuse _ _
        | reference | existence => exact writes_refuse _ _
  | mapping tag l entries ih =>
    cases tag with
    | none => exact writes_refuse _ _
    | some tag =>
      rw [conditionMeaning]
      cases ConditionName.ofTag? tag with
      | none | some c => exact writes_refuse _ _

/-! ## Nodes -/

/-- The resolver succeeds, and a value about which it reports nothing gets a node that is written in
the normal form of the value. -/
def WritesBack (resolve : RawValue → BuildM (Option NodeId)) (normal : RawValue → Written)
    (b : Build) (r : RawValue) : Prop :=
  ∃ given b', resolve r b = .ok given b' ∧ (b'.diagnostics = b.diagnostics →
    ∃ id, given = some id ∧ b'.tree.write id = .ok (normal r))

/-- A resolver that makes what values mean writes back what their meaning is written as. -/
theorem writesBack_of_conveys {resolve : RawValue → BuildM (Option NodeId)}
    {P : Tree → NodeId → Prop} {read : RawValue → Verdict (Option Term)}
    {normal : RawValue → Written} {b : Build} {r : RawValue}
    (h : BuildM.Conveys (resolve r) P (read r)) (hb : b.tree.Sound)
    (hwrites : Writes (read r) (normal r)) : WritesBack resolve normal b r := by
  obtain ⟨given, b', hresolve, hconveyed⟩ := Post.exists_ok (h b hb) fun _ _ hno => hno
  refine ⟨given, b', hresolve, fun hsilent => ?_⟩
  have hmistakes : (read r).mistakes = [] := by
    have htold := hconveyed.told
    rwa [Build.Told, hsilent, List.self_eq_append_right] at htold
  obtain ⟨term, hterm, hwritten⟩ := Option.map_eq_some_iff.mp (hwrites hmistakes)
  obtain ⟨id, hid, hdenotes, -, hmade⟩ := hconveyed.some_of hterm
  exact ⟨id, hid, hwritten ▸ hdenotes.write_eq hmade.sound⟩

/-- In whatever tree operations have built, nothing of a value is lost that is not reported: a value
about which nothing is reported gets a node that is written as the value stands, in normal form, and
so does a condition. The spelling splits the scalar of `!GetAtt` at its first dot. -/
theorem writesBack (ops : List Operation) (diagnostics : Diagnostics) (r : RawValue)
    (h : r.TransformsExact) :
    WritesBack value RawValue.normal ⟨Tree.after ops, diagnostics⟩ r ∧
      WritesBack condition RawValue.conditionNormal ⟨Tree.after ops, diagnostics⟩ r ∧
      ∀ text, SplitAtDot text (splitAttribute text) :=
  ⟨writesBack_of_conveys (conveys_value r) (Tree.sound_after ops) (writes_meaning r h),
    writesBack_of_conveys (conveys_condition r) (Tree.sound_after ops)
      (writes_conditionMeaning r h),
    splitAtDot_splitAttribute⟩

/-- The dot of an attribute is split, and the name of a macro comes first. -/
theorem writesBack_getAtt_transform :
    let r : RawValue := .sequence none default
      [.scalar (some "!GetAtt") default "Queue.Arn",
        .mapping (some "!Transform") default
          [(⟨"Parameters", default⟩, .mapping none default []),
            (⟨"Name", default⟩, .scalar none default "Macro")]]
    r.TransformsExact ∧ ∃ id b, value r ⟨Tree.after [], {}⟩ = .ok (some id) b ∧
      b.tree.write id = .ok (.sequence
        [.tagged "!GetAtt" (.sequence [.text "Queue", .text "Arn"]),
          .tagged "!Transform" (.mapping [("Name", .text "Macro"), ("Parameters", .mapping [])])])
    := by
  intro r
  have hexact : r.TransformsExact := by
    intro l entries hpart
    dsimp only [r] at hpart
    rcases hpart with _ | ⟨hitem, hpart⟩ | _
    simp only [List.mem_cons, List.not_mem_nil, or_false] at hitem
    rcases hitem with rfl | rfl
    · cases hpart
    · rcases hpart with _ | _ | ⟨hentry, hpart⟩
      · exact List.Perm.swap ..
      · simp only [List.mem_cons, List.not_mem_nil, or_false] at hentry
        rcases hentry with rfl | rfl <;> rcases hpart with _ | _ | ⟨⟨⟩, _⟩
  obtain ⟨id, b, hb, hsilent⟩ : ∃ id b,
      value r ⟨Tree.after [], {}⟩ = .ok (some id) b ∧ b.diagnostics = {} := ⟨_, _, rfl, rfl⟩
  obtain ⟨given, b', hb', hback⟩ := (writesBack [] {} r hexact).1
  cases hb.symm.trans hb'
  obtain ⟨id', hid, hwrite⟩ := hback hsilent
  cases hid
  have hsplit : splitAttribute "Queue.Arn" = ("Queue", "Arn") := by decide +kernel
  have hnormal : r.normal = .sequence
      [.tagged "!GetAtt" (.sequence [.text (splitAttribute "Queue.Arn").1,
          .text (splitAttribute "Queue.Arn").2]),
        .tagged "!Transform"
          (.mapping [("Name", .text "Macro"), ("Parameters", .mapping [])])] := by
    rfl
  rw [hsplit] at hnormal
  exact ⟨hexact, id, b, hb, hnormal ▸ hwrite⟩

end Resolve

end InfraModule
