import InfraModule.RawValue
import InfraModule.Written

/-!
# Uninterpreted values as trees

What holds of every value once it holds of the values in it holds of all (`RawValue.induction`), and
the values that stand anywhere in a value are its parts (`RawValue.HasPart`). An uninterpreted value
is written with its tags and without its spans (`RawValue.written`); the values that are written
alike are found by the cases of what is written (`RawValue.written_eq_text` and the two that
follow).
-/

namespace InfraModule

/-- A value under a tag, if there is one. -/
def Written.under (tag : Option String) (w : Written) : Written :=
  match tag with
  | none => w
  | some tag => .tagged tag w

namespace RawValue

/-- What holds of a value once it holds of the values directly in it holds of all values. -/
theorem induction {P : RawValue → Prop} (scalar : ∀ tag l text, P (.scalar tag l text))
    (sequence : ∀ tag l items, (∀ r ∈ items, P r) → P (.sequence tag l items))
    (mapping : ∀ tag l entries, (∀ entry ∈ entries, P entry.2) → P (.mapping tag l entries)) :
    ∀ r, P r
  | .scalar tag l text => scalar tag l text
  | .sequence tag l items =>
    sequence tag l items fun r _ => induction scalar sequence mapping r
  | .mapping tag l entries =>
    mapping tag l entries fun (_, r) _ => induction scalar sequence mapping r
termination_by r => sizeOf r
decreasing_by
  · have := List.sizeOf_lt_of_mem ‹r ∈ items›
    simp only [RawValue.sequence.sizeOf_spec]
    omega
  · have := List.sizeOf_lt_of_mem ‹_ ∈ entries›
    simp only [RawValue.mapping.sizeOf_spec, Prod.mk.sizeOf_spec] at this ⊢
    omega

/-- A value is part of another if it is that value or stands anywhere in it. -/
inductive HasPart : RawValue → RawValue → Prop
  /-- The value itself. -/
  | self (r : RawValue) : HasPart r r
  /-- A part of an item. -/
  | item {tag : Option String} {l : Location} {items : List RawValue} {r part : RawValue}
    (h : r ∈ items) (hpart : HasPart r part) : HasPart (.sequence tag l items) part
  /-- A part of the value of an entry. -/
  | value {tag : Option String} {l : Location} {entries : List (Key × RawValue)}
    {entry : Key × RawValue} {part : RawValue} (h : entry ∈ entries)
    (hpart : HasPart entry.2 part) : HasPart (.mapping tag l entries) part

/-! ## Writing -/

mutual

/-- The value as it stands in a document. -/
def written : RawValue → Written
  | .scalar tag _ text => .under tag (.text text)
  | .sequence tag _ items => .under tag (.sequence (writtenItems items))
  | .mapping tag _ entries => .under tag (.mapping (writtenEntries entries))
termination_by structural r => r

/-- The items of a sequence as they stand in a document. -/
def writtenItems : List RawValue → List Written
  | [] => []
  | item :: items => item.written :: writtenItems items
termination_by structural items => items

/-- The entries of a mapping as they stand in a document. -/
def writtenEntries : List (Key × RawValue) → List (String × Written)
  | [] => []
  | (key, item) :: entries => (key.text, item.written) :: writtenEntries entries
termination_by structural entries => entries

end

/-- The items of a sequence are written one by one. -/
theorem writtenItems_eq_map : ∀ items : List RawValue, writtenItems items = items.map written
  | [] => rfl
  | item :: items => congrArg (item.written :: ·) (writtenItems_eq_map items)

/-- The entries of a mapping are written one by one. -/
theorem writtenEntries_eq_map : ∀ entries : List (Key × RawValue),
    writtenEntries entries = entries.map fun entry => (entry.1.text, entry.2.written)
  | [] => rfl
  | (key, item) :: entries =>
    congrArg ((key.text, item.written) :: ·) (writtenEntries_eq_map entries)

variable {r : RawValue} {text : String} {ws : List Written}
  {entries : List (String × Written)}

/-- A text is written for a scalar only. -/
theorem written_eq_text (tag : Option String) :
    r.written = .under tag (.text text) ↔ ∃ l, r = .scalar tag l text := by
  constructor
  · intro h
    match r, tag with
    | .scalar none .., none | .scalar (some _) .., some _ => cases h; exact ⟨_, rfl⟩
    | .scalar none .., some _ | .scalar (some _) .., none | .sequence none .., none
    | .sequence none .., some _ | .sequence (some _) .., none | .sequence (some _) .., some _
    | .mapping none .., none | .mapping none .., some _ | .mapping (some _) .., none
    | .mapping (some _) .., some _ => cases h
  · rintro ⟨l, rfl⟩
    rfl

/-- A sequence is written for a sequence only. -/
theorem written_eq_sequence (tag : Option String) : r.written = .under tag (.sequence ws) ↔
    ∃ l items, r = .sequence tag l items ∧ items.map written = ws := by
  constructor
  · intro h
    match r, tag with
    | .sequence none .., none | .sequence (some _) .., some _ =>
      cases h
      exact ⟨_, _, rfl, (writtenItems_eq_map _).symm⟩
    | .scalar none .., none | .scalar none .., some _ | .scalar (some _) .., none
    | .scalar (some _) .., some _ | .sequence none .., some _ | .sequence (some _) .., none
    | .mapping none .., none | .mapping none .., some _ | .mapping (some _) .., none
    | .mapping (some _) .., some _ => cases h
  · rintro ⟨l, items, rfl, rfl⟩
    rw [written, writtenItems_eq_map]

/-- A mapping is written for a mapping only. -/
theorem written_eq_mapping (tag : Option String) : r.written = .under tag (.mapping entries) ↔
    ∃ l es, r = .mapping tag l es ∧
      es.map (fun entry => (entry.1.text, entry.2.written)) = entries := by
  constructor
  · intro h
    match r, tag with
    | .mapping none .., none | .mapping (some _) .., some _ =>
      cases h
      exact ⟨_, _, rfl, (writtenEntries_eq_map _).symm⟩
    | .scalar none .., none | .scalar none .., some _ | .scalar (some _) .., none
    | .scalar (some _) .., some _ | .sequence none .., none | .sequence none .., some _
    | .sequence (some _) .., none | .sequence (some _) .., some _ | .mapping none .., some _
    | .mapping (some _) .., none => cases h
  · rintro ⟨l, es, rfl, rfl⟩
    rw [written, writtenEntries_eq_map]

end RawValue

end InfraModule
