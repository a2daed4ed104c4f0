import InfraModule.Schema

/-!
# Choosing a kind by the first key

Where a whole family is accepted, the first key of a mapping is the keyword of the kind meant. Where
one kind is accepted, the first key must be its keyword; a kind without keyword may start with any
of its keys.
-/

namespace InfraModule.DeclarationType

/-- The kind that a mapping with this first key declares. -/
def resolveFirst : DeclarationType → String → Option Kind
  | .concrete kind, key =>
    match kind.keyword with
    | some keyword => if keyword == key then some kind else none
    | none => if (kind.property? key).isSome then some kind else none
  | .abstract family, key => family.kinds.find? (·.isKeyword key)

/-- The keys that can open a mapping, sorted; `none` where any key of the kind may. -/
def keywords : DeclarationType → Option (List String)
  | .concrete kind => kind.keyword.map ([·])
  | .abstract family => some (Sorted.ofList (family.kinds.filterMap Kind.keyword))

/-- A chosen kind is one that the type accepts. -/
theorem accepts_of_resolveFirst {type : DeclarationType} {key : String} {kind : Kind}
    (h : type.resolveFirst key = some kind) : type.accepts kind = true := by
  cases type with
  | concrete k =>
    have hk : k = kind := by
      simp only [resolveFirst] at h
      split at h <;> simp_all
    simp [accepts, hk]
  | abstract family =>
    have hmem := List.mem_of_find?_eq_some h
    simpa [accepts, Family.kinds] using (List.mem_filter.mp hmem).2

/-- The keyword of a kind is one of its keys. -/
theorem property?_isSome_of_isKeyword {kind : Kind} {key : String}
    (h : kind.isKeyword key = true) : (kind.property? key).isSome = true := by
  simp only [Kind.isKeyword, Kind.keyword, beq_iff_eq, Option.map_eq_some_iff] at h
  obtain ⟨⟨name, value⟩, hrow, rfl⟩ := h
  simp [Kind.property?, Kind.keys, Kind.keywordProperty, hrow]

/-- The first key of a chosen kind is one of its keys. -/
theorem property?_isSome_of_resolveFirst {type : DeclarationType} {key : String} {kind : Kind}
    (h : type.resolveFirst key = some kind) : (kind.property? key).isSome = true := by
  cases type with
  | concrete k =>
    simp only [resolveFirst] at h
    split at h
    · next keyword hk =>
      split at h
      · next heq =>
        obtain rfl : k = kind := by simpa using h
        exact property?_isSome_of_isKeyword (by simpa [Kind.isKeyword, hk] using heq)
      · simp at h
    · split at h
      · next hsome =>
        obtain rfl : k = kind := by simpa using h
        exact hsome
      · simp at h
  | abstract family =>
    simp only [resolveFirst] at h
    have hk := List.find?_some h
    exact property?_isSome_of_isKeyword hk

end InfraModule.DeclarationType
