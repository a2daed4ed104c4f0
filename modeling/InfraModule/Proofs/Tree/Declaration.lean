import InfraModule.Proofs.Tree.Node
import InfraModule.Proofs.Tree.Typing

/-!
# Keys of a declaration

Looking up a key in the schema table, and binding keys of a declaration that was created with
nothing but its keyword. The keyword and the other keys are looked up alike by `Declaration.bound?`.
-/

namespace InfraModule

namespace Kind

variable {kind : Kind} {key : String} {known : Property}

/-- A key that a kind has is the keyword or one of the others. -/
theorem property?_cases (h : kind.property? key = some known) :
    (kind.isKeyword known.key = true ∧ kind.keywordProperty = some known) ∨
      (kind.isKeyword known.key = false ∧ known ∈ kind.properties) := by
  have hmem : known ∈ kind.keywordProperty.toList ++ kind.properties := List.mem_of_find?_eq_some h
  have hkey : known.key = key := by simpa using List.find?_some h
  cases hkeyword : kind.keywordProperty with
  | none =>
    have hrow : kind.schema.keyword = none := by simpa [keywordProperty] using hkeyword
    rw [hkeyword, Option.toList_none, List.nil_append] at hmem
    exact Or.inr ⟨by simp [isKeyword, keyword, hrow], hmem⟩
  | some p =>
    obtain ⟨⟨name, value⟩, hrow, rfl⟩ := Option.map_eq_some_iff.mp hkeyword
    have hisKeyword : kind.isKeyword known.key = (name == known.key) := by
      simp [isKeyword, keyword, hrow]
    by_cases hname : name = known.key
    · -- The keyword comes first among the keys, so it is the one that is found.
      rw [property?, keys, hkeyword, Option.toList_some, List.singleton_append] at h
      rw [List.find?_cons_of_pos (by simp [hname, hkey])] at h
      exact Or.inl ⟨by simp [hisKeyword, hname], h⟩
    · rw [hkeyword, Option.toList_some, List.singleton_append, List.mem_cons] at hmem
      refine Or.inr ⟨by simp [hisKeyword, hname], hmem.resolve_left ?_⟩
      rintro rfl
      exact hname rfl

/-- A key other than the keyword stands in one row only. -/
theorem property_unique {p q : Property} (hp : p ∈ kind.properties) (hq : q ∈ kind.properties)
    (h : p.key = q.key) : p = q :=
  List.inj_on_of_nodup_map kind.nodup_propertyKeys hp hq h

/-- The keyword is none of the other keys. -/
theorem notMem_propertyKeys_of_isKeyword (h : kind.isKeyword key = true) :
    key ∉ kind.propertyKeys := by
  have hkeyword : kind.keyword = some key := by simpa [isKeyword] using h
  have hall : ∀ k ∈ kind.keyword, k ∉ kind.propertyKeys := by
    cases kind <;> decide
  exact hall key hkeyword

/-- The keyword must be present. -/
theorem mem_mandatoryKeys_of_keyword (h : kind.keyword = some key) : key ∈ kind.mandatoryKeys := by
  obtain ⟨⟨name, value⟩, hrow, rfl⟩ := Option.map_eq_some_iff.mp h
  rw [mandatoryKeys, Sorted.mem_ofList]
  simp [keys, keywordProperty, hrow]

end Kind

/-- The slot of a key after a key was bound anew. -/
theorem Slot.find?_bind (key k : String) (value : Option NodeId) (slots : List Slot) :
    (bind key value slots).find? (·.key == k) = (slots.find? (·.key == k)).map
      fun slot => if slot.key = key then { slot with value } else slot := by
  have hkey : (fun slot : Slot => (if slot.key = key then { slot with value } else slot).key == k)
      = fun slot => slot.key == k := by
    funext slot
    split <;> rfl
  rw [bind, List.find?_map]
  exact congrArg _ (congrArg (List.find? · slots) hkey)

namespace Declaration

variable {d : Declaration} {key : String} {value : Option NodeId}

/-- A declaration has the keys that the table gives its kind. -/
theorem hasProperty_of_mem {p : Property} (h : p ∈ d.kind.properties) :
    d.hasProperty p.key = true :=
  (d.hasProperty_iff p.key).mpr (List.mem_map.mpr ⟨p, h, rfl⟩)

/-- A key that was bound is bound to its value. -/
theorem property?_withProperty_self (h : d.hasProperty key = true) :
    (d.withProperty key value).property? key = value := by
  obtain ⟨slot, hslot⟩ := Option.isSome_iff_exists.mp (by
    rw [List.find?_isSome]
    exact List.any_eq_true.mp h)
  have hkey : slot.key = key := by simpa using List.find?_some hslot
  rw [property?, withProperty, Slot.find?_bind, hslot, Option.map_some, if_pos hkey]
  rfl

/-- Binding a key leaves the other keys alone. -/
theorem property?_withProperty_of_ne {k : String} (h : k ≠ key) :
    (d.withProperty key value).property? k = d.property? k := by
  rw [property?, property?, withProperty, Slot.find?_bind]
  cases hslot : d.slots.find? (·.key == k) with
  | none => rfl
  | some slot =>
    have hkey : slot.key = k := by simpa using List.find?_some hslot
    rw [Option.map_some, if_neg (hkey ▸ h)]

/-- What is created has the kind's keyword bound, if there is one, and no other key. -/
theorem new?_eq_some {kind : Kind} {keyword : Option NodeId} (h : new? kind keyword = some d) :
    d.kind = kind ∧ (kind.keyword.isSome = true → d.keyword = keyword ∧ keyword.isSome = true) ∧
      d.children.Sublist keyword.toList ∧ ∀ key, d.property? key = none := by
  have hunbound (key : String) :
      ((kind.propertyKeys.map (Slot.mk · none)).find? (·.key == key)).bind Slot.value = none := by
    rw [List.find?_map]
    cases kind.propertyKeys.find? _ <;> rfl
  have hnil : (kind.propertyKeys.map (Slot.mk · none)).filterMap Slot.value = [] := by
    simp
  unfold new? at h
  dsimp only at h
  split at h
  · next hk =>
    cases h
    exact ⟨rfl, by simp [hk], by simp [children, hnil], hunbound⟩
  · next k hk =>
    cases keyword with
    | none => cases h
    | some keyword =>
      cases h
      exact ⟨rfl, by simp, by simp [children, hnil], hunbound⟩

/-- Only a keyword that is missing keeps a declaration from being created. -/
theorem new?_eq_none {kind : Kind} {keyword : Option NodeId} (h : new? kind keyword = none) :
    kind.keyword.isSome = true ∧ keyword = none := by
  unfold new? at h
  dsimp only at h
  split at h
  · cases h
  · next k hk =>
    cases keyword with
    | none => exact ⟨by rw [hk]; rfl, rfl⟩
    | some keyword => cases h

/-! ## All keys alike -/

/-- The node bound to a key, the keyword included. -/
def bound? (d : Declaration) (key : String) : Option NodeId :=
  if d.kind.isKeyword key then d.keyword else d.property? key

/-- A declaration owns nothing but what is bound to its keys. -/
theorem exists_bound?_of_mem_children {id : NodeId} (h : id ∈ d.children) :
    ∃ key, d.bound? key = some id := by
  rcases List.mem_append.mp h with h | h
  · -- A keyword is bound only if the kind has one.
    have hid : d.keyword = some id := by simpa using h
    have hsome : d.kind.keyword.isSome = true := by rw [← d.keyword_isSome, hid]; rfl
    obtain ⟨key, hkey⟩ := Option.isSome_iff_exists.mp hsome
    exact ⟨key, by rw [bound?, if_pos (by simp [Kind.isKeyword, hkey]), hid]⟩
  · obtain ⟨slot, hslot, hid⟩ := List.mem_filterMap.mp h
    have hmem : slot.key ∈ d.kind.propertyKeys := d.slots_keys ▸ List.mem_map_of_mem hslot
    have hkeyword : ¬ d.kind.isKeyword slot.key = true :=
      fun h => Kind.notMem_propertyKeys_of_isKeyword h hmem
    refine ⟨slot.key, ?_⟩
    rw [bound?, if_neg hkeyword, property?]
    -- The slot is the only one of its key, so it is the one that is found.
    have hsome : (d.slots.find? (·.key == slot.key)).isSome = true :=
      List.find?_isSome.mpr ⟨slot, hslot, beq_self_eq_true slot.key⟩
    obtain ⟨found, hfound⟩ := Option.isSome_iff_exists.mp hsome
    have heq : found = slot := List.inj_on_of_nodup_map d.nodup_keys
      (List.mem_of_find?_eq_some hfound) hslot (by simpa using List.find?_some hfound)
    rw [hfound, Option.bind_some, heq, hid]

/-- The same declaration with keys other than the keyword bound to values, in order. -/
def withAll (d : Declaration) (values : List (String × NodeId)) : Declaration :=
  values.foldl (fun d (key, id) => d.withProperty key (some id)) d

variable {values : List (String × NodeId)}

/-- Binding properties leaves the kind of a declaration. -/
@[simp] theorem kind_withAll : (d.withAll values).kind = d.kind := by
  induction values generalizing d with
  | nil => rfl
  | cons entry values ih => exact ih

/-- Binding properties leaves the keyword of a declaration. -/
@[simp] theorem keyword_withAll : (d.withAll values).keyword = d.keyword := by
  induction values generalizing d with
  | nil => rfl
  | cons entry values ih => exact ih

/-- Distinct keys are bound to their values, and others are as they were. -/
theorem property?_withAll (hkeys : ∀ entry ∈ values, d.hasProperty entry.1 = true)
    (hnodup : (values.map Prod.fst).Nodup) (key : String) :
    (d.withAll values).property? key = (values.lookup key).or (d.property? key) := by
  induction values generalizing d with
  | nil => rfl
  | cons entry values ih =>
    obtain ⟨k, id⟩ := entry
    obtain ⟨hk, hkeys⟩ := List.forall_mem_cons.mp hkeys
    obtain ⟨hnew, hnodup⟩ := List.nodup_cons.mp hnodup
    have hkeys' : ∀ entry ∈ values, (d.withProperty k (some id)).hasProperty entry.1 = true := by
      intro entry hentry
      rw [hasProperty_iff]
      exact (hasProperty_iff d _).mp (hkeys entry hentry)
    change ((d.withProperty k (some id)).withAll values).property? key = _
    rw [ih hkeys' hnodup, List.lookup_cons]
    by_cases hkey : key = k
    · have hnone : values.lookup key = none := by
        rw [List.lookup_eq_none_iff]
        intro entry hentry
        simpa using fun heq => hnew (List.mem_map.mpr ⟨entry, hentry, heq.symm.trans hkey⟩)
      subst hkey
      rw [hnone, property?_withProperty_self hk]
      simp
    · rw [property?_withProperty_of_ne hkey, beq_eq_false_iff_ne.mpr hkey]

/-- After several keys are bound, each of them has its value, and other keys have what they had. -/
theorem bound?_withAll (hkeys : ∀ entry ∈ values, d.hasProperty entry.1 = true)
    (hnodup : (values.map Prod.fst).Nodup) (key : String) : (d.withAll values).bound? key =
      if d.kind.isKeyword key then d.keyword else (values.lookup key).or (d.property? key) := by
  rw [bound?, kind_withAll, keyword_withAll, property?_withAll hkeys hnodup]

end Declaration

end InfraModule
