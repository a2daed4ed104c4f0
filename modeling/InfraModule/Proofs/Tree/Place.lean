import InfraModule.Proofs.Tree.Mirror

/-!
# Where items stand

In a typed tree each declaration but the root is bound to a key of another, alone or in a list, and
the schema table says of which kinds that may be. So no module stands in a module
(`Tree.ModuleAt.eq_root`), and an item stands in the list of items of the module or of a group
(`Tree.ModuleAt.exists_listedIn`).
-/

namespace InfraModule

/-! ## Where the schema table accepts items -/

/-- Whether declarations of a kind stand in values of this kind. -/
def ValueKind.admits : ValueKind → Kind → Bool
  | .declaration type, kind | .declarationList type, kind => type.accepts kind
  | _, _ => false

/-- Modules stand nowhere, and items in the lists of items of modules and groups only. -/
theorem Kind.of_admits {k kind : Kind} {p : Property} (hp : p ∈ k.properties)
    (h : p.value.admits kind = true) : kind ≠ .module ∧
      (kind.isItem = true → p = Schema.required "Items" Schema.items ∧
        (k = .module ∨ k = .group)) := by
  have hall : ∀ k ∈ Kind.all, ∀ p ∈ k.properties, ∀ kind ∈ Kind.all,
      p.value.admits kind = true → kind ≠ .module ∧
        (kind.isItem = true → p = Schema.required "Items" Schema.items ∧
          (k = .module ∨ k = .group)) := by
    decide +kernel
  exact hall k k.mem_all p hp kind kind.mem_all h

/-- The keyword of an item is its name. -/
theorem Kind.exists_keyword_of_isItem {k : Kind} (h : k.isItem = true) :
    ∃ key, k.schema.keyword = some (key, .string) := by
  cases k <;> first | exact ⟨_, rfl⟩ | cases h

/-- The value of a keyword is an expression. -/
theorem Kind.keyword_value {k : Kind} {key : String} {value : ValueKind}
    (h : k.schema.keyword = some (key, value)) : value = .string ∨ value = .expression := by
  have hall : ∀ k ∈ Kind.all, ∀ keyword ∈ k.schema.keyword,
      keyword.2 = .string ∨ keyword.2 = .expression := by
    decide +kernel
  exact hall k k.mem_all _ h

namespace Tree

variable {t : Tree} {root x y c q : NodeId} {d : Declaration} {kind : ValueKind}
  {ids : List NodeId}

/-! ## Owners of declarations and collections -/

/-- What a declaration owns is an expression or bound to a key other than the keyword. -/
theorem ValuesTyped.of_mem_children (h : t.ValuesTyped d) (hx : x ∈ d.children) :
    (∃ e, t.node? x = some (.expression e)) ∨
      ∃ p ∈ d.kind.properties, d.property? p.key = some x ∧ t.HasForm p.value x := by
  obtain ⟨key, hkey⟩ := Declaration.exists_bound?_of_mem_children hx
  rw [Declaration.bound?] at hkey
  split at hkey
  · next hkeyword =>
    obtain ⟨⟨name, value⟩, hrow, -⟩ := Option.map_eq_some_iff.mp (beq_iff_eq.mp hkeyword)
    obtain ⟨id, hid, hform⟩ := h.keyword name value hrow
    obtain rfl : id = x := Option.some_inj.mp (hid.symm.trans hkey)
    rcases Kind.keyword_value hrow with rfl | rfl
    · exact Or.inl (IsText.isValue hform).exists_expression
    · exact Or.inl (IsValue.exists_expression hform)
  · have hhas : d.hasProperty key = true := by
      obtain ⟨slot, hslot, -⟩ := Option.bind_eq_some_iff.mp hkey
      have hslotKey : (slot.key == key) = true := by simpa using List.find?_some hslot
      exact List.any_eq_true.mpr ⟨slot, List.mem_of_find?_eq_some hslot, hslotKey⟩
    obtain ⟨p, hp, rfl⟩ := List.mem_map.mp ((d.hasProperty_iff key).mp hhas)
    exact Or.inr ⟨p, hp, hkey, h.property p hp x hkey⟩

/-- What has a prescribed form and is a declaration was prescribed as one. -/
theorem HasForm.of_declaration (h : t.HasForm kind x) (hx : t.node? x = some (.declaration d)) :
    ∃ type, kind = .declaration type ∧ type.accepts d.kind = true := by
  have hform := form?_of_node? hx
  cases kind with
  | declaration type =>
    obtain ⟨k, hk, haccepts⟩ := h
    cases hform.symm.trans hk
    exact ⟨type, rfl, haccepts⟩
  | _ => simp [HasForm, IsText, IsValue, IsCondition, hform, Node.form, Form.isValue] at h

/-- What has a prescribed form and is a collection is one of texts or of declarations. -/
theorem HasForm.of_collection (h : t.HasForm kind c) (hc : t.node? c = some (.collection ids)) :
    (∀ x ∈ ids, t.IsText x) ∨
      ∃ type, kind = .declarationList type ∧ ∀ x ∈ ids, t.IsDeclaration type x := by
  have hform := form?_of_node? hc
  cases kind with
  | stringList =>
    obtain ⟨items, hitems, htexts⟩ := h
    cases hform.symm.trans hitems
    exact Or.inl htexts
  | declarationList type =>
    obtain ⟨items, hitems, hdeclarations⟩ := h
    cases hform.symm.trans hitems
    exact Or.inr ⟨type, rfl, hdeclarations⟩
  | _ => simp [HasForm, IsText, IsValue, IsCondition, IsDeclaration, hform, Node.form,
      Form.isValue] at h

/-- The form of a declaration tells that the node is one. -/
theorem exists_declaration_of_form? {k : Kind} (h : t.form? x = some (.declaration k)) :
    ∃ d, t.node? x = some (.declaration d) ∧ d.kind = k := by
  obtain ⟨n, hn, hform⟩ := Option.map_eq_some_iff.mp h
  cases n with
  | declaration d =>
    cases hform
    exact ⟨d, hn, rfl⟩
  | expression e => cases e <;> cases hform
  | collection ids => cases hform

/-- The form of a collection is all of it. -/
theorem node?_of_form?_collection (h : t.form? x = some (.collection ids)) :
    t.node? x = some (.collection ids) := by
  obtain ⟨n, hn, hform⟩ := Option.map_eq_some_iff.mp h
  cases n with
  | declaration d => cases hform
  | expression e => cases e <;> cases hform
  | collection items =>
    cases hform
    exact hn

/-- A text is no declaration. -/
theorem IsText.not_declaration (h : t.IsText x) : t.node? x ≠ some (.declaration d) := by
  obtain ⟨e, he⟩ := h.isValue.exists_expression
  simp [he]

/-- What is not the root of a subtree has an owner in it. -/
theorem Within.exists_parent (ht : t.Sound) (h : t.Within root x) (hne : root ≠ x) :
    ∃ p n, t.parent? x = some p ∧ t.Within root p ∧ t.node? p = some n ∧ x ∈ n.children := by
  cases hp : t.parent? x with
  | none => exact (hne ((within_iff_of_root ht hp).mp h)).elim
  | some p =>
    obtain ⟨n, hn⟩ := node?_eq_some_iff_lt.mpr (ht.lt_size_of_owner hp)
    refine ⟨p, n, rfl, ((within_iff_of_parent? ht hp).mp h).resolve_left hne, hn, ?_⟩
    rw [← children_of_node? hn]
    exact ht.owner.mpr hp

section Typed

variable (ht : t.Sound) (htyped : ∀ x n, t.node? x = some n → t.WellTyped n)
  (hroot : ∃ d, t.node? root = some (.declaration d))

include ht htyped hroot

/-- A collection in a declaration is bound to a key of a declaration in it. -/
theorem exists_owner_of_collection (hwithin : t.Within root c)
    (hc : t.node? c = some (.collection ids)) :
    ∃ q d, t.Within root q ∧ t.parent? c = some q ∧ t.node? q = some (.declaration d) ∧
      ∃ p ∈ d.kind.properties, d.property? p.key = some c ∧ t.HasForm p.value c := by
  -- The induction goes up: nothing that stands in the collection above could be one.
  induction c using ht.finite.induction generalizing ids with
  | _ c ih =>
    have hne : root ≠ c := by
      rintro rfl
      obtain ⟨d, hd⟩ := hroot
      simp [hc] at hd
    obtain ⟨q, n, hp, hq, hn, hchild⟩ := hwithin.exists_parent ht hne
    cases n with
    | declaration d =>
      rcases ValuesTyped.of_mem_children (htyped q _ hn) hchild with ⟨e, he⟩ | hproperty
      · simp [hc] at he
      · exact ⟨q, d, hq, hp, hn, hproperty⟩
    | expression e =>
      obtain ⟨e', he'⟩ := (htyped q _ hn).exists_expression hchild
      simp [hc] at he'
    | collection items =>
      obtain ⟨-, -, -, -, -, p, -, -, hform⟩ := ih q hp hq hn
      rcases hform.of_collection hn with htexts | ⟨type, -, hdeclarations⟩
      · obtain ⟨e, he⟩ := (htexts c hchild).isValue.exists_expression
        simp [hc] at he
      · obtain ⟨k, hform, -⟩ := hdeclarations c hchild
        simp [form?_of_node? hc, Node.form] at hform

/-- A declaration in another is bound to a key of one, or an element of a collection that is. -/
theorem exists_owner_of_declaration (hwithin : t.Within root x) (hne : root ≠ x)
    (hx : t.node? x = some (.declaration d)) :
    ∃ q dq, t.Within root q ∧ t.node? q = some (.declaration dq) ∧
      ∃ p ∈ dq.kind.properties, p.value.admits d.kind = true ∧
        ((∃ type, p.value = .declaration type) ∨ ∃ c ids, t.parent? x = some c ∧
          t.parent? c = some q ∧ t.node? c = some (.collection ids) ∧
            dq.property? p.key = some c) := by
  obtain ⟨c, n, hparent, hc, hn, hchild⟩ := hwithin.exists_parent ht hne
  cases n with
  | declaration dc =>
    rcases ValuesTyped.of_mem_children (htyped c _ hn) hchild with ⟨e, he⟩ | ⟨p, hp, -, hform⟩
    · simp [hx] at he
    · obtain ⟨type, hvalue, haccepts⟩ := hform.of_declaration hx
      exact ⟨c, dc, hc, hn, p, hp, by rwa [hvalue], Or.inl ⟨type, hvalue⟩⟩
  | expression e =>
    obtain ⟨e', he'⟩ := (htyped c _ hn).exists_expression hchild
    simp [hx] at he'
  | collection ids =>
    obtain ⟨q, dq, hq, howner, hdq, p, hp, hbound, hform⟩ :=
      exists_owner_of_collection ht htyped hroot hc hn
    rcases hform.of_collection hn with htexts | ⟨type, hvalue, hdeclarations⟩
    · exact ((htexts x hchild).not_declaration hx).elim
    · obtain ⟨k, hform, haccepts⟩ := hdeclarations x hchild
      cases (form?_of_node? hx).symm.trans hform
      exact ⟨q, dq, hq, hdq, p, hp, by rwa [hvalue],
        Or.inr ⟨c, ids, hparent, howner, hn, hbound⟩⟩

end Typed

/-! ## Lists of items -/

/-- The node stands in the list of items `c` of the module or group `q`. -/
structure ListedIn (t : Tree) (x c q : NodeId) : Prop where
  /-- The list owns the node. -/
  parent : t.parent? x = some c
  /-- The module or group owns the list. -/
  owner : t.parent? c = some q
  /-- The list is one. -/
  list : ∃ ids, t.node? c = some (.collection ids)
  /-- It is the one list of items. -/
  bound : ∃ d, t.node? q = some (.declaration d) ∧ d.property? "Items" = some c ∧
    (d.kind = .module ∨ d.kind = .group)

namespace ListedIn

/-- A module or group has one list of items. -/
theorem list_unique {c' : NodeId} (hx : t.ListedIn x c q) (hy : t.ListedIn y c' q) : c = c' := by
  obtain ⟨d, hd, hc, -⟩ := hx.bound
  obtain ⟨d', hd', hc', -⟩ := hy.bound
  cases hd.symm.trans hd'
  exact Option.some_inj.mp (hc.symm.trans hc')

/-- What stands in a list is one of its elements. -/
theorem mem (ht : t.Sound) (hx : t.ListedIn x c q) (hc : t.node? c = some (.collection ids)) :
    x ∈ ids := by
  have hmem := ht.owner.mpr hx.parent
  rwa [children_of_node? hc] at hmem

end ListedIn

/-- The root declares a module and has no owner, and the whole tree is sound and typed. -/
structure ModuleAt (t : Tree) (root : NodeId) : Prop where
  /-- The tree is sound. -/
  sound : t.Sound
  /-- Its nodes are typed. -/
  typed : ∀ x n, t.node? x = some n → t.WellTyped n
  /-- The root declares a module. -/
  module : t.IsDeclaration (.concrete .module) root
  /-- The root has no owner. -/
  parent : t.parent? root = none

/-- The node is an item of the module. -/
def ItemOf (t : Tree) (root x : NodeId) : Prop :=
  t.Within root x ∧ t.isItem x = true

instance : Decidable (t.ItemOf root x) :=
  inferInstanceAs (Decidable (_ ∧ _))

/-- Whether an id is an item is a question about its node. -/
theorem isItem_of_node? {n : Node} (h : t.node? x = some n) : t.isItem x = n.isItem := by
  rw [isItem, h]
  rfl

/-- Whether a declaration is an item is a question about its kind. -/
theorem isItem_of_kind? {kind : Kind} (h : t.kind? x = some kind) : t.isItem x = kind.isItem := by
  rw [isItem_eq_kind?, h]
  rfl

/-- An item is a declaration of a kind of items. -/
theorem exists_declaration_of_isItem (h : t.isItem x = true) :
    ∃ d, t.node? x = some (.declaration d) ∧ d.kind.isItem = true := by
  cases hn : t.node? x with
  | none => simp [isItem, hn] at h
  | some n =>
    rw [isItem_of_node? hn] at h
    cases n with
    | declaration d => exact ⟨d, rfl, h⟩
    | expression e => cases h
    | collection ids => cases h

/-- Items of a module exist. -/
theorem ItemOf.lt_size (h : t.ItemOf root x) : x < t.size := by
  obtain ⟨d, hnode, -⟩ := exists_declaration_of_isItem h.2
  exact lt_size_of_node? hnode

namespace ModuleAt

/-- The root of a module is the declaration of a module. -/
theorem exists_declaration (h : t.ModuleAt root) :
    ∃ d, t.node? root = some (.declaration d) ∧ d.kind = .module := by
  obtain ⟨kind, hform, haccepts⟩ := h.module
  obtain rfl : kind = .module := by simpa [DeclarationType.accepts] using haccepts
  exact exists_declaration_of_form? hform

/-- A module in the subtree is its root. -/
theorem eq_root (h : t.ModuleAt root) (hq : t.Within root q)
    (hnode : t.node? q = some (.declaration d)) (hkind : d.kind = .module) : q = root := by
  by_contra hne
  obtain ⟨dr, hr, -⟩ := h.exists_declaration
  obtain ⟨-, dq, -, -, p, hp, hadmits, -⟩ :=
    exists_owner_of_declaration h.sound h.typed ⟨dr, hr⟩ hq (Ne.symm hne) hnode
  exact (Kind.of_admits hp hadmits).1 hkind

/-- An item stands in the list of items of the module or of a group. -/
theorem exists_listedIn (h : t.ModuleAt root) (hx : t.ItemOf root x) :
    ∃ c q, t.Within root q ∧ t.ListedIn x c q := by
  obtain ⟨d, hnode, hitem⟩ := exists_declaration_of_isItem hx.2
  obtain ⟨dr, hr, hmodule⟩ := h.exists_declaration
  -- The module itself is no item.
  have hne : root ≠ x := by
    rintro rfl
    cases hr.symm.trans hnode
    rw [hmodule] at hitem
    cases hitem
  obtain ⟨q, dq, hq, hdq, p, hp, hadmits, hplace⟩ :=
    exists_owner_of_declaration h.sound h.typed ⟨dr, hr⟩ hx.1 hne hnode
  obtain ⟨rfl, hkind⟩ := (Kind.of_admits hp hadmits).2 hitem
  rcases hplace with ⟨type, hvalue⟩ | ⟨c, ids, hparent, howner, hlist, hbound⟩
  · cases hvalue
  · exact ⟨c, q, hq, hparent, howner, ⟨ids, hlist⟩, dq, hdq, hbound, hkind⟩

/-- An item has a name. -/
theorem exists_declarationName? (h : t.ModuleAt root) (hx : t.isItem x = true) :
    ∃ name, t.declarationName? x = some name := by
  obtain ⟨d, hnode, hitem⟩ := exists_declaration_of_isItem hx
  obtain ⟨key, hrow⟩ := Kind.exists_keyword_of_isItem hitem
  obtain ⟨id, hid, htext⟩ := ValuesTyped.keyword (h.typed x _ hnode) key .string hrow
  refine Option.isSome_iff_exists.mp ?_
  simpa [declarationName?, declaration?, hnode, Node.declaration?, hid]
    using IsText.isSome_literalText? htext

end ModuleAt

end Tree

end InfraModule
