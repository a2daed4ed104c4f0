import InfraModule.Proofs.Event.Source
import InfraModule.Proofs.Tree.Declaration
import InfraModule.Proofs.Tree.Term

/-!
# Trees that mirror documents

A subtree mirrors a value of a document if nothing of the value was lost (`Tree.Mirrors`). A
declaration binds every key of its mapping to what mirrors the key's value, each key once, and all
its mandatory keys; a collection has one item for each item of its sequence, in order. Where a tree
mirrors a document, each declaration and each collection in it mirrors a part of the document
(`Tree.Mirrors.of_within`).
-/

namespace InfraModule

/-- What a collection that is read from a sequence has for each item. -/
def ValueKind.element? : ValueKind → Option ValueKind
  | .stringList => some .string
  | .declarationList type => some (.declaration type)
  | _ => none

/-- Whether a value of the kind is kept as an expression of what it means. -/
def ValueKind.isExpression : ValueKind → Bool
  | .int | .bool | .expression | .condition | .object | .list => true
  | _ => false

/-- Whether the form is that of an expression. -/
def Form.isExpression : Form → Bool
  | .declaration _ | .collection _ => false
  | _ => true

/-- The form of a value is that of an expression. -/
theorem Form.isExpression_of_isValue {f : Form} (h : f.isValue = true) : f.isExpression = true := by
  cases f <;> first | rfl | cases h

/-- An entry of the mapping of a declaration, the key that it is for and the node of its value. -/
structure BoundEntry where
  /-- The span of the key. -/
  span : Span
  /-- The tag of the key, which is not looked at. -/
  tag : Option String
  /-- The key as the kind of declaration has it. -/
  property : Property
  /-- The value. -/
  value : Source
  /-- The node of the value. -/
  node : NodeId

namespace BoundEntry

/-- The key as it is written. -/
def key (entry : BoundEntry) : String :=
  entry.property.key

/-- The entry as it is written. -/
def source (entry : BoundEntry) : Source × Source :=
  (.scalar entry.span entry.tag entry.key, entry.value)

end BoundEntry

/-- Each element of one of two lists of the same length stands beside one of the other. -/
theorem exists_mem_zip {α β : Type} {as : List α} {bs : List β} {b : β}
    (hlength : as.length = bs.length) (hb : b ∈ bs) : ∃ a, (a, b) ∈ as.zip bs := by
  rw [← List.map_snd_zip hlength.ge] at hb
  obtain ⟨⟨a, _⟩, hmem, rfl⟩ := List.mem_map.mp hb
  exact ⟨a, hmem⟩

namespace Tree

variable {t u : Tree} {id x : NodeId} {kind : ValueKind} {source : Source}

/-- Nothing of a value of a document was lost in the subtree at a node. -/
inductive Mirrors (t : Tree) : ValueKind → Source → NodeId → Prop
  /-- A scalar is kept as its text. -/
  | string {span : Span} {text : String} {id : NodeId}
    (hnode : t.node? id = some (.expression (.literal (.string text)))) :
    Mirrors t .string (.scalar span none text) id
  /-- A value that means an expression is kept as one. -/
  | expression {kind : ValueKind} {source : Source} {id : NodeId} (hkind : kind.isExpression = true)
    (hform : t.HasForm kind id) : Mirrors t kind source id
  /-- A sequence is kept as a collection with one item for each of its items, in order. -/
  | collection {kind element : ValueKind} {first last : Span} {items : List Source}
    {ids : List NodeId} {id : NodeId} (hkind : kind.element? = some element)
    (hnode : t.node? id = some (.collection ids)) (hlength : items.length = ids.length)
    (hitems : ∀ item id, (item, id) ∈ items.zip ids → Mirrors t element item id) :
    Mirrors t kind (.sequence first last none items) id
  /-- A mapping is kept as a declaration that binds each of its keys, and nothing else but the
  version of a module that has none. -/
  | declaration {type : DeclarationType} {first last : Span} {entries : List BoundEntry}
    {sources : List (Source × Source)} {d : Declaration} {id : NodeId}
    (hnode : t.node? id = some (.declaration d)) (haccepts : type.accepts d.kind = true)
    (hmandatory : ∀ key ∈ d.kind.mandatoryKeys, (d.bound? key).isSome = true)
    (hsources : sources = entries.map BoundEntry.source)
    (hnodup : (entries.map BoundEntry.key).Nodup)
    (hbound : ∀ entry ∈ entries, d.kind.property? entry.key = some entry.property ∧
      d.bound? entry.key = some entry.node)
    (hvalues : ∀ entry ∈ entries, Mirrors t entry.property.value entry.value entry.node)
    (hauthored : ∀ key child, d.bound? key = some child → (∃ entry ∈ entries, entry.node = child) ∨
      (d.kind = .module ∧ key = "Version" ∧ t.IsText child)) :
    Mirrors t (.declaration type) (.mapping first last none sources) id

namespace Mirrors

/-- A collection mirrors a sequence if its items mirror those of the sequence in order. -/
theorem of_forall₂ {element : ValueKind} {first last : Span} {items : List Source}
    {ids : List NodeId} (hkind : kind.element? = some element)
    (hnode : t.node? id = some (.collection ids))
    (hitems : List.Forall₂ (t.Mirrors element) items ids) :
    t.Mirrors kind (.sequence first last none items) id := by
  obtain ⟨hlength, hall⟩ := List.forall₂_iff_zip.mp hitems
  exact .collection hkind hnode hlength fun _ _ h => hall h

/-- What was mirrored still is where all nodes stay as they are. -/
theorem of_retains (h : t.Mirrors kind source id) (htu : t.Retains u) :
    u.Mirrors kind source id := by
  induction h with
  | string hnode => exact .string (htu _ _ hnode)
  | expression hkind hform => exact .expression hkind (htu.keeps.hasForm hform)
  | collection hkind hnode hlength _ ih => exact .collection hkind (htu _ _ hnode) hlength ih
  | declaration hnode haccepts hmandatory hsources hnodup hbound _ hauthored ih =>
    refine .declaration (htu _ _ hnode) haccepts hmandatory hsources hnodup hbound ih ?_
    exact fun key child hchild => (hauthored key child hchild).imp_right fun h =>
      ⟨h.1, h.2.1, htu.keeps.isText h.2.2⟩

end Mirrors

/-! ## Parts of a mirrored document -/

/-- A node with the form of an expression is one. -/
theorem exists_expression_of_form? {f : Form} (h : t.form? id = some f)
    (hf : f.isExpression = true) : ∃ e, t.node? id = some (.expression e) := by
  obtain ⟨n, hn, rfl⟩ := Option.map_eq_some_iff.mp h
  match n with
  | .expression e => exact ⟨e, hn⟩
  | .declaration _ | .collection _ => cases hf

/-- A value is an expression. -/
theorem IsValue.exists_expression (h : t.IsValue id) :
    ∃ e, t.node? id = some (.expression e) := by
  obtain ⟨f, hform, hf⟩ := h
  exact exists_expression_of_form? hform (Form.isExpression_of_isValue hf)

/-- A condition is an expression. -/
theorem IsCondition.exists_expression (h : t.IsCondition id) :
    ∃ e, t.node? id = some (.expression e) := by
  obtain ⟨c, hform⟩ := h
  exact exists_expression_of_form? hform rfl

/-- What has the form demanded of such a value is an expression. -/
theorem HasForm.exists_expression (h : t.HasForm kind id) (hkind : kind.isExpression = true) :
    ∃ e, t.node? id = some (.expression e) := by
  cases kind with
  | int =>
    obtain ⟨n, -, hform⟩ := h
    exact exists_expression_of_form? hform rfl
  | bool =>
    obtain ⟨b, hform⟩ := h
    exact exists_expression_of_form? hform rfl
  | expression => exact IsValue.exists_expression h
  | condition => exact IsCondition.exists_expression h
  | object | list => exact exists_expression_of_form? h rfl
  | _ => cases hkind

/-- What stands among the operands of a call is an expression. -/
theorem HasRole.exists_expression {role : Role} (h : t.HasRole role id) :
    ∃ e, t.node? id = some (.expression e) := by
  cases role with
  | value => exact IsValue.exists_expression h
  | text => exact IsText.isValue h |>.exists_expression
  | conditionName =>
    obtain ⟨name, target, hform⟩ := h
    exact exists_expression_of_form? hform rfl
  | parameters => exact exists_expression_of_form? h rfl

/-- The children of a typed expression are expressions. -/
theorem WellTyped.exists_expression {e : Expression} (h : t.WellTyped (.expression e))
    (hx : x ∈ e.children) : ∃ e', t.node? x = some (.expression e') := by
  cases e with
  | literal => cases hx
  | list items => exact (h x hx).exists_expression
  | object entries =>
    obtain ⟨entry, hentry, rfl⟩ := List.mem_map.mp hx
    exact (h entry hentry).exists_expression
  | call f =>
    obtain ⟨hlength, hroles⟩ := List.forall₂_iff_zip.mp h
    obtain ⟨role, hrole⟩ := exists_mem_zip hlength hx
    exact (hroles hrole).exists_expression
  | condition c =>
    cases c with
    | and operands | or operands => exact (h.2.2 x hx).exists_expression
    | not operand =>
      rw [List.mem_singleton.mp hx]
      exact IsCondition.exists_expression h
    | equals left right =>
      rcases List.mem_pair.mp hx with rfl | rfl
      · exact h.1.exists_expression
      · exact h.2.exists_expression
    | reference name _ | existence name _ =>
      rw [List.mem_singleton.mp hx]
      exact (IsText.isValue h).exists_expression

section Within

variable (ht : t.Sound) (htyped : ∀ x n, t.node? x = some n → t.WellTyped n)

include ht htyped

/-- In a typed tree, what stands in an expression is an expression. -/
theorem exists_expression_of_within {e : Expression} (hid : t.node? id = some (.expression e))
    (hx : t.Within id x) : ∃ e', t.node? x = some (.expression e') := by
  -- The induction goes up the chain of owners, as far as the expression.
  induction x using ht.finite.induction with
  | _ x ih =>
    cases hp : t.parent? x with
    | none => exact ⟨e, (within_iff_of_root ht hp).mp hx ▸ hid⟩
    | some p =>
      rcases (within_iff_of_parent? ht hp).mp hx with rfl | hwithin
      · exact ⟨e, hid⟩
      · obtain ⟨e', he'⟩ := ih p hp hwithin
        have hchild : x ∈ t.children p := ht.owner.mpr hp
        rw [children_of_node? he'] at hchild
        exact (htyped p _ he').exists_expression hchild

/-- What stands in a mirrored document is an expression or mirrors a part of the document. -/
theorem Mirrors.of_within (h : t.Mirrors kind source id) (hx : t.Within id x) :
    (∃ e, t.node? x = some (.expression e)) ∨
      ∃ kind part, source.HasPart part ∧ t.Mirrors kind part x := by
  induction h with
  | string hnode => exact Or.inl (exists_expression_of_within ht htyped hnode hx)
  | expression hkind hform =>
    obtain ⟨e, hnode⟩ := hform.exists_expression hkind
    exact Or.inl (exists_expression_of_within ht htyped hnode hx)
  | collection hkind hnode hlength hitems ih =>
    rcases (within_iff_exists_child ht).mp hx with rfl | ⟨c, hc, hcx⟩
    · exact Or.inr ⟨_, _, .refl _, .collection hkind hnode hlength hitems⟩
    · rw [children_of_node? hnode] at hc
      obtain ⟨item, hitem⟩ := exists_mem_zip hlength hc
      refine (ih item c hitem hcx).imp_right ?_
      rintro ⟨kind, part, hpart, hmirrors⟩
      exact ⟨kind, part, .item (List.of_mem_zip hitem).1 hpart, hmirrors⟩
  | declaration hnode haccepts hmandatory hsources hnodup hbound hvalues hauthored ih =>
    rcases (within_iff_exists_child ht).mp hx with rfl | ⟨c, hc, hcx⟩
    · exact Or.inr ⟨_, _, .refl _, .declaration hnode haccepts hmandatory hsources hnodup hbound
        hvalues hauthored⟩
    · rw [children_of_node? hnode] at hc
      obtain ⟨key, hkey⟩ := Declaration.exists_bound?_of_mem_children hc
      rcases hauthored key c hkey with ⟨entry, hentry, rfl⟩ | ⟨-, -, htext⟩
      · refine (ih entry hentry hcx).imp_right ?_
        rintro ⟨kind, part, hpart, hmirrors⟩
        exact ⟨kind, part, .value (hsources ▸ List.mem_map_of_mem hentry) hpart, hmirrors⟩
      · -- The version that a module was given is a text.
        obtain ⟨e, hc⟩ := htext.isValue.exists_expression
        exact Or.inl (exists_expression_of_within ht htyped hc hcx)

end Within

/-- A declaration that mirrors a value has its mandatory keys, and the value is a mapping of which
every key is bound to what mirrors its value. -/
theorem Mirrors.of_declaration {d : Declaration} (h : t.Mirrors kind source id)
    (hnode : t.node? id = some (.declaration d)) :
    (∀ key ∈ d.kind.mandatoryKeys, (d.bound? key).isSome = true) ∧
      ∃ first last entries, source = .mapping first last none entries ∧
        ∀ entry ∈ entries, ∃ span tag property child,
          entry.1 = .scalar span tag property.key ∧
            d.kind.property? property.key = some property ∧
            d.bound? property.key = some child ∧ t.Mirrors property.value entry.2 child := by
  cases h with
  | string hnode' => simp [hnode] at hnode'
  | expression hkind hform =>
    obtain ⟨e, hnode'⟩ := hform.exists_expression hkind
    simp [hnode] at hnode'
  | collection _ hnode' => simp [hnode] at hnode'
  | declaration hnode' _ hmandatory hsources _ hbound hvalues _ =>
    cases hnode.symm.trans hnode'
    refine ⟨hmandatory, _, _, _, rfl, fun entry hentry => ?_⟩
    rw [hsources] at hentry
    obtain ⟨e, he, rfl⟩ := List.mem_map.mp hentry
    exact ⟨e.span, e.tag, e.property, e.node, rfl, (hbound e he).1, (hbound e he).2, hvalues e he⟩

/-- A collection mirrors a sequence item by item. -/
theorem Mirrors.of_collection {ids : List NodeId} (h : t.Mirrors kind source id)
    (hnode : t.node? id = some (.collection ids)) : ∃ element first last items,
      source = .sequence first last none items ∧ List.Forall₂ (t.Mirrors element) items ids := by
  cases h with
  | string hnode' => simp [hnode] at hnode'
  | expression hkind hform =>
    obtain ⟨e, hnode'⟩ := hform.exists_expression hkind
    simp [hnode] at hnode'
  | collection _ hnode' hlength hitems =>
    cases hnode.symm.trans hnode'
    exact ⟨_, _, _, _, rfl, List.forall₂_iff_zip.mpr ⟨hlength, fun hmem => hitems _ _ hmem⟩⟩
  | declaration hnode' => simp [hnode] at hnode'

end Tree

end InfraModule
