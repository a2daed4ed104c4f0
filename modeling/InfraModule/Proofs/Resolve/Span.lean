import InfraModule.Proofs.Resolve.Rank
import InfraModule.Proofs.Tree.Span

/-!
# The spans of what is resolved

A value in which spans nest (`RawValue.Nested`) gives nodes whose spans nest, and the node that it
means has the value's own span (`situatesAt_value`, `situatesAt_condition`). A tag stands at the
same place as the container that it is written before, and so do the parts into which the text of a
scalar is taken apart. All of this holds as well of what is left out, and of what is there when a
step is refused.
-/

namespace InfraModule

open Result BuildM

/-! ## Values -/

namespace RawValue

/-- No span in the value stops before it starts, and each part lies within what it is a part of. -/
inductive Nested : RawValue → Prop
  /-- A scalar. -/
  | scalar {tag : Option String} {l : Location} {text : String} (forward : l.start ≤ l.stop) :
    Nested (.scalar tag l text)
  /-- A sequence of values that lie within it. -/
  | sequence {tag : Option String} {l : Location} {items : List RawValue}
    (forward : l.start ≤ l.stop) (inside : ∀ r ∈ items, r.location.Inside l)
    (nested : ∀ r ∈ items, Nested r) : Nested (.sequence tag l items)
  /-- A mapping to values that lie within it. -/
  | mapping {tag : Option String} {l : Location} {entries : List (Key × RawValue)}
    (forward : l.start ≤ l.stop) (inside : ∀ entry ∈ entries, entry.2.location.Inside l)
    (nested : ∀ entry ∈ entries, Nested entry.2) : Nested (.mapping tag l entries)

/-- A value in which spans nest does not stop before it starts. -/
theorem Nested.forward {r : RawValue} (h : r.Nested) : r.location.start ≤ r.location.stop := by
  cases h <;> assumption

end RawValue

/-! ## Steps -/

namespace BuildM

variable {b : Build} {l : Location} {e : Expression}

/-- Started in a tree in which the spans nest, the step keeps them nested, and the node that it
gives has this span. -/
def SituatesAt (l : Location) (m : BuildM (Option NodeId)) : Prop :=
  ∀ ⦃b⦄, b.tree.Nested →
    Tree.Situates Build.tree m b fun t given => ∀ id ∈ given, t.location? id = some l

/-- An operation on the tree keeps spans nested as a step if it does as an operation. -/
theorem situates_onTree {α : Type} {operation : TreeM α} {P : Tree → α → Prop}
    (h : Tree.Situates (fun t => t) operation b.tree P) :
    Tree.Situates Build.tree (onTree operation) b P :=
  post_onTree.mpr h

/-- To report makes no node. -/
theorem situates_report (hb : b.tree.Nested) (message : String) (l : Location) :
    Tree.Situates Build.tree (report message l) b fun _ _ => True :=
  ⟨.refl hb, trivial⟩

/-- A step that gives no node keeps spans nested. -/
theorem situatesAt_none : SituatesAt l (pure none) := fun _ hb => .pure hb (by simp)

/-- To refuse a value keeps spans nested. -/
theorem situatesAt_refuse (message : String) (m : Location) : SituatesAt l (refuse message m) :=
  fun _ hb => (situates_report hb message m).bind fun _ _ hu _ => situatesAt_none hu.toNested

/-- An expression around operands that lie within its span has this span. -/
theorem situates_add (hb : b.tree.Nested) (hl : l.start ≤ l.stop)
    (hchildren : ∀ c ∈ e.children, b.tree.Lies l.start l.stop c) :
    Tree.Situates Build.tree (add e l) b fun t id => t.location? id = some l :=
  situates_onTree (Tree.situates_add (n := .expression e) hb hl hchildren)

/-- A text has the span that it is given. -/
theorem situates_addText (hb : b.tree.Nested) (hl : l.start ≤ l.stop) (text : String) :
    Tree.Situates Build.tree (addText text l) b fun t id => t.location? id = some l :=
  situates_add (e := .literal (.string text)) hb hl (by simp [Expression.children])

/-- An expression that is given has its span. -/
theorem situates_addSome (hb : b.tree.Nested) (hl : l.start ≤ l.stop)
    (hchildren : ∀ c ∈ e.children, b.tree.Lies l.start l.stop c) :
    Tree.Situates Build.tree (some <$> add e l) b
      fun t given => ∀ id ∈ given, t.location? id = some l :=
  .map ((situates_add hb hl hchildren).mono fun _ _ hid => by simpa using hid)

/-- A call around operands that lie within its span has this span. -/
theorem situates_addCall {call : Call} (hb : b.tree.Nested) (hl : l.start ≤ l.stop)
    (hoperands : ∀ c ∈ call.operands, b.tree.Lies l.start l.stop c) :
    Tree.Situates Build.tree (addCall call l) b
      fun t given => ∀ id ∈ given, t.location? id = some l :=
  situates_addSome (e := .call call) hb hl hoperands

/-- A condition around operands that lie within its span has this span. -/
theorem situates_addCondition {c : Condition} (hb : b.tree.Nested) (hl : l.start ≤ l.stop)
    (hoperands : ∀ d ∈ c.operands, b.tree.Lies l.start l.stop d) :
    Tree.Situates Build.tree (addCondition c l) b
      fun t given => ∀ id ∈ given, t.location? id = some l :=
  situates_addSome (e := .condition c) hb hl hoperands

/-- A text that is given has its span. -/
theorem situatesAt_text (hl : l.start ≤ l.stop) (text : String) :
    SituatesAt l (some <$> addText text l) := fun _ hb =>
  .map ((situates_addText hb hl text).mono fun _ _ hid => by simpa using hid)

/-- The name of a condition has the span of the condition. -/
theorem situatesAt_namedCondition (hl : l.start ≤ l.stop) (name : String) :
    SituatesAt l (some <$> addNamedCondition name l) := by
  refine fun b hb => .map ((situates_addText hb hl name).bind fun id b₁ hb₁ hid => ?_)
  refine (situates_add (e := .condition (.reference id none)) hb₁.toNested hl ?_).mono
    fun _ _ hid => by simpa using hid
  simpa [Expression.children, Condition.operands] using Tree.lies_of_location? hid

/-- Given a node with this span, the step keeps spans nested, and the node that it gives in turn
has the same span. -/
def SituatesFrom (l : Location) (f : NodeId → BuildM (Option NodeId)) : Prop :=
  ∀ ⦃b id⦄, b.tree.Nested → b.tree.location? id = some l →
    Tree.Situates Build.tree (f id) b fun t given => ∀ id ∈ given, t.location? id = some l

/-- To give the same node keeps its span. -/
theorem situatesFrom_self : SituatesFrom l fun id => pure (some id) :=
  fun _ _ hb hid => .pure hb (by simpa using hid)

/-- What is made of a text and then used has one span. -/
theorem situatesAt_ofText {f : NodeId → BuildM (Option NodeId)} (hl : l.start ≤ l.stop)
    (text : String) (hf : SituatesFrom l f) : SituatesAt l (do f (← addText text l)) := fun _ hb =>
  (situates_addText hb hl text).bind fun _ _ hb₁ hid => hf hb₁.toNested hid

end BuildM

namespace Resolve

variable {b : Build} {l : Location} {items : List RawValue} {entries : List (Key × RawValue)}

/-! ## Operands that are scalars -/

/-- All parts of a scalar have its span. -/
theorem situatesAt_onScalar (hl : l.start ≤ l.stop) (f : FunctionName) (text : String) :
    SituatesAt l (onScalar f l text) := by
  have htext (call : NodeId → Call) (hcall : ∀ id, (call id).operands = [id]) :
      SituatesAt l (do addCall (call (← addText text l)) l) :=
    situatesAt_ofText hl text fun _ _ hb hid => situates_addCall hb hl (by
      simpa [hcall] using Tree.lies_of_location? hid)
  cases f with
  | getAtt =>
    refine situatesAt_ofText hl _ fun _ resource hb hresource => ?_
    refine (situates_addText hb hl _).bind fun name b₁ hb₁ hname => ?_
    refine situates_addCall hb₁.toNested hl ?_
    simpa [Call.operands] using And.intro
      (hb₁.lies (Tree.lies_of_location? hresource)) (Tree.lies_of_location? hname)
  | sub => exact htext (.sub · none) fun _ => rfl
  | ref => exact htext (.ref · none) fun _ => rfl
  | base64 | getAzs | importValue => exact htext _ fun _ => rfl
  | _ => exact situatesAt_refuse _ _

/-- An operand that is a text gives a node of its own span. -/
theorem situatesAt_textOperand {operand : RawValue} (h : operand.Nested) (tag : String) :
    SituatesAt operand.location (textOperand tag operand) := by
  unfold textOperand
  split
  · exact situatesAt_text h.forward _
  · exact situatesAt_refuse _ _

/-- An operand that names a condition gives a node of its own span. -/
theorem situatesAt_conditionNameOperand {operand : RawValue} (h : operand.Nested) (tag : String) :
    SituatesAt operand.location (conditionNameOperand tag operand) := by
  unfold conditionNameOperand
  split
  · exact situatesAt_namedCondition h.forward _
  · exact situatesAt_refuse _ _

/-- The name that `!Transform` calls has the span of an entry's value. -/
theorem situates_checkTransform (hb : b.tree.Nested) (l : Location)
    (entries : List (Key × RawValue)) :
    Tree.Situates Build.tree (checkTransform l entries) b fun _ checked =>
      ∀ name ∈ checked, ∃ entry ∈ entries, entry.2.location = name.2 := by
  unfold checkTransform
  cases hname : firstEntry? "Name" entries with
  | none => exact ⟨.refl hb, by simp⟩
  | some name =>
    dsimp only
    cases name.plainScalar? with
    | none => exact ⟨.refl hb, by simp⟩
    | some text =>
      cases firstEntry? "Parameters" entries with
      | none => exact ⟨.refl hb, by simp⟩
      | some parameters =>
        dsimp only
        cases parameters.isPlainMapping with
        | false => exact ⟨.refl hb, by simp⟩
        | true =>
          obtain ⟨entry, hentry, rfl⟩ := Option.map_eq_some_iff.mp hname
          refine ⟨.refl hb, ?_⟩
          rintro _ ⟨⟩
          exact ⟨entry, List.mem_of_find?_eq_some hentry, rfl⟩

/-! ## Lists and objects -/

/-- A list is filled with what lies within it. -/
theorem situates_valueItems (h : ∀ r ∈ items, SituatesAt r.location (value r))
    (hinside : ∀ r ∈ items, r.location.Inside l) (hb : b.tree.Nested) {list : NodeId}
    (hlist : b.tree.location? list = some l) :
    Tree.Situates Build.tree (valueItems list items) b fun _ _ => True := by
  induction items generalizing b with
  | nil => exact .pure hb trivial
  | cons item items ih =>
    obtain ⟨hitem, hitems⟩ := List.forall_mem_cons.mp h
    obtain ⟨hwithin, hinside⟩ := List.forall_mem_cons.mp hinside
    rw [valueItems]
    refine (hitem hb).bind fun given b₁ hb₁ hgiven => ?_
    have hlist₁ := hb₁.keeps list l hlist
    cases given with
    | none => exact ih hitems hinside hb₁.toNested hlist₁
    | some id =>
      have hid : b₁.tree.Lies l.start l.stop id := ⟨item.location, hgiven id rfl, hwithin⟩
      have hpush := situates_onTree (Tree.situates_pushChild hb₁.toNested (hid.within hlist₁))
      refine hpush.bind fun _ b₂ hb₂ _ => ?_
      exact ih hitems hinside hb₂.toNested (hb₂.keeps list l hlist₁)

/-- An object is filled with what lies within it. -/
theorem situates_valueEntries (h : ∀ entry ∈ entries, SituatesAt entry.2.location (value entry.2))
    (hinside : ∀ entry ∈ entries, entry.2.location.Inside l) (hb : b.tree.Nested) {object : NodeId}
    (hobject : b.tree.location? object = some l) (seen : List String) :
    Tree.Situates Build.tree (valueEntries object seen entries) b fun _ _ => True := by
  induction entries generalizing b seen with
  | nil => exact .pure hb trivial
  | cons entry entries ih =>
    obtain ⟨key, item⟩ := entry
    obtain ⟨hitem, hentries⟩ := List.forall_mem_cons.mp h
    obtain ⟨hwithin, hinside⟩ := List.forall_mem_cons.mp hinside
    rw [valueEntries]
    split
    · refine (situates_report hb _ _).bind fun _ b₁ hb₁ _ => ?_
      exact ih hentries hinside hb₁.toNested (hb₁.keeps object l hobject) seen
    · refine (hitem hb).bind fun given b₁ hb₁ hgiven => ?_
      have hobject₁ := hb₁.keeps object l hobject
      cases given with
      | none => exact ih hentries hinside hb₁.toNested hobject₁ _
      | some id =>
        have hid : b₁.tree.Lies l.start l.stop id := ⟨item.location, hgiven id rfl, hwithin⟩
        have hinsert : Tree.Situates Build.tree (discard (onTree (.insertEntry object key id))) b₁
            fun _ _ => True :=
          .map (situates_onTree (Tree.situates_insertEntry hb₁.toNested (hid.within hobject₁) key))
        refine hinsert.bind fun _ b₂ hb₂ _ => ?_
        exact ih hentries hinside hb₂.toNested (hb₂.keeps object l hobject₁) _

section Containers

variable {f : NodeId → BuildM (Option NodeId)} (hl : l.start ≤ l.stop) (hf : SituatesFrom l f)

include hl hf

/-- A list is made, filled and then used at its place. -/
theorem situatesAt_list (h : ∀ r ∈ items, SituatesAt r.location (value r))
    (hinside : ∀ r ∈ items, r.location.Inside l) :
    SituatesAt l (do let list ← add (.list []) l; valueItems list items; f list) := by
  intro b hb
  refine (situates_add (e := .list []) hb hl (by simp [Expression.children])).bind
    fun list b₁ hb₁ hlist => ?_
  refine (situates_valueItems h hinside hb₁.toNested hlist).bind fun _ b₂ hb₂ _ => ?_
  exact hf hb₂.toNested (hb₂.keeps list l hlist)

/-- An object is made, filled and then used at its place. -/
theorem situatesAt_object (h : ∀ entry ∈ entries, SituatesAt entry.2.location (value entry.2))
    (hinside : ∀ entry ∈ entries, entry.2.location.Inside l) :
    SituatesAt l (do
      let object ← add (.object []) l
      valueEntries object [] entries
      f object) := by
  intro b hb
  refine (situates_add (e := .object []) hb hl (by simp [Expression.children])).bind
    fun object b₁ hb₁ hobject => ?_
  refine (situates_valueEntries h hinside hb₁.toNested hobject []).bind fun _ b₂ hb₂ _ => ?_
  exact hf hb₂.toNested (hb₂.keeps object l hobject)

end Containers

/-- The call of a function that takes any value has the span of that value. -/
theorem situatesFrom_addCall {f : FunctionName} {call : NodeId → Call}
    (hcall : f.ofAnyValue? = some call) (hl : l.start ≤ l.stop) :
    SituatesFrom l fun value => addCall (call value) l := by
  intro b value hb hvalue
  obtain ⟨-, hoperands, -⟩ := FunctionName.operands_of_ofAnyValue? hcall value
  refine situates_addCall hb hl fun c hc => ?_
  rw [hoperands, List.mem_singleton] at hc
  exact hc ▸ Tree.lies_of_location? hvalue

/-! ## Operands in their roles -/

/-- Spans nest in the value and in what is made of it or, if it is a mapping, of its entries. -/
structure Situated (r : RawValue) : Prop where
  /-- The spans of the value nest. -/
  nested : r.Nested
  /-- The value gives a node with its span. -/
  value : SituatesAt r.location (value r)
  /-- The entries of a mapping give nodes with theirs. -/
  entries : ∀ tag l entries, r = .mapping tag l entries →
    ∀ entry ∈ entries, SituatesAt entry.2.location (Resolve.value entry.2)

/-- The entries of a mapping give an object, whatever the tag. -/
theorem Situated.object {tag : Option String} (h : Situated (.mapping tag l entries)) :
    SituatesAt l (do
      let object ← add (.object []) l
      valueEntries object [] entries
      return some object) := by
  cases h.nested with
  | mapping forward inside =>
    exact situatesAt_object forward situatesFrom_self (h.entries _ _ _ rfl) inside

/-- In whatever role an operand stands, its node has its span. -/
theorem situatesAt_operand {item : RawValue} (h : Situated item) (tag : String)
    (role : Option Role) : SituatesAt item.location (operand tag role item) := by
  match role, item with
  | none, _ | some .value, _ => exact h.value
  | some .text, item => exact situatesAt_textOperand h.nested tag
  | some .conditionName, item => exact situatesAt_conditionNameOperand h.nested tag
  | some .parameters, .mapping none l entries => exact h.object
  | some .parameters, .mapping (some _) .. | some .parameters, .scalar ..
  | some .parameters, .sequence .. => exact situatesAt_refuse _ _

/-- A node lies within the same span as those behind it. -/
theorem situates_prepend {first : BuildM (Option NodeId)} {others : BuildM (Option (List NodeId))}
    {m : Location} (hfirst : SituatesAt m first) (hm : m.Inside l) (hb : b.tree.Nested)
    (hothers : ∀ b', b'.tree.Nested → Tree.Situates Build.tree others b'
      fun t given => ∀ ids ∈ given, ∀ id ∈ ids, t.Lies l.start l.stop id) :
    Tree.Situates Build.tree (do
      match ← first with
      | none => return none
      | some id => return (← others).map (id :: ·)) b
        fun t given => ∀ ids ∈ given, ∀ id ∈ ids, t.Lies l.start l.stop id := by
  refine (hfirst hb).bind fun given b₁ hb₁ hgiven => ?_
  cases given with
  | none => exact .pure hb₁.toNested (by simp)
  | some id =>
    refine (hothers b₁ hb₁.toNested).bind fun others b₂ hb₂ hothers => ?_
    refine .pure hb₂.toNested ?_
    rintro ids hids
    obtain ⟨rest, hrest, rfl⟩ := Option.map_eq_some_iff.mp hids
    exact List.forall_mem_cons.mpr
      ⟨hb₂.lies ⟨m, hgiven id rfl, hm⟩, hothers rest hrest⟩

/-- The nodes of operands lie within the sequence of operands. -/
theorem situates_operands (h : ∀ r ∈ items, Situated r)
    (hinside : ∀ r ∈ items, r.location.Inside l) (hb : b.tree.Nested) (tag : String)
    (roles : List Role) :
    Tree.Situates Build.tree (operands tag roles items) b
      fun t given => ∀ ids ∈ given, ∀ id ∈ ids, t.Lies l.start l.stop id := by
  induction items generalizing b roles with
  | nil => exact .pure hb (by simp)
  | cons item items ih =>
    obtain ⟨hitem, hitems⟩ := List.forall_mem_cons.mp h
    obtain ⟨hwithin, hinside⟩ := List.forall_mem_cons.mp hinside
    rw [operands_cons]
    exact situates_prepend (situatesAt_operand hitem tag roles.head?) hwithin hb
      fun _ hb' => ih hitems hinside hb' roles.tail

/-- The parameters of `!Transform` lie within its mapping. -/
theorem situates_transformParameters (h : ∀ entry ∈ entries, Situated entry.2)
    (hinside : ∀ entry ∈ entries, entry.2.location.Inside l) (hb : b.tree.Nested) :
    Tree.Situates Build.tree (transformParameters entries) b
      fun t given => ∀ id ∈ given, t.Lies l.start l.stop id := by
  induction entries with
  | nil => exact .pure hb (by simp)
  | cons entry entries ih =>
    obtain ⟨key, item⟩ := entry
    obtain ⟨hitem, hentries⟩ := List.forall_mem_cons.mp h
    obtain ⟨hwithin, hinside⟩ := List.forall_mem_cons.mp hinside
    unfold transformParameters
    split
    · cases item with
      | mapping tag m es =>
        exact (hitem.object hb).mono fun t given hgiven id hid => ⟨m, hgiven id hid, hwithin⟩
      | scalar | sequence => exact .pure hb (by simp)
    · exact ih hentries hinside

/-! ## Values -/

/-- The call of a function on a sequence has the span of the sequence. -/
theorem situatesAt_call (h : ∀ r ∈ items, Situated r) (hl : l.start ≤ l.stop)
    (hinside : ∀ r ∈ items, r.location.Inside l) (f : FunctionName) (roles : List Role)
    (tag : String) :
    SituatesAt l (do
      if roles.length ≠ items.length then refuse (wrongCount tag roles.length) l
      else
        match (← operands tag roles items).bind (Call.ofOperands? f · none) with
        | some call => addCall call l
        | none => return none) := by
  split
  · exact situatesAt_refuse _ _
  · intro b hb
    refine (situates_operands h hinside hb tag roles).bind fun given b₁ hb₁ hgiven => ?_
    split
    · next call hcall =>
      obtain ⟨ids, hids, hcall⟩ := Option.bind_eq_some_iff.mp hcall
      refine situates_addCall hb₁.toNested hl fun c hc => ?_
      exact hgiven ids hids c (Call.operands_of_ofOperands? hcall ▸ hc)
    · exact situatesAt_none hb₁.toNested

/-- The call of a transform has the span of its mapping. -/
theorem situatesAt_transform (h : ∀ entry ∈ entries, Situated entry.2) (hl : l.start ≤ l.stop)
    (hinside : ∀ entry ∈ entries, entry.2.location.Inside l) :
    SituatesAt l (do
      match ← checkTransform l entries with
      | none => return none
      | some (name, nameLocation) =>
        let name ← addText name nameLocation
        match ← transformParameters entries with
        | none => return none
        | some parameters => addCall (.transform name parameters) l) := by
  intro b hb
  refine (situates_checkTransform hb l entries).bind fun checked b₁ hb₁ hchecked => ?_
  cases checked with
  | none => exact situatesAt_none hb₁.toNested
  | some checked =>
    obtain ⟨entry, hentry, hlocation⟩ := hchecked checked rfl
    have hforward : checked.2.start ≤ checked.2.stop := hlocation ▸ (h entry hentry).nested.forward
    refine (situates_addText hb₁.toNested hforward checked.1).bind fun name b₂ hb₂ hname => ?_
    refine (situates_transformParameters h hinside hb₂.toNested).bind fun given b₃ hb₃ hgiven => ?_
    cases given with
    | none => exact situatesAt_none hb₃.toNested
    | some parameters =>
      have hname : b₃.tree.Lies l.start l.stop name :=
        hb₃.lies ⟨checked.2, hname, hlocation ▸ hinside entry hentry⟩
      refine situates_addCall hb₃.toNested hl ?_
      simpa [Call.operands] using And.intro hname (hgiven parameters rfl)

/-- A value in which spans nest gives nodes whose spans nest, one with its own span. -/
theorem situatesAt_value {r : RawValue} (hr : r.Nested) : SituatesAt r.location (value r) := by
  suffices Situated r from this.value
  -- By induction on how the spans nest, which follows the value.
  induction hr with
  | @scalar tag l text forward =>
    refine ⟨.scalar forward, ?_, by simp⟩
    cases tag with
    | none => exact situatesAt_text forward text
    | some tag =>
      rw [value]
      split
      · exact situatesAt_refuse _ _
      · exact situatesAt_onScalar forward _ text
  | @sequence tag l items forward inside nested ih =>
    refine ⟨.sequence forward inside nested, ?_, by simp⟩
    have hitems : ∀ r ∈ items, SituatesAt r.location (value r) := fun r hr => (ih r hr).value
    cases tag with
    | none =>
      rw [value]
      exact situatesAt_list forward situatesFrom_self hitems inside
    | some tag =>
      rw [value]
      split
      · exact situatesAt_refuse _ _
      · split
        · next call hcall =>
          exact situatesAt_list forward (situatesFrom_addCall hcall forward) hitems inside
        · exact situatesAt_call ih forward inside _ _ tag
        · exact situatesAt_refuse _ _
  | @mapping tag l entries forward inside nested ih =>
    have hentries : ∀ entry ∈ entries, SituatesAt entry.2.location (value entry.2) :=
      fun entry h => (ih entry h).value
    refine ⟨.mapping forward inside nested, ?_, ?_⟩
    case refine_2 =>
      rintro _ _ _ ⟨⟩
      exact hentries
    cases tag with
    | none =>
      rw [value]
      exact situatesAt_object forward situatesFrom_self hentries inside
    | some tag =>
      rw [value]
      split
      · exact situatesAt_refuse _ _
      · exact situatesAt_transform ih forward inside
      · split
        · next call hcall =>
          exact situatesAt_object forward (situatesFrom_addCall hcall forward) hentries inside
        · exact situatesAt_refuse _ _

/-! ## Conditions -/

/-- The nodes of conditions lie within the sequence of conditions. -/
theorem situates_allConditions (h : ∀ r ∈ items, SituatesAt r.location (condition r))
    (hinside : ∀ r ∈ items, r.location.Inside l) (hb : b.tree.Nested) :
    Tree.Situates Build.tree (allConditions items) b
      fun t given => ∀ ids ∈ given, ∀ id ∈ ids, t.Lies l.start l.stop id := by
  induction items generalizing b with
  | nil => exact .pure hb (by simp)
  | cons item items ih =>
    obtain ⟨hitem, hitems⟩ := List.forall_mem_cons.mp h
    obtain ⟨hwithin, hinside⟩ := List.forall_mem_cons.mp hinside
    rw [allConditions]
    exact situates_prepend hitem hwithin hb fun _ hb' => ih hitems hinside hb'

/-- To report a wrong number of operands makes no node. -/
theorem situates_wrongConditionCount (hb : b.tree.Nested) (tag : String) (l : Location)
    (count : Nat) :
    Tree.Situates Build.tree (wrongConditionCount tag l count) b fun _ _ => True := by
  unfold wrongConditionCount
  split
  · exact (situates_report hb _ l).bind fun _ _ hb₁ _ => .pure hb₁.toNested trivial
  · exact .pure hb trivial

/-- `!And` and `!Or` have the span of the sequence of their operands. -/
theorem situatesAt_connective (connective : List NodeId → Condition)
    (hoperands : ∀ ids, (connective ids).operands = ids)
    (h : ∀ r ∈ items, SituatesAt r.location (condition r)) (hl : l.start ≤ l.stop)
    (hinside : ∀ r ∈ items, r.location.Inside l) (tag : String) :
    SituatesAt l (do
      if ← wrongConditionCount tag l items.length then return none
      match ← allConditions items with
      | some operands => addCondition (connective operands) l
      | none => return none) := by
  intro b hb
  refine (situates_wrongConditionCount hb tag l items.length).bind fun wrong b₁ hb₁ _ => ?_
  cases wrong with
  | true => exact situatesAt_none hb₁.toNested
  | false =>
    refine (situates_allConditions h hinside hb₁.toNested).bind fun given b₂ hb₂ hgiven => ?_
    cases given with
    | none => exact situatesAt_none hb₂.toNested
    | some ids =>
      exact situates_addCondition hb₂.toNested hl fun c hc => hgiven ids rfl c (hoperands ids ▸ hc)

/-- `!Equals` has the span of the sequence of its two values. -/
theorem situatesAt_equals {left right : RawValue} (hleft : SituatesAt left.location (value left))
    (hright : SituatesAt right.location (value right)) (hl : l.start ≤ l.stop)
    (hinside : ∀ r ∈ [left, right], r.location.Inside l) :
    SituatesAt l (do
      let left ← value left
      let right ← value right
      match left, right with
      | some left, some right => addCondition (.equals left right) l
      | _, _ => return none) := by
  intro b hb
  refine (hleft hb).bind fun given b₁ hb₁ hgiven => ?_
  refine (hright hb₁.toNested).bind fun given' b₂ hb₂ hgiven' => ?_
  split
  · next id id' =>
    have hid : b₂.tree.Lies l.start l.stop id :=
      hb₂.lies ⟨left.location, hgiven id rfl, hinside left (by simp)⟩
    have hid' : b₂.tree.Lies l.start l.stop id' :=
      ⟨right.location, hgiven' id' rfl, hinside right (by simp)⟩
    refine situates_addCondition hb₂.toNested hl ?_
    simpa [Condition.operands] using And.intro hid hid'
  · exact situatesAt_none hb₂.toNested

/-- A scalar that is a condition gives a node of its own span. -/
theorem situatesAt_condition_scalar (hl : l.start ≤ l.stop) (tag : Option String) (text : String) :
    SituatesAt l (condition (.scalar tag l text)) := by
  have hname := situatesAt_namedCondition hl text
  cases tag with
  | none => exact hname
  | some tag =>
    rw [condition]
    split
    · exact situatesAt_refuse _ _
    · exact hname
    · refine situatesAt_ofText hl text fun _ name hb hname => situates_addCondition hb hl ?_
      simpa [Condition.operands] using Tree.lies_of_location? hname
    · exact situatesAt_refuse _ _

/-- A condition in which spans nest gives nodes whose spans nest, one with its own span. -/
theorem situatesAt_condition {r : RawValue} (hr : r.Nested) :
    SituatesAt r.location (condition r) := by
  induction hr with
  | @scalar tag l text forward => exact situatesAt_condition_scalar forward tag text
  | @sequence tag l items forward inside nested ih =>
    cases tag with
    | none => exact situatesAt_refuse _ _
    | some tag =>
      unfold condition
      split
      · exact situatesAt_refuse _ _
      · exact situatesAt_connective .and (fun _ => rfl) ih forward inside tag
      · exact situatesAt_connective .or (fun _ => rfl) ih forward inside tag
      · next operand _ =>
        intro b hb
        refine (ih operand List.mem_cons_self hb).bind fun given b₁ hb₁ hgiven => ?_
        cases given with
        | none => exact situatesAt_none hb₁.toNested
        | some id =>
          have hid : b₁.tree.Lies l.start l.stop id :=
            ⟨operand.location, hgiven id rfl, inside operand List.mem_cons_self⟩
          refine situates_addCondition hb₁.toNested forward ?_
          simpa [Condition.operands] using hid
      · exact situatesAt_refuse _ _
      · next left right _ =>
        exact situatesAt_equals (situatesAt_value (nested left (by simp)))
          (situatesAt_value (nested right (by simp))) forward inside
      · exact situatesAt_refuse _ _
      · exact situatesAt_refuse _ _
  | @mapping tag l entries =>
    cases tag with
    | none => exact situatesAt_refuse _ _
    | some tag =>
      rw [condition]
      split <;> exact situatesAt_refuse _ _

end Resolve

end InfraModule
