import InfraModule.Proofs.Tree.Copy
import InfraModule.Resolve

/-!
# Typed trees

The schema table prescribes a form for the value of each key, and a tag one for each operand of its
function or condition. `HasForm` and `HasRole` say that a node of a tree has such a form, and
`WellTyped` that a node owns nodes of the forms demanded of them.

A node's form is all of it but the children of lists and objects and the values of declarations,
which are attached one by one while a tree is built. Where forms stay, nodes stay typed (`Keeps`).
-/

namespace InfraModule

/-- What a node is, apart from the children that are attached to it after its creation. -/
inductive Form where
  /-- A declaration of a kind. -/
  | declaration (kind : Kind)
  /-- A scalar. -/
  | literal (literal : Literal)
  /-- A sequence of values. -/
  | list
  /-- A mapping from keys to values. -/
  | object
  /-- A call of a function. -/
  | call (call : Call)
  /-- A condition. -/
  | condition (condition : Condition)
  /-- A collection. -/
  | collection (items : List NodeId)

/-- Whether the form is that of an expression other than a condition. -/
def Form.isValue : Form → Bool
  | .literal _ => true
  | .list => true
  | .object => true
  | .call _ => true
  | _ => false

/-- The form of a node. -/
def Node.form : Node → Form
  | .declaration d => .declaration d.kind
  | .expression (.literal literal) => .literal literal
  | .expression (.list _) => .list
  | .expression (.object _) => .object
  | .expression (.call call) => .call call
  | .expression (.condition condition) => .condition condition
  | .collection items => .collection items

/-- What stands at each place among the operands of a call. -/
def Call.roles : Call → List Role
  | .base64 .. => [.value]
  | .cidr .. => [.value, .value, .value]
  | .findInMap .. => [.value, .value, .value]
  | .getAtt .. => [.text, .value]
  | .getAzs .. => [.value]
  | .ifElse .. => [.conditionName, .value, .value]
  | .importValue .. => [.value]
  | .join .. => [.text, .value]
  | .select .. => [.value, .value]
  | .split .. => [.text, .value]
  | .sub _ none => [.text]
  | .sub _ (some _) => [.text, .parameters]
  | .transform .. => [.text, .parameters]
  | .ref .. => [.text]

namespace Tree

variable {t u : Tree} {x : NodeId} {n : Node} {l : Location}

/-- The form of the node of an id. -/
def form? (t : Tree) (id : NodeId) : Option Form :=
  (t.node? id).map Node.form

/-- The form of an id is that of its node. -/
theorem form?_of_node? (h : t.node? x = some n) : t.form? x = some n.form := by
  rw [form?, h, Option.map_some]

/-! ## Forms demanded of nodes -/

/-- The node is a text. -/
def IsText (t : Tree) (id : NodeId) : Prop :=
  ∃ text, t.form? id = some (.literal (.string text))

/-- The node is a declaration that a type accepts. -/
def IsDeclaration (t : Tree) (type : DeclarationType) (id : NodeId) : Prop :=
  ∃ kind, t.form? id = some (.declaration kind) ∧ type.accepts kind = true

/-- The node is an expression other than a condition. -/
def IsValue (t : Tree) (id : NodeId) : Prop :=
  ∃ form, t.form? id = some form ∧ form.isValue = true

/-- The node is a condition. -/
def IsCondition (t : Tree) (id : NodeId) : Prop :=
  ∃ condition, t.form? id = some (.condition condition)

/-- The node has the form that the schema table prescribes for a kind of value. -/
def HasForm (t : Tree) (kind : ValueKind) (id : NodeId) : Prop :=
  match kind with
  | .string => t.IsText id
  | .int => ∃ n, Text.Integer.Fits n ∧ t.form? id = some (.literal (.int n))
  | .bool => ∃ b, t.form? id = some (.literal (.bool b))
  | .expression => t.IsValue id
  | .condition => t.IsCondition id
  | .object => t.form? id = some .object
  | .list => t.form? id = some .list
  | .stringList => ∃ items, t.form? id = some (.collection items) ∧ ∀ i ∈ items, t.IsText i
  | .declaration type => t.IsDeclaration type id
  | .declarationList type =>
    ∃ items, t.form? id = some (.collection items) ∧ ∀ i ∈ items, t.IsDeclaration type i

/-- The node has the form that a role among the operands of a function demands. -/
def HasRole (t : Tree) (role : Role) (id : NodeId) : Prop :=
  match role with
  | .value => t.IsValue id
  | .text => t.IsText id
  | .conditionName => ∃ name target, t.form? id = some (.condition (.reference name target))
  | .parameters => t.form? id = some .object

/-- The operands of a condition have the forms that its operator demands. -/
def OperandsTyped (t : Tree) : Condition → Prop
  | .and operands | .or operands =>
    2 ≤ operands.length ∧ operands.length ≤ 10 ∧ ∀ id ∈ operands, t.IsCondition id
  | .not operand => t.IsCondition operand
  | .equals left right => t.IsValue left ∧ t.IsValue right
  | .reference name _ | .existence name _ => t.IsText name

/-- The keyword of a declaration, if its kind has one, and each bound key have values of the forms
that the schema table prescribes. -/
structure ValuesTyped (t : Tree) (d : Declaration) : Prop where
  /-- The keyword is bound to a value of its form. -/
  keyword : ∀ key value, d.kind.schema.keyword = some (key, value) →
    ∃ id, d.keyword = some id ∧ t.HasForm value id
  /-- Each other key is unbound or bound to a value of its form. -/
  property : ∀ property ∈ d.kind.properties, ∀ id, d.property? property.key = some id →
    t.HasForm property.value id

/-- The nodes that a node owns have the forms demanded of them. What a collection holds depends on
where it stands. -/
def WellTyped (t : Tree) : Node → Prop
  | .declaration d => t.ValuesTyped d
  | .expression (.literal _) => True
  | .expression (.list items) => ∀ id ∈ items, t.IsValue id
  | .expression (.object entries) => ∀ entry ∈ entries, t.IsValue entry.2
  | .expression (.call call) => List.Forall₂ t.HasRole call.roles call.operands
  | .expression (.condition condition) => t.OperandsTyped condition
  | .collection _ => True

/-- A text is a value. -/
theorem IsText.isValue (h : t.IsText x) : t.IsValue x := by
  obtain ⟨text, hx⟩ := h
  exact ⟨_, hx, rfl⟩

/-- The text of a literal is what it is written as. -/
theorem IsText.isSome_literalText? (h : t.IsText x) : (t.literalText? x).isSome = true := by
  obtain ⟨text, hform⟩ := h
  obtain ⟨n, hn, hn'⟩ := Option.map_eq_some_iff.mp hform
  cases n with
  | declaration | collection => cases hn'
  | expression e =>
    cases e with
    | literal => simp [literalText?, literal?, expression?, hn, Node.expression?]
    | _ => cases hn'

/-! ## Changes that keep forms -/

/-- Nodes keep their forms. -/
def Keeps (t u : Tree) : Prop :=
  ∀ x f, t.form? x = some f → u.form? x = some f

namespace Keeps

/-- Texts stay texts. -/
theorem isText (h : t.Keeps u) (hx : t.IsText x) : u.IsText x := by
  obtain ⟨text, hx⟩ := hx
  exact ⟨text, h _ _ hx⟩

/-- Declarations of a type stay such declarations. -/
theorem isDeclaration {type : DeclarationType} (h : t.Keeps u) (hx : t.IsDeclaration type x) :
    u.IsDeclaration type x := by
  obtain ⟨kind, hx, haccepts⟩ := hx
  exact ⟨kind, h _ _ hx, haccepts⟩

/-- Values stay values. -/
theorem isValue (h : t.Keeps u) (hx : t.IsValue x) : u.IsValue x := by
  obtain ⟨form, hx, hvalue⟩ := hx
  exact ⟨form, h _ _ hx, hvalue⟩

/-- Conditions stay conditions. -/
theorem isCondition (h : t.Keeps u) (hx : t.IsCondition x) : u.IsCondition x := by
  obtain ⟨condition, hx⟩ := hx
  exact ⟨condition, h _ _ hx⟩

/-- What has the form demanded of a value keeps it. -/
theorem hasForm {kind : ValueKind} (h : t.Keeps u) (hx : t.HasForm kind x) : u.HasForm kind x := by
  cases kind with
  | string => exact h.isText hx
  | int =>
    obtain ⟨n, hn, hx⟩ := hx
    exact ⟨n, hn, h _ _ hx⟩
  | bool =>
    obtain ⟨b, hx⟩ := hx
    exact ⟨b, h _ _ hx⟩
  | expression => exact h.isValue hx
  | condition => exact h.isCondition hx
  | object => exact h _ _ hx
  | list => exact h _ _ hx
  | stringList =>
    obtain ⟨items, hx, hitems⟩ := hx
    exact ⟨items, h _ _ hx, fun i hi => h.isText (hitems i hi)⟩
  | declaration type => exact h.isDeclaration hx
  | declarationList type =>
    obtain ⟨items, hx, hitems⟩ := hx
    exact ⟨items, h _ _ hx, fun i hi => h.isDeclaration (hitems i hi)⟩

/-- What has the form that a role demands keeps it. -/
theorem hasRole {role : Role} (h : t.Keeps u) (hx : t.HasRole role x) : u.HasRole role x := by
  cases role with
  | value => exact h.isValue hx
  | text => exact h.isText hx
  | conditionName =>
    obtain ⟨name, target, hx⟩ := hx
    exact ⟨name, target, h _ _ hx⟩
  | parameters => exact h _ _ hx

/-- Operands of a condition keep the forms demanded of them. -/
theorem operandsTyped {c : Condition} (h : t.Keeps u) (hc : t.OperandsTyped c) :
    u.OperandsTyped c := by
  cases c with
  | and operands | or operands =>
    obtain ⟨hmin, hmax, hall⟩ := hc
    exact ⟨hmin, hmax, fun id hid => h.isCondition (hall id hid)⟩
  | not operand => exact h.isCondition hc
  | equals left right => exact ⟨h.isValue hc.1, h.isValue hc.2⟩
  | reference name target | existence name target => exact h.isText hc

/-- Values of a declaration keep the forms demanded of them. -/
theorem valuesTyped {d : Declaration} (h : t.Keeps u) (hd : t.ValuesTyped d) :
    u.ValuesTyped d where
  keyword := by
    intro key value hkey
    obtain ⟨id, hid, hform⟩ := hd.keyword key value hkey
    exact ⟨id, hid, h.hasForm hform⟩
  property := fun property hproperty id hid => h.hasForm (hd.property property hproperty id hid)

/-- Where forms stay, nodes stay typed. -/
theorem wellTyped (h : t.Keeps u) (hn : t.WellTyped n) : u.WellTyped n := by
  match n with
  | .declaration d => exact h.valuesTyped hn
  | .expression (.list items) => exact fun id hid => h.isValue (hn id hid)
  | .expression (.object entries) => exact fun entry hentry => h.isValue (hn entry hentry)
  | .expression (.call f) => exact List.Forall₂.imp (fun _ _ => h.hasRole) hn
  | .expression (.condition c) => exact h.operandsTyped hn
  | .expression (.literal _) | .collection _ => trivial

end Keeps

/-- Nodes stay as they are. -/
def Retains (t u : Tree) : Prop :=
  ∀ x n, t.node? x = some n → u.node? x = some n

/-- Nodes that stay as they are keep their forms. -/
theorem Retains.keeps (h : t.Retains u) : t.Keeps u := by
  intro x f hx
  obtain ⟨n, hn, hform⟩ := Option.map_eq_some_iff.mp hx
  rw [form?_of_node? (h x n hn), hform]

/-- Nodes stay where a tree is extended. -/
theorem Extends.retains (h : t.Extends u) : t.Retains u :=
  fun x _ hx => (h.node x (lt_size_of_node? hx)).trans hx

/-- Forms stay where a tree is extended. -/
theorem Extends.keeps (h : t.Extends u) : t.Keeps u :=
  h.retains.keeps

/-- Nodes stay where one is created. -/
theorem retains_append (t : Tree) (n : Node) (l : Location) : t.Retains (t.append n l) :=
  fun _ _ hx => (node?_append_of_ne (lt_size_of_node? hx).ne).trans hx

/-- Forms stay where a node is created. -/
theorem keeps_append : t.Keeps (t.append n l) :=
  (retains_append t n l).keeps

section Move

variable {p c : NodeId} {n' : Node} {q : Option NodeId} (hp : t.node? p = some n)
  (h : n'.form = n.form)

include hp h

/-- Forms stay where a node takes over or gives up a child. -/
theorem keeps_relink : t.Keeps (t.relink p n' c q) := by
  intro x f hx
  rw [form?, node?_relink (lt_size_of_node? hp)]
  split
  · next heq =>
    rw [heq, form?_of_node? hp] at hx
    rw [Option.map_some, h, hx]
  · exact hx

/-- Attaching a child to a node of which the form stays keeps all forms. -/
theorem keeps_move : t.Keeps (t.move p n' c q) := by
  intro x f hx
  rw [form?, move, node?_refreshSubtree]
  exact keeps_relink hp h x f hx

end Move

end Tree

end InfraModule
