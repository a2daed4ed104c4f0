import InfraModule.Proofs.Tree.Ownership
import InfraModule.Tree.Link

/-!
# Names in scope

What a reference is bound to is a question about names. The groups around the reference give its
scopes, from the innermost to the module itself; a scope `Offers` the first item of the document
with the full name that the reference has there, unless it must be a condition and is none; and the
innermost scope that offers anything `Settles` the reference. `lookUp_eq_some_iff` says that looking
a name up finds exactly that.

None of these questions looks at targets: trees that are `SameButTargets` answer them alike.
-/

namespace InfraModule

/-! ## Nodes bound anew -/

namespace Expression

variable (e : Expression) (target target' : Option NodeId)

/-- A reference stays one whatever it is bound to. -/
@[simp] theorem isReference_withTarget : (e.withTarget target).isReference = e.isReference := by
  match e with
  | .call f => cases f <;> rfl
  | .condition c => cases c <;> rfl
  | .literal _ | .list _ | .object _ => rfl

/-- A reference keeps its name whatever it is bound to. -/
@[simp] theorem referenceName_withTarget :
    (e.withTarget target).referenceName = e.referenceName := by
  match e with
  | .call f => cases f <;> rfl
  | .condition c => cases c <;> rfl
  | .literal _ | .list _ | .object _ => rfl

/-- Of two targets, the later one stays. -/
@[simp] theorem withTarget_withTarget :
    (e.withTarget target).withTarget target' = e.withTarget target' := by
  match e with
  | .call f => cases f <;> rfl
  | .condition c => cases c <;> rfl
  | .literal _ | .list _ | .object _ => rfl

/-- Binding a reference to its own target changes nothing. -/
@[simp] theorem withTarget_target : e.withTarget e.target = e := by
  match e with
  | .call f => cases f <;> rfl
  | .condition c => cases c <;> rfl
  | .literal _ | .list _ | .object _ => rfl

end Expression

namespace Node

variable (n : Node) (target target' : Option NodeId)

/-- Declarations have no target to bind. -/
@[simp] theorem declaration?_withTarget : (n.withTarget target).declaration? = n.declaration? := by
  cases n <;> rfl

/-- Binding a node binds the expression that it holds. -/
@[simp] theorem expression?_withTarget :
    (n.withTarget target).expression? = n.expression?.map (·.withTarget target) := by
  cases n <;> rfl

/-- An item stays one whatever is bound. -/
@[simp] theorem isItem_withTarget : (n.withTarget target).isItem = n.isItem := by
  cases n <;> rfl

/-- A reference stays one whatever it is bound to. -/
@[simp] theorem isReference_withTarget : (n.withTarget target).isReference = n.isReference := by
  cases n with
  | expression e => exact e.isReference_withTarget target
  | _ => rfl

/-- Of two targets, the later one stays. -/
@[simp] theorem withTarget_withTarget :
    (n.withTarget target).withTarget target' = n.withTarget target' := by
  cases n with
  | expression e => exact congrArg Node.expression (e.withTarget_withTarget target target')
  | _ => rfl

/-- Binding a reference to its own target changes nothing. -/
@[simp] theorem withTarget_target : n.withTarget n.target = n := by
  cases n with
  | expression e => exact congrArg Node.expression e.withTarget_target
  | _ => rfl

end Node

namespace Tree

variable {t s u : Tree} {root e x d : NodeId} {name full : String}

/-! ## Trees that differ in targets -/

/-- Two trees that differ in nothing but what their references are bound to and what follows from
it. -/
structure SameButTargets (t u : Tree) : Prop where
  /-- A node is the same, apart from the target that it has in the second tree. -/
  node : ∀ x, u.node? x = (t.node? x).map (·.withTarget (u.target? x))
  /-- Owners are the same. -/
  parent : u.parent? = t.parent?
  /-- Locations are the same. -/
  location : u.location? = t.location?

namespace SameButTargets

/-- A tree differs from itself in nothing. -/
theorem refl (t : Tree) : t.SameButTargets t where
  node := by
    intro x
    cases hn : t.node? x with
    | none => rfl
    | some n => rw [target?_of_node? hn, Option.map_some, Node.withTarget_target]
  parent := rfl
  location := rfl

/-- Each of the two trees has the other's nodes, with targets of its own. -/
theorem symm (h : t.SameButTargets u) : u.SameButTargets t where
  node := by
    intro x
    have hself : t.node? x = (t.node? x).map (·.withTarget (t.target? x)) := (refl t).node x
    rw [h.node x, Option.map_map]
    simpa [Function.comp_def] using hself
  parent := h.parent.symm
  location := h.location.symm

/-- Trees that differ in targets from a tree in between differ in targets only. -/
theorem trans (hts : t.SameButTargets s) (hsu : s.SameButTargets u) : t.SameButTargets u where
  node := by
    intro x
    rw [hsu.node x, hts.node x]
    simp [Function.comp_def]
  parent := hsu.parent.trans hts.parent
  location := hsu.location.trans hts.location

/-- The two trees have as many nodes. -/
theorem size (h : t.SameButTargets u) : u.size = t.size := by
  have hnode (x : NodeId) : u.node? x = none ↔ t.node? x = none := by
    rw [h.node x, Option.map_eq_none_iff]
  refine Nat.le_antisymm ?_ ?_
  · exact node?_eq_none_iff.mp ((hnode _).mpr (node?_eq_none_iff.mpr (le_refl _)))
  · exact node?_eq_none_iff.mp ((hnode _).mp (node?_eq_none_iff.mpr (le_refl _)))

/-- The chains of owners are the same. -/
theorem ancestors (h : t.SameButTargets u) : u.ancestors = t.ancestors :=
  Tree.ancestors_congr h.size h.parent

/-- Declarations are the same, for they have no targets. -/
theorem declaration? (h : t.SameButTargets u) : u.declaration? = t.declaration? := by
  funext x
  rw [Tree.declaration?, Tree.declaration?, h.node x]
  cases t.node? x with
  | none => rfl
  | some n => exact n.declaration?_withTarget _

/-- Kinds are the same. -/
theorem kind? (h : t.SameButTargets u) : u.kind? = t.kind? := by
  funext x
  rw [Tree.kind?, Tree.kind?, h.declaration?]

/-- An expression is the same, apart from the target that it has in the second tree. -/
theorem expression? (h : t.SameButTargets u) (x : NodeId) :
    u.expression? x = (t.expression? x).map (·.withTarget (u.target? x)) := by
  rw [Tree.expression?, Tree.expression?, h.node x]
  cases t.node? x with
  | none => rfl
  | some n => exact n.expression?_withTarget _

/-- A literal has no target, so it is the same. -/
theorem literalText? (h : t.SameButTargets u) : u.literalText? = t.literalText? := by
  funext x
  rw [Tree.literalText?, Tree.literalText?, literal?, literal?, h.expression? x]
  cases t.expression? x with
  | none => rfl
  | some e => cases e <;> rfl

/-- The names of declarations are the same. -/
theorem declarationName? (h : t.SameButTargets u) : u.declarationName? = t.declarationName? := by
  funext x
  rw [Tree.declarationName?, Tree.declarationName?, h.declaration?, h.literalText?]

/-- The names of references are the same. -/
theorem referenceName? (h : t.SameButTargets u) : u.referenceName? = t.referenceName? := by
  funext x
  rw [Tree.referenceName?, Tree.referenceName?, h.expression? x, h.literalText?]
  cases t.expression? x with
  | none => rfl
  | some e => exact congrArg (·.bind t.literalText?) (e.referenceName_withTarget _)

/-- The same references must be bound to conditions. -/
theorem bindsConditionsOnly (h : t.SameButTargets u) :
    u.bindsConditionsOnly = t.bindsConditionsOnly := by
  funext x
  rw [Tree.bindsConditionsOnly, Tree.bindsConditionsOnly, h.expression? x]
  match t.expression? x with
  | none => rfl
  | some (.condition c) => cases c <;> rfl
  | some (.literal _) | some (.list _) | some (.object _) | some (.call _) => rfl

/-- The scopes around a node are the same. -/
theorem scopePath (h : t.SameButTargets u) : u.scopePath = t.scopePath := by
  funext x
  rw [Tree.scopePath, Tree.scopePath, h.ancestors, h.kind?, h.declarationName?]

/-- Full names are the same. -/
theorem fullName? (h : t.SameButTargets u) : u.fullName? = t.fullName? := by
  funext x
  rw [Tree.fullName?, Tree.fullName?, h.declarationName?, h.scopePath]

/-- A walk comes to the same nodes in the same order. -/
theorem inspect (h : t.SameButTargets u) (root : NodeId) :
    u.inspect root = (t.inspect root).map fun (x, n) => (x, n.withTarget (u.target? x)) := by
  have hwithin (steps : Nat) (stack : List NodeId) : u.inspectWithin steps stack
      = (t.inspectWithin steps stack).map fun (x, n) => (x, n.withTarget (u.target? x)) := by
    induction steps generalizing stack with
    | zero => rfl
    | succ steps ih =>
      cases stack with
      | nil => rfl
      | cons x stack =>
        rw [inspectWithin, inspectWithin, h.node x]
        cases t.node? x with
        | none => exact ih stack
        | some n =>
          rw [Option.map_some]
          dsimp only
          rw [Node.children_withTarget, ih, List.map_cons]
  rw [Tree.inspect, Tree.inspect, h.size, hwithin]

/-- The items with names are the same, in the same order. -/
theorem namedItems (h : t.SameButTargets u) : u.namedItems = t.namedItems := by
  funext root
  rw [Tree.namedItems, Tree.namedItems, h.inspect, List.filterMap_map, h.fullName?]
  simp

/-- The references of a subtree are the same, in the same order. -/
theorem references (h : t.SameButTargets u) : u.references = t.references := by
  funext root
  rw [Tree.references, Tree.references, h.inspect, List.filter_map, List.map_map]
  simp [Function.comp_def]

/-- Looking a name up finds the same. -/
theorem lookUp (h : t.SameButTargets u) : u.lookUp = t.lookUp := by
  funext items reference name
  rw [Tree.lookUp, Tree.lookUp, h.scopePath, h.bindsConditionsOnly, h.kind?]

end SameButTargets

/-! ## Names -/

/-- The item is the first one in the order of the document that has this full name. -/
def FirstNamed (t : Tree) (root : NodeId) (full : String) (d : NodeId) : Prop :=
  ∃ n before after, t.inspect root = before ++ (d, n) :: after ∧
    n.isItem = true ∧ t.fullName? d = some full ∧
    ∀ x m, (x, m) ∈ before → m.isItem = true → t.fullName? x ≠ some full

/-- As seen from a scope, the reference has the name of this item and may be bound to it. -/
def Offers (t : Tree) (root e : NodeId) (name : String) (scope : List String) (d : NodeId) : Prop :=
  t.FirstNamed root (qualified scope name) d ∧
    (t.bindsConditionsOnly e = true → t.kind? d = some .condition)

/-- The innermost of the scopes around the reference that offers anything offers this item. -/
def Settles (t : Tree) (root e : NodeId) (name : String) (d : NodeId) : Prop :=
  ∃ j ≤ (t.scopePath e).length, t.Offers root e name ((t.scopePath e).take j) d ∧
    ∀ i, j < i → i ≤ (t.scopePath e).length → ∀ d',
      ¬ t.Offers root e name ((t.scopePath e).take i) d'

/-- Looking a name up among the named items searches the document for the first item with it. -/
theorem lookup_namedItems_eq_find? (t : Tree) (root : NodeId) (full : String) :
    (t.namedItems root).lookup full
      = ((t.inspect root).find? fun (x, n) => n.isItem && t.fullName? x == some full).map
        Prod.fst := by
  unfold namedItems
  induction t.inspect root with
  | nil => rfl
  | cons found rest ih =>
    obtain ⟨x, n⟩ := found
    rw [List.filterMap_cons, List.find?_cons]
    cases hitem : n.isItem with
    | false => simpa [hitem] using ih
    | true =>
      cases hname : t.fullName? x with
      | none => simpa [hitem, hname] using ih
      | some other =>
        simp only [hitem, hname, ↓reduceIte, Option.map_some, List.lookup_cons, Bool.true_and, ih]
        by_cases heq : other = full
        · simp [heq]
        · simp only [Option.some_beq_some, beq_eq_false_iff_ne.mpr heq,
            beq_eq_false_iff_ne.mpr (Ne.symm heq)]

/-- Looking a name up among the named items finds the first item with that name. -/
theorem lookup_namedItems :
    (t.namedItems root).lookup full = some d ↔ t.FirstNamed root full d := by
  rw [lookup_namedItems_eq_find?, Option.map_eq_some_iff, FirstNamed]
  constructor
  · rintro ⟨⟨x, n⟩, hfind, rfl⟩
    obtain ⟨hfound, before, after, hsplit, hbefore⟩ := List.find?_eq_some_iff_append.mp hfind
    obtain ⟨hitem, hname⟩ : n.isItem = true ∧ t.fullName? x = some full := by simpa using hfound
    refine ⟨n, before, after, hsplit, hitem, hname, fun y m hy hm hyname => ?_⟩
    simpa [hm, hyname] using hbefore (y, m) hy
  · rintro ⟨n, before, after, hsplit, hitem, hname, hbefore⟩
    refine ⟨(d, n), List.find?_eq_some_iff_append.mpr ⟨by simp [hitem, hname], before, after,
      hsplit, fun found hfound => ?_⟩, rfl⟩
    -- An item before it has another name.
    cases hm : found.2.isItem with
    | false => simp [hm]
    | true => simpa [hm] using hbefore found.1 found.2 hfound hm

/-! ## Scopes -/

/-- A search from the greatest of the first numbers down stops at the greatest that gives
anything. -/
theorem findSome?_reverse_range {α : Type} {f : Nat → Option α} {a : α} (n : Nat) :
    (List.range n).reverse.findSome? f = some a ↔
      ∃ j < n, f j = some a ∧ ∀ i, j < i → i < n → f i = none := by
  induction n with
  | zero => simp
  | succ n ih =>
    rw [List.range_succ, List.reverse_append, List.reverse_singleton, List.singleton_append,
      List.findSome?_cons]
    cases hn : f n with
    | some b =>
      constructor
      · intro h
        exact ⟨n, Nat.lt_succ_self n, hn.trans h, fun i hlt hle => by omega⟩
      · rintro ⟨j, hj, hfj, hlast⟩
        rcases Nat.lt_succ_iff_lt_or_eq.mp hj with hlt | rfl
        · simp [hlast n hlt (Nat.lt_succ_self n)] at hn
        · exact hn.symm.trans hfj
    | none =>
      dsimp only
      rw [ih]
      constructor
      · rintro ⟨j, hj, hfj, hlast⟩
        refine ⟨j, Nat.lt_succ_of_lt hj, hfj, fun i hlt hle => ?_⟩
        rcases Nat.lt_succ_iff_lt_or_eq.mp hle with hi | rfl
        · exact hlast i hlt hi
        · exact hn
      · rintro ⟨j, hj, hfj, hlast⟩
        rcases Nat.lt_succ_iff_lt_or_eq.mp hj with hlt | rfl
        · exact ⟨j, hlt, hfj, fun i hji hi => hlast i hji (Nat.lt_succ_of_lt hi)⟩
        · simp [hn] at hfj

/-- What a scope is searched for is what it offers. -/
theorem lookup_filter_eq_some_iff {scope : List String} :
    ((t.namedItems root).lookup (qualified scope name)).filter
        (fun item => !t.bindsConditionsOnly e || t.kind? item == some .condition) = some d ↔
      t.Offers root e name scope d := by
  rw [Option.filter_eq_some_iff, lookup_namedItems, Offers]
  cases t.bindsConditionsOnly e <;> simp

/-- A scope is searched in vain exactly if it offers nothing. -/
theorem lookup_filter_eq_none_iff {scope : List String} :
    ((t.namedItems root).lookup (qualified scope name)).filter
        (fun item => !t.bindsConditionsOnly e || t.kind? item == some .condition) = none ↔
      ∀ d, ¬ t.Offers root e name scope d := by
  rw [Option.eq_none_iff_forall_not_mem]
  exact forall_congr' fun d => not_congr lookup_filter_eq_some_iff

/-- Looking a name up finds the item that settles the reference. -/
theorem lookUp_eq_some_iff :
    t.lookUp (t.namedItems root) e name = some d ↔ t.Settles root e name d := by
  unfold lookUp outwards Settles
  rw [List.findSome?_map, findSome?_reverse_range]
  simp only [Function.comp_def, lookup_filter_eq_some_iff, lookup_filter_eq_none_iff,
    Nat.lt_succ_iff]

/-- Looking a name up finds nothing if no scope offers an item. -/
theorem lookUp_eq_none_iff : t.lookUp (t.namedItems root) e name = none ↔
    ∀ j ≤ (t.scopePath e).length, ∀ d, ¬ t.Offers root e name ((t.scopePath e).take j) d := by
  unfold lookUp outwards
  simp only [List.findSome?_eq_none_iff, List.forall_mem_map, List.mem_reverse, List.mem_range,
    lookup_filter_eq_none_iff, Nat.lt_succ_iff]

/-- What is found is a declaration. -/
theorem FirstNamed.isSome_kind? (ht : t.Sound) (h : t.FirstNamed root full d) :
    (t.kind? d).isSome = true := by
  obtain ⟨n, before, after, hsplit, hitem, -⟩ := h
  have hmem : (d, n) ∈ t.inspect root := hsplit ▸ List.mem_append_right before List.mem_cons_self
  rw [kind?_of_node? (ht.mem_inspect.mp hmem).1]
  cases n with
  | declaration declaration => rfl
  | _ => cases hitem

end Tree

end InfraModule
