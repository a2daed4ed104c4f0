import InfraModule.Proofs.Tree.Binding
import InfraModule.Proofs.Tree.Reachable

/-!
# Refused operations

An operation that is refused leaves the whole tree as it was, and its error tells the truth: it
names a condition of the operation that the arguments violate (`Operation.Violates`). Operations
look nodes up again after they have begun to change the tree; that no such look-up fails rests on
ownership in sound trees, and so does it that no node is missing from its owner.
-/

namespace InfraModule

open Result

/-! ## Conditions of operations -/

/-- The node cannot do without the child. -/
inductive Node.Requires : Node → NodeId → Prop
  /-- The value of the keyword. -/
  | keyword {d : Declaration} {child : NodeId} (h : d.keyword = some child) :
    Requires (.declaration d) child
  /-- An operand of a call other than the parameters of `!Sub`. -/
  | operand {f : Call} {child : NodeId} (h : child ∈ f.operands)
    (hsub : ∀ format, f ≠ .sub format (some child)) : Requires (.expression (.call f)) child
  /-- An operand of a condition. -/
  | conditionOperand {c : Condition} {child : NodeId} (h : child ∈ c.operands) :
    Requires (.expression (.condition c)) child

namespace Operation

/-- The nodes that must exist. -/
def mentioned : Operation → List NodeId
  | .add node _ => node.children ++ node.target.toList
  | .setProperty id _ value => id :: value.toList
  | .pushChild parent child => [parent, child]
  | .insertEntry object _ value => [object, value]
  | .detach child => [child]
  | .setReference id target => id :: target.toList
  | .copySubtree root => [root]
  | .linkReferences _ => []

/-- The nodes that get an owner, and must not have one. -/
def adopted : Operation → List NodeId
  | .add node _ => node.children
  | .setProperty _ _ value => value.toList
  | .pushChild _ child => [child]
  | .insertEntry _ _ value => [value]
  | _ => []

/-- The node that becomes the owner, if it was there before. -/
def owner? : Operation → Option NodeId
  | .setProperty id .. => some id
  | .pushChild parent _ => some parent
  | .insertEntry object .. => some object
  | _ => none

/-- The nodes that must be declarations. -/
def declared : Operation → List NodeId
  | .add node _ => node.target.toList
  | .setProperty id .. => [id]
  | .setReference _ target => target.toList
  | _ => []

/-- The arguments violate the condition of which the error speaks. -/
def Violates (op : Operation) (t : Tree) : TreeError → Prop
  | .unknownNode id => id ∈ op.mentioned ∧ t.node? id = none
  | .alreadyAttached child parent => child ∈ op.adopted ∧
      (t.parent? child = some parent ∨ parent = t.size ∧ 2 ≤ op.adopted.count child)
  | .cyclicAttachment child => child ∈ op.adopted ∧ ∃ p ∈ op.owner?, t.Within child p
  | .notAChild .. => False
  | .requiredChild child parent => op = .detach child ∧ t.parent? child = some parent ∧
      ∃ n, t.node? parent = some n ∧ n.Requires child
  | .unknownProperty kind key => key ∉ kind.propertyKeys ∧ ∃ id value d,
      op = .setProperty id key value ∧ t.node? id = some (.declaration d) ∧ d.kind = kind
  | .notADeclaration id => id ∈ op.declared ∧ ∃ n, t.node? id = some n ∧ n.declaration? = none
  | .notReferenceBearing id => ∃ target n,
      op = .setReference id target ∧ t.node? id = some n ∧ n.isReference = false
  | .unexpectedNode id expected found => ∃ n, t.node? id = some n ∧ n.kindName = found ∧
      ((expected = "List or Collection" ∧ t.listItems? id = none ∧
          ∃ child, op = .pushChild id child)
        ∨ expected = "Object" ∧ t.objectEntries? id = none ∧
          ∃ key value, op = .insertEntry id key value)

end Operation

/-! ## Failed checks -/

/-- An operand that a call requires is one of its operands, and not the parameters of `!Sub`. -/
theorem Call.mem_operands_of_remove {f : Call} {child : NodeId} (h : f.remove child = .required) :
    child ∈ f.operands ∧ ∀ format, f ≠ .sub format (some child) := by
  have hother (hr : f.remove child = if child ∈ f.operands then .required else .notFound) :
      child ∈ f.operands := by
    rw [hr] at h
    split at h
    · assumption
    · cases h
  cases f with
  | sub format parameters =>
    cases parameters with
    | none => exact ⟨hother rfl, by simp⟩
    | some parameters =>
      simp only [remove] at h
      split at h
      · cases h
      · next hne =>
        split at h
        · next hformat => exact ⟨by simp [operands, hformat], by simpa using hne⟩
        · cases h
  | _ => exact ⟨hother rfl, by simp⟩

/-- A child that cannot be taken out of a node is required by it. -/
theorem Node.requires_of_remove {n : Node} {child : NodeId} (h : n.remove child = .required) :
    n.Requires child := by
  cases n with
  | declaration d =>
    simp only [remove, Declaration.remove] at h
    split at h
    · next hkeyword => exact .keyword hkeyword
    · split at h <;> cases h
  | expression e =>
    cases e with
    | literal l => cases h
    | list items | object entries =>
      simp only [remove, Expression.remove] at h
      split at h <;> cases h
    | call f =>
      cases hf : f.remove child with
      | required =>
        obtain ⟨hmem, hsub⟩ := Call.mem_operands_of_remove hf
        exact .operand hmem hsub
      | removed | notFound =>
        simp only [remove, Expression.remove, hf] at h
        cases h
    | condition c =>
      simp only [remove, Expression.remove, Condition.remove] at h
      split at h
      · next hchild => exact .conditionOperand hchild
      · cases h
  | collection items =>
    simp only [remove] at h
    split at h <;> cases h

namespace Tree

variable {t : Tree} {op : Operation} {id p c : NodeId} {e : TreeError} {seen cs : List NodeId}

/-- An entry that is found has the node of the id. -/
theorem node?_of_requireEntry {entry : Entry} (h : t.requireEntry id = .ok entry) :
    t.node? id = some entry.node := by
  rw [node?, requireEntry_eq_ok.mp h, Option.map_some]

/-- An entry that is found has the owner of the id. -/
theorem parent?_of_requireEntry {entry : Entry} (h : t.requireEntry id = .ok entry) :
    t.parent? id = entry.parent := by
  rw [parent?, requireEntry_eq_ok.mp h, Option.bind_some]

/-- If an id that the call mentions has no entry, the error says so truly. -/
theorem violates_requireEntry (hid : id ∈ op.mentioned) (h : t.requireEntry id = .error e) :
    op.Violates t e := by
  by_cases hlt : id < t.size
  · obtain ⟨entry, hok, -⟩ := requireEntry_of_lt hlt
    cases hok.symm.trans h
  · have hle := Nat.not_lt.mp hlt
    cases (requireEntry_of_le hle).symm.trans h
    exact ⟨hid, node?_eq_none_iff.mpr hle⟩

/-- If a node that must be a declaration is none, the error says so truly. -/
theorem violates_requireDeclaration (hid : id ∈ op.mentioned) (hdeclared : id ∈ op.declared)
    (h : t.requireDeclaration id = .error e) : op.Violates t e := by
  unfold requireDeclaration at h
  cases hentry : t.requireEntry id with
  | error e' =>
    rw [hentry] at h
    cases h
    exact violates_requireEntry hid hentry
  | ok entry =>
    rw [hentry] at h
    simp only [bind, Except.bind] at h
    split at h
    · cases h
    · next hno =>
      cases h
      refine ⟨hdeclared, entry.node, node?_of_requireEntry hentry, ?_⟩
      cases hn : entry.node with
      | declaration d => exact (hno d hn).elim
      | _ => rfl

/-- If a child cannot be attached, the error says truly why. -/
theorem violates_checkAttachable (hp : p ∈ op.mentioned) (hc : c ∈ op.mentioned)
    (howner : op.owner? = some p) (hadopted : c ∈ op.adopted)
    (h : t.checkAttachable p c = .error e) : op.Violates t e := by
  unfold checkAttachable at h
  cases hparent : t.requireEntry p with
  | error e' =>
    rw [hparent] at h
    cases h
    exact violates_requireEntry hp hparent
  | ok parent =>
    cases hchild : t.requireEntry c with
    | error e' =>
      rw [hparent, hchild] at h
      cases h
      exact violates_requireEntry hc hchild
    | ok child =>
      rw [hparent, hchild] at h
      simp only [bind, Except.bind] at h
      split at h
      · next owner hsome =>
        cases h
        exact ⟨hadopted, Or.inl ((parent?_of_requireEntry hchild).trans hsome)⟩
      · split at h
        · next hcycle =>
          cases h
          refine ⟨hadopted, p, howner, ?_⟩
          simpa [Within, eq_comm] using hcycle
        · cases h

/-- A child that fails the check comes after those that were seen. -/
theorem violates_checkAdoptable (hmentioned : ∀ d ∈ cs, d ∈ op.mentioned)
    (hadopted : (seen.reverse ++ cs) = op.adopted) (h : t.checkAdoptable seen cs = .error e) :
    op.Violates t e := by
  induction cs generalizing seen with
  | nil => cases h
  | cons child children ih =>
    obtain ⟨hchild, hchildren⟩ := List.forall_mem_cons.mp hmentioned
    have hmem : child ∈ op.adopted := hadopted ▸ by simp
    unfold checkAdoptable at h
    cases hentry : t.requireEntry child with
    | error e' =>
      rw [hentry] at h
      cases h
      exact violates_requireEntry hchild hentry
    | ok entry =>
      rw [hentry] at h
      simp only [bind, Except.bind] at h
      split at h
      · next owner hsome =>
        cases h
        exact ⟨hmem, Or.inl ((parent?_of_requireEntry hentry).trans hsome)⟩
      · split at h
        · next hseen =>
          cases h
          refine ⟨hmem, Or.inr ⟨rfl, ?_⟩⟩
          have hcount : 1 ≤ seen.count child := List.count_pos_iff.mpr hseen
          rw [← hadopted, List.count_append, List.count_reverse, List.count_cons_self]
          omega
        · exact ih hchildren (by simpa using hadopted) h

end Tree

/-! ## One operation -/

/-- If the operation is refused, the tree is as it was, and the error speaks of a condition that is
violated. -/
def Operation.Refuses (op : Operation) (t : Tree) : Prop :=
  Post op.perform t (fun _ _ => True) fun e u => u = t ∧ op.Violates t e

namespace TreeM

variable {t : Tree} {id p c : NodeId} {n : Node} {l : Location} {k : Key} {key : String}
  {value target : Option NodeId} {α β : Type}

/-- A condition on an answer that is dropped is one on any answer. -/
theorem post_discard {x : TreeM α} {Q : PUnit → Tree → Prop} {E : TreeError → Tree → Prop} :
    Post (discard x) t Q E ↔ Post x t (fun _ u => Q ⟨⟩ u) E :=
  post_map

/-- A question is answered in the tree as it is, or refused in it. -/
theorem post_ask {q : Tree → Except TreeError α} {Q : α → Tree → Prop}
    {E : TreeError → Tree → Prop} (herror : ∀ e, q t = .error e → E e t)
    (hok : ∀ a, q t = .ok a → Q a t) : Post (ask q) t Q E := by
  rw [Post, ask_apply]
  cases h : q t with
  | error e => exact herror e h
  | ok a => exact hok a h

/-- An operation that asks the tree first is refused with the error of the answer, or goes on from
it. -/
theorem post_ask_bind {q : Tree → Except TreeError α} {f : α → TreeM β} {Q : β → Tree → Prop}
    {E : TreeError → Tree → Prop} (herror : ∀ e, q t = .error e → E e t)
    (hok : ∀ a, q t = .ok a → Post (f a) t Q E) : Post (ask q >>= f) t Q E :=
  post_bind.mpr (post_ask herror hok)

/-- An operation that succeeds is not refused. -/
theorem post_true_of_ok {x : TreeM α} {a : α} {u : Tree} {E : TreeError → Tree → Prop}
    (h : x t = .ok a u) : Post x t (fun _ _ => True) E :=
  (post_of_ok h).mpr trivial

/-- Adding a node is refused truly. -/
theorem refuses_add (t : Tree) (n : Node) (l : Location) : (Operation.add n l).Refuses t := by
  unfold Operation.Refuses Operation.perform add
  refine post_discard.mpr (post_ask_bind (fun e he => ⟨rfl, ?children⟩) fun _ _ => ?target)
  case children => exact Tree.violates_checkAdoptable (fun d hd => List.mem_append_left _ hd) rfl he
  case target =>
    cases htarget : n.target with
    | none => trivial
    | some target =>
      have hmem : target ∈ n.target.toList := by simp [htarget]
      refine post_bind.mpr (post_discard.mpr (post_ask (fun e he => ⟨rfl, ?_⟩) fun _ _ => trivial))
      exact Tree.violates_requireDeclaration (List.mem_append_right _ hmem) hmem he

/-- Binding a key is refused truly. -/
theorem refuses_setProperty (ht : t.Sound) (id : NodeId) (key : String) (value : Option NodeId) :
    (Operation.setProperty id key value).Refuses t := by
  unfold Operation.Refuses Operation.perform setProperty
  refine post_discard.mpr (post_ask_bind (fun e he => ⟨rfl, ?owner⟩) fun d hd => ?value)
  case owner => exact Tree.violates_requireDeclaration List.mem_cons_self List.mem_cons_self he
  case value =>
    have hid := Tree.requireDeclaration_eq_ok.mp hd
    -- Once the value can be attached, only the key can be wrong.
    have hkey (ha : ∀ v, value = some v → t.Attachable id v) :
        Post (do
          unless d.hasProperty key do
            throw (.unknownProperty d.kind key)
          rebind id d key value) t (fun _ _ => True)
          fun e u => u = t ∧ (Operation.setProperty id key value).Violates t e := by
      by_cases h : d.hasProperty key = true
      · simp only [h]
        exact post_true_of_ok (rebind_of_attachable ht hid h ha)
      · simp only [h]
        exact ⟨rfl, mt (d.hasProperty_iff key).mpr h, id, value, d, rfl, hid, rfl⟩
    cases value with
    | none => exact hkey (by simp)
    | some v =>
      refine post_ask_bind (fun e he => ⟨rfl, ?_⟩) fun _ hok => hkey fun w hw => ?_
      · exact Tree.violates_checkAttachable (by simp [Operation.mentioned])
          (by simp [Operation.mentioned]) rfl (by simp [Operation.adopted]) he
      · cases hw
        exact Tree.checkAttachable_eq_ok.mp hok

/-- Appending a child is refused truly. -/
theorem refuses_pushChild (t : Tree) (p c : NodeId) : (Operation.pushChild p c).Refuses t := by
  unfold Operation.Refuses Operation.perform pushChild
  refine post_ask_bind (fun e he => ⟨rfl, ?attach⟩) fun _ hok =>
    post_ask_bind (fun e he => ⟨rfl, ?owner⟩) fun entry hentry => ?form
  case attach =>
    exact Tree.violates_checkAttachable (by simp [Operation.mentioned])
      (by simp [Operation.mentioned]) rfl List.mem_cons_self he
  case owner => exact Tree.violates_requireEntry List.mem_cons_self he
  case form =>
    have hc : c < t.size := (Tree.checkAttachable_eq_ok.mp hok).child
    have hnode := Tree.node?_of_requireEntry hentry
    dsimp only
    split
    · exact post_true_of_ok (setNode_own hc)
    · exact post_true_of_ok (setNode_own hc)
    · next hlist hcollection =>
      refine ⟨rfl, entry.node, hnode, rfl, Or.inl ⟨rfl, ?_, c, rfl⟩⟩
      rw [Tree.listItems?, hnode]
      split
      · next items heq => exact (hlist items (Option.some_inj.mp heq)).elim
      · next items heq => exact (hcollection items (Option.some_inj.mp heq)).elim
      · rfl

/-- Inserting an entry is refused truly. -/
theorem refuses_insertEntry (t : Tree) (p : NodeId) (k : Key) (c : NodeId) :
    (Operation.insertEntry p k c).Refuses t := by
  unfold Operation.Refuses Operation.perform insertEntry
  refine post_discard.mpr (post_ask_bind (fun e he => ⟨rfl, ?attach⟩) fun _ hok =>
    post_ask_bind (fun e he => ⟨rfl, ?owner⟩) fun entry hentry => ?form)
  case attach =>
    exact Tree.violates_checkAttachable (by simp [Operation.mentioned])
      (by simp [Operation.mentioned]) rfl List.mem_cons_self he
  case owner => exact Tree.violates_requireEntry List.mem_cons_self he
  case form =>
    have hc : c < t.size := (Tree.checkAttachable_eq_ok.mp hok).child
    have hnode := Tree.node?_of_requireEntry hentry
    dsimp only
    split
    · split
      · trivial
      · refine post_true_of_ok ((bind_of_ok (modify_apply _)).trans (bind_of_ok (own_of_lt ?_)))
        simpa using hc
    · next hobject =>
      refine ⟨rfl, entry.node, hnode, rfl, Or.inr ⟨rfl, ?_, k, c, rfl⟩⟩
      rw [Tree.objectEntries?, Tree.expression?, hnode]
      cases hn : entry.node with
      | expression e =>
        cases e with
        | object entries => exact (hobject entries hn).elim
        | _ => rfl
      | _ => rfl

/-- Detaching a child is refused truly. -/
theorem refuses_detach (ht : t.Sound) (c : NodeId) : (Operation.detach c).Refuses t := by
  unfold Operation.Refuses Operation.perform detach
  refine post_ask_bind (fun e he => ⟨rfl, ?child⟩) fun entry hentry => ?owner
  case child => exact Tree.violates_requireEntry List.mem_cons_self he
  case owner =>
    have hparent := Tree.parent?_of_requireEntry hentry
    split
    · trivial
    · next p hp =>
      rw [hp] at hparent
      obtain ⟨n, hn⟩ := Tree.node?_eq_some_iff_lt.mpr (ht.lt_size_of_owner hparent)
      obtain ⟨owner, howner, rfl, -⟩ := ask_requireEntry hn
      refine post_bind.mpr ((post_of_ok howner).mpr ?_)
      cases hremove : owner.node.remove c with
      | removed rest => exact post_true_of_ok (setNode_disown (Tree.lt_size_of_parent? hparent))
      | required =>
        exact ⟨rfl, rfl, hparent, owner.node, hn, Node.requires_of_remove hremove⟩
      | notFound =>
        -- Both records of ownership agree, so the owner does name the child.
        have hmem : c ∈ owner.node.children := Tree.children_of_node? hn ▸ ht.owner.mpr hparent
        exact (Node.notMem_children_of_remove hremove hmem).elim

/-- Binding a reference is refused truly. -/
theorem refuses_setReference (t : Tree) (id : NodeId) (target : Option NodeId) :
    (Operation.setReference id target).Refuses t := by
  -- Once the target is a declaration, only the reference can be wrong.
  have hreference : Post (do
      let node := (← ask (·.requireEntry id)).node
      unless node.isReference do
        throw (.notReferenceBearing id)
      unless node.target = target do
        modify (·.setNode id (node.withTarget target))
        modify (·.setBound id target.isSome)
        modify (·.refreshReference id) : TreeM Unit) t (fun _ _ => True)
      fun e u => u = t ∧ (Operation.setReference id target).Violates t e := by
    refine post_ask_bind (fun e he => ⟨rfl, ?_⟩) fun entry hentry => ?_
    · exact Tree.violates_requireEntry List.mem_cons_self he
    · by_cases h : entry.node.isReference = true
      · simp only [h]
        by_cases hsame : entry.node.target = target
        · simp only [hsame]
          trivial
        · simp only [hsame]
          trivial
      · simp only [h]
        exact ⟨rfl, target, entry.node, rfl, Tree.node?_of_requireEntry hentry, by simpa using h⟩
  unfold Operation.Refuses Operation.perform setReference
  cases target with
  | none => exact hreference
  | some d =>
    refine post_bind.mpr (post_discard.mpr (post_ask (fun e he => ⟨rfl, ?_⟩) fun _ _ => hreference))
    exact Tree.violates_requireDeclaration (by simp [Operation.mentioned])
      (by simp [Operation.declared]) he

/-- Copying a subtree is refused truly. -/
theorem refuses_copySubtree (ht : t.Sound) (root : NodeId) :
    (Operation.copySubtree root).Refuses t := by
  unfold Operation.Refuses Operation.perform
  refine post_discard.mpr ?_
  by_cases hroot : root < t.size
  · obtain ⟨d, u, hok, -⟩ := copySubtree_ok ht hroot
    exact post_true_of_ok hok
  · have hle := Nat.not_lt.mp hroot
    rw [Post, copySubtree_of_le hle]
    exact ⟨rfl, List.mem_cons_self, Tree.node?_eq_none_iff.mpr hle⟩

/-- Linking is refused truly. -/
theorem refuses_linkReferences (ht : t.Sound) (root : NodeId) :
    (Operation.linkReferences root).Refuses t := by
  unfold Operation.Refuses Operation.perform
  obtain ⟨u, hu, -⟩ := linkReferences_ok root ht (Tree.SameButTargets.refl t) ht
  exact post_discard.mpr (post_true_of_ok hu)

/-- An answer that a key is there already changes nothing. -/
theorem insertEntry_eq_false {u : Tree} (h : insertEntry p k c t = .ok false u) :
    u = t ∧ ∃ entries, t.objectEntries? p = some entries ∧ entries.contains k.text = true := by
  rcases insertEntry_cases t p k c with ⟨ha, entries, hp⟩ | ⟨e, he⟩
  · have hentries : t.objectEntries? p = some entries := by
      simp [Tree.objectEntries?, Tree.expression?, hp, Node.expression?]
    cases hk : entries.contains k.text with
    | true =>
      cases (insertEntry_of_contains ha hp hk).symm.trans h
      exact ⟨rfl, entries, hentries, hk⟩
    | false => cases (insertEntry_of_attachable ha hp hk).symm.trans h
  · cases he.symm.trans h

end TreeM

namespace Tree

/-- In a sound tree no operation is refused without reason, nor after it has changed anything. -/
theorem Sound.refuses {t : Tree} (ht : t.Sound) (op : Operation) : op.Refuses t := by
  cases op with
  | add n l => exact TreeM.refuses_add t n l
  | setProperty id key value => exact TreeM.refuses_setProperty ht id key value
  | pushChild p c => exact TreeM.refuses_pushChild t p c
  | insertEntry p k c => exact TreeM.refuses_insertEntry t p k c
  | detach c => exact TreeM.refuses_detach ht c
  | setReference id target => exact TreeM.refuses_setReference t id target
  | copySubtree root => exact TreeM.refuses_copySubtree ht root
  | linkReferences root => exact TreeM.refuses_linkReferences ht root

/-- In whatever tree operations have built, an operation that is refused leaves the whole tree as it
was: its nodes with their owners and locations, the index of bound references and the dependencies.
The error speaks of a condition of the operation that the arguments do violate. An entry that is not
inserted because its key is there leaves the whole tree as it was as well. -/
theorem refused_unchanged (ops : List Operation) :
    let t := after ops
    (∀ op error u, Operation.perform op t = .error error u → u = t ∧ op.Violates t error) ∧
    ∀ object key value u, TreeM.insertEntry object key value t = .ok false u →
      u = t ∧ ∃ entries, t.objectEntries? object = some entries ∧
        entries.contains key.text = true := by
  intro t
  refine ⟨fun op error u h => ?_, fun object key value u => TreeM.insertEntry_eq_false⟩
  exact ((sound_after ops).refuses op).of_error h

/-- An object takes no second value under a key, and is no list. -/
theorem refused_object :
    let text (s : String) : Operation := .add (.expression (.literal (.string s))) default
    let ops := [.add (.expression (.object [])) default, text "a", text "b",
      .insertEntry 0 ⟨"k", default⟩ 1]
    let t := after ops
    (∃ u, Operation.perform (.pushChild 0 2) t
        = .error (.unexpectedNode 0 "List or Collection" "Object") u ∧ u = t ∧
      Operation.Violates (.pushChild 0 2) t (.unexpectedNode 0 "List or Collection" "Object")) ∧
    ∃ u, TreeM.insertEntry 0 ⟨"k", default⟩ 2 t = .ok false u ∧ u = t := by
  intro text ops t
  obtain ⟨hrefused, hkept⟩ := refused_unchanged ops
  have hpush : (match Operation.perform (.pushChild 0 2) t with
      | .error e _ => decide (e = .unexpectedNode 0 "List or Collection" "Object")
      | .ok .. => false) = true := by decide +kernel
  have hinsert : (match TreeM.insertEntry 0 ⟨"k", default⟩ 2 t with
      | .ok inserted _ => !inserted
      | .error .. => false) = true := by decide +kernel
  refine ⟨?push, ?insert⟩
  case push =>
    split at hpush
    · next e u h =>
      obtain rfl := of_decide_eq_true hpush
      exact ⟨u, h, hrefused _ _ u h⟩
    · cases hpush
  case insert =>
    split at hinsert
    · next inserted u h =>
      obtain rfl : inserted = false := by simpa using hinsert
      exact ⟨u, h, (hkept 0 ⟨"k", default⟩ 2 u h).1⟩
    · cases hinsert

end Tree

end InfraModule
