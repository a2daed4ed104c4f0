import InfraModule.Proofs.Resolve.Build
import InfraModule.Proofs.Resolve.Meaning

/-!
# Steps that follow a verdict

A step of building in a sound tree `Conveys` a verdict if it makes a new root of which the subtree
is the term that the verdict answers, gives no node where there is no answer, and reports exactly
the verdict's mistakes. Texts, lists and objects are made beside roots that wait; a call or a
condition is added over the roots that were made for it.
-/

namespace InfraModule

open Result

namespace Tree

variable {t u : Tree} {id p c : NodeId} {n' : Node} {q : Option NodeId} {term : Term}
  {terms : List Term} {entries : List (String × Term)} {f : FunctionName} {text : String}

/-! ## Forms of terms -/

/-- The term of a text stands for a text and nothing else. -/
theorem denotes_text_iff :
    t.Denotes (.text text) id ↔ t.node? id = some (.expression (.literal (.string text))) := by
  rw [Term.text, denotes_iff]
  constructor
  · rintro ⟨e, hnode, hlabel, -⟩
    cases e <;> cases hlabel
    exact hnode
  · exact fun hnode => ⟨_, hnode, rfl, .nil⟩

/-- The term of a list stands for a list of what its items stand for. -/
theorem denotes_list_iff : t.Denotes (.list terms) id ↔ ∃ items,
    t.node? id = some (.expression (.list items)) ∧ List.Forall₂ t.Denotes terms items := by
  rw [Term.list, denotes_iff]
  constructor
  · rintro ⟨e, hnode, hlabel, hterms⟩
    cases e <;> cases hlabel
    exact ⟨_, hnode, hterms⟩
  · exact fun ⟨items, hnode, hterms⟩ => ⟨_, hnode, rfl, hterms⟩

/-- The term of an object stands for an object with these keys, over what its values stand for. -/
theorem denotes_object_iff : t.Denotes (.object entries) id ↔ ∃ made : Entries,
    t.node? id = some (.expression (.object made)) ∧ made.keys = entries.map Prod.fst ∧
      List.Forall₂ t.Denotes (entries.map Prod.snd) (made.map Prod.snd) := by
  rw [Term.object, denotes_iff]
  constructor
  · rintro ⟨e, hnode, hlabel, hterms⟩
    cases e <;> simp only [Expression.label, reduceCtorEq, Label.object.injEq] at hlabel
    exact ⟨_, hnode, hlabel, hterms⟩
  · rintro ⟨made, hnode, hkeys, hterms⟩
    exact ⟨_, hnode, congrArg Label.object hkeys, hterms⟩

namespace Denotes

/-- What is denoted by the term of a text is a text. -/
theorem isText (h : t.Denotes (.text text) id) : t.IsText id :=
  ⟨text, form?_of_node? (denotes_text_iff.mp h)⟩

/-- What is denoted by the term of a list has the form of a list. -/
theorem form?_list (h : t.Denotes (.list terms) id) : t.form? id = some .list := by
  obtain ⟨items, hnode, -⟩ := denotes_list_iff.mp h
  exact form?_of_node? hnode

/-- What is denoted by the term of an object has the form of an object. -/
theorem form?_object (h : t.Denotes (.object entries) id) : t.form? id = some .object := by
  obtain ⟨made, hnode, -⟩ := denotes_object_iff.mp h
  exact form?_of_node? hnode

/-- What is denoted by the term of a list is a value. -/
theorem isValue_list (h : t.Denotes (.list terms) id) : t.IsValue id :=
  ⟨_, h.form?_list, rfl⟩

/-- What is denoted by the term of an object is a value. -/
theorem isValue_object (h : t.Denotes (.object entries) id) : t.IsValue id :=
  ⟨_, h.form?_object, rfl⟩

/-- The node of a call is one of the function. -/
theorem exists_call (h : t.Denotes (.call f terms) id) :
    ∃ call, t.node? id = some (.expression (.call call)) ∧ call.name = f := by
  obtain ⟨e, hnode, hlabel, -⟩ := denotes_iff.mp h
  cases e <;> simp only [Expression.label, reduceCtorEq, Label.call.injEq] at hlabel
  exact ⟨_, hnode, hlabel⟩

/-- The node of a condition is one of the operator. -/
theorem exists_condition {c : ConditionName} (h : t.Denotes (.condition c terms) id) :
    ∃ condition, t.node? id = some (.expression (.condition condition)) ∧ condition.name = c := by
  obtain ⟨e, hnode, hlabel, -⟩ := denotes_iff.mp h
  cases e <;> simp only [Expression.label, reduceCtorEq, Label.condition.injEq] at hlabel
  exact ⟨_, hnode, hlabel⟩

/-- A named condition has the role of one. -/
theorem hasRole_conditionName (h : t.Denotes (.named text) id) : t.HasRole .conditionName id := by
  obtain ⟨condition, hnode, hname⟩ := exists_condition h
  cases condition <;> cases hname
  exact ⟨_, _, form?_of_node? hnode⟩

/-- What is denoted by a term exists. -/
theorem lt_size (h : t.Denotes term id) : id < t.size := by
  cases h with
  | node hnode _ _ => exact lt_size_of_node? hnode

/-- A subtree of which a root is no part stays the same when a child is attached to that root. -/
theorem move (ht : t.Sound) (h : t.Denotes term id) (hp : p < t.size) (hroot : t.parent? p = none)
    (hne : id ≠ p) : (t.move p n' c q).Denotes term id := by
  refine h.congr ht fun x hx => ?_
  rw [node?_move hp, if_neg]
  rintro rfl
  exact hne ((within_iff_of_root ht hroot).mp hx)

/-- The subtrees at the children of a root stay the same when one more is attached to it. -/
theorem move_all {ids : List NodeId} (h : List.Forall₂ t.Denotes terms ids) (ht : t.Sound)
    (hp : p < t.size) (hroot : t.parent? p = none) (hne : p ∉ ids) :
    List.Forall₂ (t.move p n' c q).Denotes terms ids := by
  refine List.forall₂_iff_get.mpr ⟨h.length_eq, fun i hi hc => ?_⟩
  exact (h.get hi hc).move ht hp hroot fun heq => hne (heq ▸ List.get_mem ids ⟨i, hc⟩)

end Denotes

end Tree

/-! ## Verdicts -/

namespace Build

variable {b b₁ b₂ : Build} {m m' : List Diagnostic}

/-- Between the two, exactly these mistakes were reported. -/
def Told (b : Build) (mistakes : List Diagnostic) (b' : Build) : Prop :=
  b'.diagnostics.toList = b.diagnostics.toList ++ mistakes

/-- Between a state and itself nothing was reported. -/
theorem told_refl (b : Build) : b.Told [] b :=
  (List.append_nil _).symm

/-- What was reported in two parts was reported in order. -/
theorem Told.trans (h : b.Told m b₁) (h' : b₁.Told m' b₂) : b.Told (m ++ m') b₂ := by
  rw [Told, h', h, List.append_assoc]

/-- Nothing more was reported. -/
theorem Told.of_silent (h : b.Told m b₁) (h' : b₁.Told [] b₂) : b.Told m b₂ := by
  simpa using h.trans h'

/-- A step made a new root that satisfies `P`, and reported mistakes, as a verdict says. -/
structure Conveyed (b : Build) (P : Tree → NodeId → Prop) (v : Verdict (Option Term))
    (given : Option NodeId) (b' : Build) : Prop extends b'.Gave b.tree P given where
  /-- The subtree at the root is the term that the verdict answers. -/
  denotes : Option.Rel b'.tree.Denotes v.answer given
  /-- The mistakes of the verdict were reported. -/
  told : b.Told v.mistakes b'

variable {P : Tree → NodeId → Prop} {v : Verdict (Option Term)} {given : Option NodeId}
  {id : NodeId}

/-- Without an answer there is no node. -/
theorem Conveyed.none_of (h : b.Conveyed P v given b₁) (hv : v.answer = none) : given = none := by
  have hrel := hv ▸ h.denotes
  cases hrel
  rfl

/-- For an answer there is a node. -/
theorem Conveyed.some_of {term : Term} (h : b.Conveyed P v given b₁) (hv : v.answer = some term) :
    ∃ id, given = some id ∧ b₁.tree.Denotes term id ∧ P b₁.tree id ∧
      b.tree.Made b₁.tree [id] := by
  have hrel := hv ▸ h.denotes
  cases hrel with
  | @some _ id hid => exact ⟨id, rfl, hid, h.form id rfl, h.made⟩

/-- No node was given, as the verdict says. -/
theorem conveyed_none (h : b.tree.Grown b₁.tree) (hanswer : v.answer = none)
    (htold : b.Told v.mistakes b₁) : b.Conveyed P v none b₁ :=
  ⟨⟨h.made, by simp⟩, hanswer ▸ .none, htold⟩

/-- A node was given, as the verdict says. -/
theorem conveyed_some {term : Term} (h : b.tree.Made b₁.tree [id]) (hP : P b₁.tree id)
    (hdenotes : b₁.tree.Denotes term id) (hanswer : v.answer = some term)
    (htold : b.Told v.mistakes b₁) : b.Conveyed P v (some id) b₁ :=
  ⟨⟨h, by simpa using hP⟩, hanswer ▸ .some hdenotes, htold⟩

/-- A step made new roots that satisfy `P`, and reported mistakes, as a verdict says. -/
structure ConveyedAll (b : Build) (P : Tree → List NodeId → Prop)
    (v : Verdict (Option (List Term))) (given : Option (List NodeId)) (b' : Build) : Prop where
  /-- The nodes given are new roots. -/
  made : b.tree.Made b'.tree (given.getD [])
  /-- The nodes given are as demanded. -/
  form : ∀ ids ∈ given, P b'.tree ids
  /-- The subtrees at the roots are the terms that the verdict answers. -/
  denotes : Option.Rel (List.Forall₂ b'.tree.Denotes) v.answer given
  /-- The mistakes of the verdict were reported. -/
  told : b.Told v.mistakes b'

section All

variable {P : Tree → List NodeId → Prop} {v : Verdict (Option (List Term))}
  {given : Option (List NodeId)} {ids : List NodeId} {terms : List Term}

/-- Where a verdict has no answer, no nodes are given. -/
theorem ConveyedAll.none_of (h : b.ConveyedAll P v given b₁) (hv : v.answer = none) :
    given = none := by
  have hrel := hv ▸ h.denotes
  cases hrel
  rfl

/-- Where a verdict answers several terms, new roots are given that denote them. -/
theorem ConveyedAll.some_of (h : b.ConveyedAll P v given b₁) (hv : v.answer = some terms) :
    ∃ ids, given = some ids ∧ List.Forall₂ b₁.tree.Denotes terms ids ∧ P b₁.tree ids ∧
      b.tree.Made b₁.tree ids := by
  have hrel := hv ▸ h.denotes
  cases hrel with
  | @some _ ids hids => exact ⟨ids, rfl, hids, h.form ids rfl, h.made⟩

/-- Giving no nodes is what a verdict without an answer says. -/
theorem conveyedAll_none (h : b.tree.Grown b₁.tree) (hanswer : v.answer = none)
    (htold : b.Told v.mistakes b₁) : b.ConveyedAll P v none b₁ :=
  ⟨h.made, by simp, hanswer ▸ .none, htold⟩

/-- Giving new roots is what a verdict says that answers their terms. -/
theorem conveyedAll_some (h : b.tree.Made b₁.tree ids) (hP : P b₁.tree ids)
    (hdenotes : List.Forall₂ b₁.tree.Denotes terms ids) (hanswer : v.answer = some terms)
    (htold : b.Told v.mistakes b₁) : b.ConveyedAll P v (some ids) b₁ :=
  ⟨h, by simpa using hP, hanswer ▸ .some hdenotes, htold⟩

end All

end Build

namespace BuildM

variable {b b₁ : Build} {t : Tree} {ids : List NodeId} {terms : List Term} {text : String}
  {l : Location} {P Q : Tree → NodeId → Prop} {v : Verdict (Option Term)} {e : Expression}

/-- Started in a sound tree, the step does what the verdict says. -/
def Conveys (m : BuildM (Option NodeId)) (P : Tree → NodeId → Prop) (v : Verdict (Option Term)) :
    Prop :=
  ∀ b, b.tree.Sound → Succeeds m b (b.Conveyed P v)

/-- A step that follows a verdict makes a new root or gives no node. -/
theorem Conveys.gives {m : BuildM (Option NodeId)} (h : Conveys m P v) : Gives m P :=
  fun b hb => (h b hb).mono fun _ _ h => h.toGave

/-- A step that follows a verdict still does if less is demanded of its node. -/
theorem Conveys.imp {m : BuildM (Option NodeId)} (h : Conveys m P v)
    (hPQ : ∀ t id, P t id → Q t id) : Conveys m Q v := fun b hb =>
  (h b hb).mono fun _ _ h => ⟨h.toGave.imp (hPQ _), h.denotes, h.told⟩

/-- Reporting a mistake leaves the tree as it is. -/
theorem succeeds_report (message : String) (l : Location) :
    Succeeds (report message l) b fun _ b' => b'.tree = b.tree ∧
      b.Told [⟨.error, message, l⟩] b' :=
  ⟨rfl, Diagnostics.toList_error ..⟩

/-- Reporting a mistake gives no node. -/
theorem conveys_refuse (message : String) (l : Location) :
    Conveys (refuse message l) P (.refuse message l) := fun _ hb =>
  Build.conveyed_none (Tree.Grown.refl hb) rfl (Diagnostics.toList_error ..)

/-! ## Adding nodes -/

/-- A node of a term was added beside roots that were made before, and nothing was reported. -/
structure Added (t : Tree) (ids : List NodeId) (b : Build) (term : Term) (id : NodeId)
    (b' : Build) : Prop where
  /-- The node is a new root. -/
  made : t.Made b'.tree (ids ++ [id])
  /-- The nodes that were there stay as they are. -/
  retains : b.tree.Retains b'.tree
  /-- The subtree at the node is the term. -/
  denotes : b'.tree.Denotes term id
  /-- Nothing was reported. -/
  silent : b.Told [] b'

/-- An expression is added over roots that were made for it. -/
theorem succeeds_add (h : t.Made b.tree e.children) (htarget : e.target = none)
    (htyped : b.tree.WellTyped (.expression e))
    (hterms : List.Forall₂ b.tree.Denotes terms e.children)
    (l : Location) : Succeeds (add e l) b (Added t [] b (.node e.label terms)) := by
  have hmade : t.Made b.tree ((Node.expression e).children ++ []) := by
    rw [List.append_nil]
    exact h
  rw [add, Succeeds, post_onTree, post_of_ok (hmade.add htarget htyped l)]
  exact ⟨hmade.append htarget htyped, b.tree.retains_append _ l, .append hterms l, b.told_refl⟩

/-- An expression without children is added beside roots that were made before. -/
theorem succeeds_addLeaf (h : t.Made b.tree ids) (hchildren : e.children = [])
    (htarget : e.target = none) (htyped : b.tree.WellTyped (.expression e)) (l : Location) :
    Succeeds (add e l) b (Added t ids b (.node e.label [])) := by
  have hself : b.tree.Made b.tree e.children := hchildren ▸ (Tree.Grown.refl h.sound).made
  have hnil : List.Forall₂ b.tree.Denotes [] e.children := hchildren ▸ .nil
  refine (succeeds_add hself htarget htyped hnil l).mono fun id b' hid => ?_
  exact ⟨h.trans hid.made, hid.retains, hid.denotes, hid.silent⟩

/-- A text is added beside roots that were made before. -/
theorem succeeds_addText (h : t.Made b.tree ids) (text : String) (l : Location) :
    Succeeds (addText text l) b (Added t ids b (.text text)) :=
  succeeds_addLeaf (e := .literal (.string text)) h rfl rfl trivial l

/-- An empty list is added beside roots that were made before. -/
theorem succeeds_addList (h : t.Made b.tree ids) (l : Location) :
    Succeeds (add (.list []) l) b (Added t ids b (.list [])) :=
  succeeds_addLeaf h rfl rfl (by simp [Tree.WellTyped]) l

/-- An empty object is added beside roots that were made before. -/
theorem succeeds_addObject (h : t.Made b.tree ids) (l : Location) :
    Succeeds (add (.object []) l) b (Added t ids b (.object [])) :=
  succeeds_addLeaf h rfl rfl (by simp [Tree.WellTyped]) l

/-- A call is added over operands that were made for it. -/
theorem conveys_addCall (call : Call) (h : b.tree.Made b₁.tree call.operands)
    (htarget : call.target = none)
    (htyped : List.Forall₂ b₁.tree.HasRole call.roles call.operands)
    (hterms : List.Forall₂ b₁.tree.Denotes terms call.operands)
    (hanswer : v.answer = some (.call call.name terms)) (htold : b.Told v.mistakes b₁)
    (l : Location) : Succeeds (addCall call l) b₁ (b.Conveyed Tree.IsValue v) := by
  rw [addCall, Succeeds, post_map]
  refine (succeeds_add (e := .call call) h htarget htyped hterms l).mono fun id b' hid => ?_
  obtain ⟨call', hnode, -⟩ := hid.denotes.exists_call
  exact Build.conveyed_some hid.made ⟨_, Tree.form?_of_node? hnode, rfl⟩ hid.denotes hanswer
    (htold.of_silent hid.silent)

/-- A condition is added over operands that were made for it. -/
theorem conveys_addCondition (c : Condition) (h : b.tree.Made b₁.tree c.operands)
    (htarget : c.target = none) (htyped : b₁.tree.OperandsTyped c)
    (hterms : List.Forall₂ b₁.tree.Denotes terms c.operands)
    (hanswer : v.answer = some (.condition c.name terms)) (htold : b.Told v.mistakes b₁)
    (l : Location) : Succeeds (addCondition c l) b₁ (b.Conveyed Tree.IsCondition v) := by
  rw [addCondition, Succeeds, post_map]
  refine (succeeds_add (e := .condition c) h htarget htyped hterms l).mono fun id b' hid => ?_
  obtain ⟨condition, hnode, -⟩ := hid.denotes.exists_condition
  exact Build.conveyed_some hid.made ⟨_, Tree.form?_of_node? hnode⟩ hid.denotes hanswer
    (htold.of_silent hid.silent)

/-- Adding a text makes what the term of the text says, and reports nothing. -/
theorem conveys_text (text : String) (l : Location) :
    Conveys (some <$> addText text l) Tree.IsText (pure (some (.text text))) := by
  intro b hb
  rw [Succeeds, post_map]
  refine (succeeds_addText (Tree.Grown.refl hb).made text l).mono fun id b' hid => ?_
  exact Build.conveyed_some hid.made hid.denotes.isText hid.denotes rfl hid.silent

/-- A named condition is made together with its name. -/
theorem conveys_namedCondition (name : String) (l : Location) :
    Conveys (some <$> addNamedCondition name l) (fun t id => t.HasRole .conditionName id)
      (pure (some (.named name))) := by
  intro b hb
  rw [Succeeds, post_map]
  refine succeeds_bind (succeeds_addText (Tree.Grown.refl hb).made name l) fun id b₁ hid => ?_
  refine (succeeds_add (e := .condition (.reference id none)) hid.made rfl hid.denotes.isText
    (.cons hid.denotes .nil) l).mono fun id' b' hid' => ?_
  exact Build.conveyed_some hid'.made hid'.denotes.hasRole_conditionName hid'.denotes rfl
    (hid.silent.of_silent hid'.silent)

/-! ## Filling lists and objects -/

/-- A root is none of its children, nor another root. -/
theorem notMem_children_append {p c : NodeId} {n : Node} (h : t.Made b.tree [p, c])
    (hp : b.tree.node? p = some n) : p ∉ n.children ++ [c] := by
  have hroot := (h.root p List.mem_cons_self).2
  intro hmem
  rcases List.mem_append.mp hmem with hmem | hmem
  · have howner := h.sound.owner.mp (Tree.children_of_node? hp ▸ hmem)
    simp [hroot] at howner
  · have hnodup := h.nodup
    simp [List.mem_singleton.mp hmem] at hnodup

/-- A value that was made for a list is appended to it. -/
theorem succeeds_pushChild {list id : NodeId} {term : Term} (h : t.Made b.tree [list, id])
    (hlist : b.tree.Denotes (.list terms) list) (hid : b.tree.Denotes term id)
    (hvalue : b.tree.IsValue id) :
    Succeeds (onTree (.pushChild list id)) b fun _ b' => t.Made b'.tree [list] ∧
      b'.tree.Denotes (.list (terms ++ [term])) list ∧ b.Told [] b' := by
  obtain ⟨items, hnode, hterms⟩ := Tree.denotes_list_iff.mp hlist
  have hpush : (Node.expression (.list items)).push? id
      = some (.expression (.list (items ++ [id]))) := rfl
  -- With one more value the list is still one of values.
  have htyped : b.tree.WellTyped (.expression (.list (items ++ [id]))) := by
    have hitems := h.typed list _ (h.new list List.mem_cons_self) hnode
    intro x hx
    rcases List.mem_append.mp hx with hx | hx
    · exact hitems x hx
    · rw [List.mem_singleton.mp hx]
      exact hvalue
  have happly := TreeM.pushChild_of_attachable (h.attachable h.sound) hnode hpush
  have hmade := h.attach hnode (Node.without_of_push? hpush) rfl htyped
  rw [Succeeds, post_onTree, post_of_ok happly]
  refine ⟨hmade, Tree.denotes_list_iff.mpr ⟨items ++ [id], ?_, ?_⟩, b.told_refl⟩
  · rw [Tree.node?_move hlist.lt_size, if_pos rfl]
  · exact Tree.Denotes.move_all (List.rel_append hterms (.cons hid .nil)) h.sound hlist.lt_size
      (h.root list List.mem_cons_self).2 (notMem_children_append h hnode)

/-- A value that was made for an object is added to it under a key that the object does not
have. -/
theorem succeeds_insertEntry {object id : NodeId} {term : Term} {entries : List (String × Term)}
    {key : Key} (h : t.Made b.tree [object, id]) (hobject : b.tree.Denotes (.object entries) object)
    (hid : b.tree.Denotes term id) (hvalue : b.tree.IsValue id)
    (hkey : key.text ∉ entries.map Prod.fst) :
    Succeeds (discard (onTree (.insertEntry object key id))) b fun _ b' =>
      t.Made b'.tree [object] ∧
        b'.tree.Denotes (.object (entries ++ [(key.text, term)])) object ∧ b.Told [] b' := by
  obtain ⟨made, hnode, hkeys, hterms⟩ := Tree.denotes_object_iff.mp hobject
  have hnew : made.contains key.text = false := by
    rw [← hkeys] at hkey
    simpa [Entries.contains, Entries.keys] using hkey
  -- With one more value the object is still one of values.
  have htyped : b.tree.WellTyped (.expression (.object (made ++ [(key, id)]))) := by
    have hvalues := h.typed object _ (h.new object List.mem_cons_self) hnode
    intro entry hentry
    rcases List.mem_append.mp hentry with hentry | hentry
    · exact hvalues entry hentry
    · rw [List.mem_singleton.mp hentry]
      exact hvalue
  have happly := TreeM.insertEntry_of_attachable (h.attachable h.sound) hnode hnew
  have hmade := h.attach hnode (Node.without_entry made key id) rfl htyped
  change Post (Functor.map _ _) b _ _
  rw [post_map, post_onTree, post_of_ok happly]
  refine ⟨hmade, Tree.denotes_object_iff.mpr ⟨made ++ [(key, id)], ?_, ?_, ?_⟩, b.told_refl⟩
  · rw [Tree.node?_move hobject.lt_size, if_pos rfl]
  · simpa [Entries.keys] using hkeys
  · rw [List.map_append, List.map_append]
    exact Tree.Denotes.move_all (List.rel_append hterms (.cons hid .nil)) h.sound hobject.lt_size
      (h.root object List.mem_cons_self).2 (notMem_children_append h hnode)

end BuildM

end InfraModule
