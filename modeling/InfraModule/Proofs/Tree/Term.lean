import InfraModule.Proofs.Tree.Recursion
import InfraModule.Proofs.Tree.Typing
import Mathlib.Data.List.Forall2

/-!
# Subtrees as terms

Apart from its ids and its place in the document, a subtree of expressions is a finite term: each
node has a label, and below it stand the terms of its children, in order. `Denotes t term id` says
that the subtree at `id` is such a term. It is the same term as long as no node of the subtree
changes (`Denotes.congr`, `Denotes.of_retains`), and it determines what the subtree is written as
(`Denotes.write`).
-/

namespace InfraModule

open Result

/-- What an expression is, apart from its children, its target and its place in the document. -/
inductive Label where
  /-- A scalar. -/
  | literal (literal : Literal)
  /-- A sequence of values. -/
  | list
  /-- A mapping, with its keys in order. -/
  | object (keys : List String)
  /-- A call of a function. -/
  | call (function : FunctionName)
  /-- A condition. -/
  | condition (operator : ConditionName)
  deriving DecidableEq

/-- The label of an expression. -/
def Expression.label : Expression → Label
  | .literal l => .literal l
  | .list _ => .list
  | .object entries => .object entries.keys
  | .call f => .call f.name
  | .condition c => .condition c.name

/-- A label over the terms of its children. -/
inductive Term where
  /-- The term of a node. -/
  | node (label : Label) (children : List Term)

namespace Term

/-- What holds of a term once it holds of the terms of its children holds of all terms. -/
theorem induction {P : Term → Prop}
    (node : ∀ label children, (∀ c ∈ children, P c) → P (.node label children)) : ∀ term, P term
  | .node label children => node label children fun c _ => induction node c

/-- The term of a text. -/
def text (text : String) : Term :=
  .node (.literal (.string text)) []

/-- The term of a list. -/
def list (items : List Term) : Term :=
  .node .list items

/-- The term of an object. -/
def object (entries : List (String × Term)) : Term :=
  .node (.object (entries.map Prod.fst)) (entries.map Prod.snd)

/-- The term of a call. -/
def call (function : FunctionName) (operands : List Term) : Term :=
  .node (.call function) operands

/-- The term of a condition. -/
def condition (operator : ConditionName) (operands : List Term) : Term :=
  .node (.condition operator) operands

/-- The term of a condition that is named. -/
def named (name : String) : Term :=
  condition .reference [text name]

end Term

namespace Tree

variable {t u : Tree} {id : NodeId} {term : Term} {terms : List Term} {label : Label}
  {e : Expression} {l : Location}

/-- The subtree at a node is a term. -/
inductive Denotes (t : Tree) : Term → NodeId → Prop
  /-- The node has the label, and its children have the terms below it. -/
  | node {label : Label} {terms : List Term} {id : NodeId} {e : Expression}
    (hnode : t.node? id = some (.expression e)) (hlabel : e.label = label)
    (hterms : List.Forall₂ (Denotes t) terms e.children) : Denotes t (.node label terms) id

/-- A subtree is a term exactly if the label at its root is that of the term and the subtrees below
are the terms below. -/
theorem denotes_iff : t.Denotes (.node label terms) id ↔ ∃ e,
    t.node? id = some (.expression e) ∧ e.label = label ∧
      List.Forall₂ t.Denotes terms e.children :=
  ⟨fun | .node hnode hlabel hterms => ⟨_, hnode, hlabel, hterms⟩,
    fun ⟨_, hnode, hlabel, hterms⟩ => .node hnode hlabel hterms⟩

namespace Denotes

/-- A subtree is no more than one term. -/
theorem unique {term' : Term} (h : t.Denotes term id) (h' : t.Denotes term' id) :
    term = term' := by
  induction term using Term.induction generalizing term' id with
  | node label terms ih =>
    obtain ⟨label', terms'⟩ := term'
    obtain ⟨e, hnode, rfl, hterms⟩ := denotes_iff.mp h
    obtain ⟨e', hnode', rfl, hterms'⟩ := denotes_iff.mp h'
    cases hnode.symm.trans hnode'
    have hall : List.Forall₂ Eq terms terms' := by
      refine List.forall₂_iff_get.mpr ⟨hterms.length_eq.trans hterms'.length_eq.symm, ?_⟩
      intro i hi hi'
      have hc := hi.trans_eq hterms.length_eq
      exact ih _ (List.get_mem terms ⟨i, hi⟩) (hterms.get hi hc) (hterms'.get hi' hc)
    rw [(congrFun₂ List.forall₂_eq_eq_eq terms terms').mp hall]

/-- The subtree stays the term when all of its nodes stay as they are. -/
theorem congr (ht : t.Sound) (h : t.Denotes term id)
    (hsame : ∀ x, t.Within id x → u.node? x = t.node? x) : u.Denotes term id := by
  induction term using Term.induction generalizing id with
  | node label terms ih =>
    obtain ⟨e, hnode, hlabel, hterms⟩ := denotes_iff.mp h
    refine .node ((hsame id (t.within_refl id)).trans hnode) hlabel ?_
    refine List.forall₂_iff_get.mpr ⟨hterms.length_eq, fun i hi hc => ?_⟩
    have hchild : e.children.get ⟨i, hc⟩ ∈ t.children id := by
      rw [children_of_node? hnode]
      exact List.get_mem e.children ⟨i, hc⟩
    refine ih _ (List.get_mem terms ⟨i, hi⟩) (hterms.get hi hc) fun x hx => hsame x ?_
    exact (within_iff_exists_child ht).mpr (Or.inr ⟨_, hchild, hx⟩)

/-- The subtree stays the term when all nodes stay as they are. -/
theorem of_retains (h : t.Denotes term id) (htu : t.Retains u) : u.Denotes term id := by
  induction term using Term.induction generalizing id with
  | node label terms ih =>
    obtain ⟨e, hnode, hlabel, hterms⟩ := denotes_iff.mp h
    refine .node (htu _ _ hnode) hlabel (List.forall₂_iff_get.mpr ⟨hterms.length_eq, ?_⟩)
    exact fun i hi hc => ih _ (List.get_mem terms ⟨i, hi⟩) (hterms.get hi hc)

/-- An expression that is added over subtrees has their terms below it. -/
theorem append (h : List.Forall₂ t.Denotes terms e.children) (l : Location) :
    (t.append (.expression e) l).Denotes (.node e.label terms) t.size :=
  .node node?_append_self rfl (h.imp fun _ _ hc => hc.of_retains (retains_append t _ l))

end Denotes

end Tree

/-! ## Writing -/

/-- The name of a condition that is only named, and any other operand as it is. -/
def Written.conditionName : Written → Written
  | .tagged tag written =>
    if tag = ConditionName.reference.tag then written else .tagged tag written
  | written => written

/-- What stands under the tag of a function, given its written operands. -/
def FunctionName.writeOperands : FunctionName → List Written → Written
  | .base64, [operand] => operand
  | .getAzs, [operand] => operand
  | .importValue, [operand] => operand
  | .ref, [operand] => operand
  | .sub, [operand] => operand
  | .ifElse, condition :: operands => .sequence (condition.conditionName :: operands)
  | .transform, [name, parameters] => .mapping [("Name", name), ("Parameters", parameters)]
  | _, operands => .sequence operands

/-- What stands under the tag of an operator, given its written operands. -/
def ConditionName.writeOperands : ConditionName → List Written → Written
  | .reference, [name] => name
  | .existence, [name] => name
  | _, operands => .sequence operands

/-- A label over its written children. -/
def Label.write (children : List Written) : Label → Written
  | .literal l => l.write
  | .list => .sequence children
  | .object keys => .ofEntries (keys.zip children)
  | .call f => .tagged f.tag (f.writeOperands children)
  | .condition c => .tagged c.tag (c.writeOperands children)

namespace Term

mutual

/-- A term as it is written. -/
def written : Term → Written
  | .node label children => label.write (writtenAll children)
termination_by structural term => term

/-- Terms as they are written. -/
def writtenAll : List Term → List Written
  | [] => []
  | term :: terms => term.written :: writtenAll terms
termination_by structural terms => terms

end

/-- Several terms are written one by one. -/
theorem writtenAll_eq_map : ∀ terms : List Term, writtenAll terms = terms.map written
  | [] => rfl
  | term :: terms => congrArg (term.written :: ·) (writtenAll_eq_map terms)

/-- A term is written as its label over what the terms below are written as. -/
theorem written_node (label : Label) (children : List Term) :
    (node label children).written = label.write (children.map written) := by
  rw [written, writtenAll_eq_map]

end Term

/-- Only a named condition is written under the tag of one. -/
theorem Label.conditionName_write {label : Label} (h : label ≠ .condition .reference)
    (children : List Written) :
    (label.write children).conditionName = label.write children := by
  cases label with
  | literal literal =>
    rw [Label.write, Literal.write]
    split <;> rfl
  | list | object keys => rfl
  | call f => cases f <;> rfl
  | condition c =>
    cases c with
    | reference => exact (h rfl).elim
    | _ => rfl

namespace Tree

variable {t : Tree} {id : NodeId} {term : Term} {ids : List NodeId} {w : Written}
  {ws : List Written}

section Around

variable {write : NodeId → Except TreeError Written}

/-- Where each node is written, so are all. -/
theorem mapM_write (h : List.Forall₂ (fun w c => write c = .ok w) ws ids) :
    ids.mapM write = .ok ws := by
  induction h with
  | nil => rfl
  | cons hc hrest ih =>
    rw [List.mapM_cons, hc, ih]
    rfl

/-- Where each value of an object is written, so are its entries. -/
theorem mapM_writeEntries {entries : Entries}
    (h : List.Forall₂ (fun w c => write c = .ok w) ws (entries.map Prod.snd)) :
    (entries.mapM fun (key, value) => (key.text, ·) <$> write value)
      = .ok (entries.keys.zip ws) := by
  induction entries generalizing ws with
  | nil =>
    cases h
    rfl
  | cons entry entries ih =>
    obtain ⟨w, ws, hw, hws, rfl⟩ := List.forall₂_cons_right_iff.mp h
    rw [List.mapM_cons, ih hws]
    dsimp only
    rw [hw]
    rfl

/-- A call is written around its operands, and around the name of a condition that is only
named. -/
theorem writeOperand_eq {f : Call} (h : List.Forall₂
    (fun w c => write c = .ok w ∧ write (t.conditionName c) = .ok w.conditionName) ws f.operands) :
    t.writeOperand write f = .ok (f.name.writeOperands ws) := by
  have hall : f.operands.mapM write = .ok ws := mapM_write (h.imp fun _ _ hc => hc.1)
  cases f with
  | ifElse c a b =>
    obtain ⟨w, ws, hw, hws, rfl⟩ := List.forall₂_cons_right_iff.mp h
    have hoperands : [t.conditionName c, a, b].mapM write = .ok (w.conditionName :: ws) :=
      mapM_write (.cons hw.2 (hws.imp fun _ _ hc => hc.1))
    rw [writeOperand, hoperands]
    rfl
  | base64 | getAzs | importValue | ref =>
    obtain ⟨w, ws, hw, hws, rfl⟩ := List.forall₂_cons_right_iff.mp h
    cases hws
    exact hw.1
  | sub format parameters =>
    obtain ⟨w, ws, hw, hws, rfl⟩ := List.forall₂_cons_right_iff.mp h
    cases parameters with
    | none =>
      cases hws
      exact hw.1
    | some parameters =>
      obtain ⟨w', ws, -, hws, rfl⟩ := List.forall₂_cons_right_iff.mp hws
      cases hws
      exact congrArg (Written.sequence <$> ·) hall
  | transform a b =>
    obtain ⟨name, ws, hname, hws, rfl⟩ := List.forall₂_cons_right_iff.mp h
    obtain ⟨parameters, ws, hparameters, hnil, rfl⟩ := List.forall₂_cons_right_iff.mp hws
    obtain rfl := List.forall₂_nil_right_iff.mp hnil
    rw [writeOperand, hname.1, hparameters.1]
    rfl
  | _ => exact congrArg (Written.sequence <$> ·) hall

/-- A condition is written around its operands. -/
theorem writeConditionOperand_eq {c : Condition}
    (h : List.Forall₂ (fun w c => write c = .ok w) ws c.operands) :
    writeConditionOperand write c = .ok (c.name.writeOperands ws) := by
  have hall : c.operands.mapM write = .ok ws := mapM_write h
  cases c with
  | reference name target | existence name target =>
    obtain ⟨w, ws, hw, hws, rfl⟩ := List.forall₂_cons_right_iff.mp h
    cases hws
    exact hw
  | _ =>
    rw [writeConditionOperand, hall]
    · rfl
    all_goals simp

end Around

/-- The subtree at a node is written as its term. -/
theorem Denotes.write_eq (ht : t.Sound) (h : t.Denotes term id) :
    t.write id = .ok term.written := by
  -- `!If` writes the name of its condition alone, so that both are followed downwards.
  suffices t.write id = .ok term.written ∧
      t.write (t.conditionName id) = .ok term.written.conditionName from this.1
  induction term using Term.induction generalizing id with
  | node label terms ih =>
    obtain ⟨e, hnode, rfl, hterms⟩ := denotes_iff.mp h
    have hexpression : t.expression? id = some e := by
      rw [expression?, hnode]
      rfl
    have hboth : List.Forall₂ (fun w c => t.write c = .ok w ∧
        t.write (t.conditionName c) = .ok w.conditionName) (terms.map Term.written) e.children := by
      refine List.forall₂_map_left_iff.mpr (List.forall₂_iff_get.mpr ⟨hterms.length_eq, ?_⟩)
      exact fun i hi hc => ih _ (List.get_mem terms ⟨i, hi⟩) (hterms.get hi hc)
    have hall := hboth.imp fun _ _ hc => hc.1
    have hself : t.write id = .ok (e.label.write (terms.map Term.written)) := by
      rw [ht.write_eq hnode, writeNode]
      cases e with
      | literal literal => rfl
      | list items => exact congrArg (Written.sequence <$> ·) (mapM_write hall)
      | object entries => exact congrArg (Written.ofEntries <$> ·) (mapM_writeEntries hall)
      | call f => exact congrArg (Written.tagged f.name.tag <$> ·) (writeOperand_eq hboth)
      | condition c =>
        exact congrArg (Written.tagged c.name.tag <$> ·) (writeConditionOperand_eq hall)
    rw [Term.written_node]
    refine ⟨hself, ?_⟩
    -- Only a reference to a condition is left for its name.
    have hsame (hlabel : e.label ≠ .condition .reference)
        (hname : t.conditionName id = id) : t.write (t.conditionName id)
          = .ok (e.label.write (terms.map Term.written)).conditionName := by
      rw [Label.conditionName_write hlabel, ← hself, hname]
    cases e with
    | condition c =>
      cases c with
      | reference name target =>
        obtain ⟨w, ws, hname, hws, hterms⟩ := List.forall₂_cons_right_iff.mp hall
        obtain rfl := List.forall₂_nil_right_iff.mp hws
        rw [hterms, conditionName, hexpression]
        exact hname
      | _ =>
        exact hsame (by simp [Expression.label, Condition.name])
          (by rw [conditionName, hexpression])
    | _ => exact hsame (by simp [Expression.label]) (by rw [conditionName, hexpression])

end Tree

end InfraModule
