import InfraModule.Proofs.Tree.Image
import InfraModule.Proofs.Tree.Reachable

/-!
# Copies are faithful

A copied subtree differs from the original in the ids of its nodes only (`Tree.Copies`): the copies
are new, one for each node, and the copy of a node is that node with its children renamed, on the
same span of the document, bound to the same target, and owned by the copy of its owner. What is
written back for a node does not depend on ids, so that a copy of expressions is written back as the
original is.
-/

namespace InfraModule

open Result

variable {t u : Tree} {root copy : NodeId} {P : NodeId → Prop} {f : NodeId → NodeId} {k : Nat}

namespace Tree

/-- The subtree at `copy` in `u` consists of what was created since `t`, and is that at `root` in
`t` but for the ids: `f` takes each node to its copy. -/
structure Copies (t u : Tree) (f : NodeId → NodeId) (root copy : NodeId) : Prop where
  /-- The root is copied to the root of the copy. -/
  map_root : f root = copy
  /-- The copy is attached to nothing. -/
  unattached : u.parent? copy = none
  /-- The nodes of the copy are those that are new. -/
  new : ∀ y, u.Within copy y ↔ t.size ≤ y ∧ y < u.size
  /-- They are the copies of the nodes of the subtree. -/
  onto : ∀ y, u.Within copy y ↔ ∃ x, t.Within root x ∧ f x = y
  /-- Different nodes have different copies. -/
  injective : ∀ x y, t.Within root x → t.Within root y → f x = f y → x = y
  /-- A node is copied but for the ids of its children. -/
  node : ∀ x n, t.Within root x → t.node? x = some n → u.node? (f x) = some (n.mapChildren f)
  /-- The copies of the children stand in their order. -/
  children : ∀ x, t.Within root x → u.children (f x) = (t.children x).map f
  /-- A reference keeps its target. -/
  target : ∀ x, t.Within root x → u.target? (f x) = t.target? x
  /-- A copy stands for the same span of the document. -/
  location : ∀ x, t.Within root x → u.location? (f x) = t.location? x
  /-- The copy of a child is owned by the copy of its owner. -/
  parent : ∀ x p, t.Within root x → x ≠ root → t.parent? x = some p → u.parent? (f x) = some (f p)

namespace Images

/-- The image of a node is that node with its children renamed to their images. -/
theorem node_image (h : t.Images u k P f) {x : NodeId} {n : Node} (hx : P x)
    (hn : t.node? x = some n) : u.node? (f x) = some (n.mapChildren f) := by
  rw [h.node x hx, hn]
  rfl

/-- The children of an image are the images of the children. -/
theorem children_image (h : t.Images u k P f) {x : NodeId} (hx : P x) :
    u.children (f x) = (t.children x).map f := by
  rw [children, h.node x hx, children]
  cases t.node? x with
  | none => rfl
  | some n => exact n.children_mapChildren

/-- An image has the same target. -/
theorem target_image (h : t.Images u k P f) {x : NodeId} (hx : P x) :
    u.target? (f x) = t.target? x := by
  rw [target?, h.node x hx, target?]
  cases t.node? x with
  | none => rfl
  | some n => exact n.target_mapChildren

/-- The image of an owner owns the images of its children. -/
theorem parent_image (h : t.Images u k P f) (ht : t.Sound) (hu : u.Sound) {x p : NodeId} (hp : P p)
    (hx : t.parent? x = some p) : u.parent? (f x) = some (f p) := by
  rw [← hu.owner, h.children_image hp]
  exact List.mem_map_of_mem (ht.owner.mpr hx)

/-- What is an image of a subtree is a copy of it. -/
theorem copies (h : t.Images u t.size (t.Within root) f) (ht : t.Sound) (hu : u.Sound)
    (htu : t.Extends u) (hroot : u.parent? (f root) = none) : t.Copies u f root (f root) := by
  have howner {x p : NodeId} (hx : t.Within root x) (hne : x ≠ root) (hp : t.parent? x = some p) :
      u.parent? (f x) = some (f p) := by
    have hwithin := ((within_iff_of_parent? ht hp).mp hx).resolve_left (Ne.symm hne)
    exact h.parent_image ht hu hwithin hp
  -- The owners of an image are images, up to that of the root.
  have himage (x : NodeId) (hx : t.Within root x) : u.Within (f root) (f x) := by
    induction x using ht.finite.induction with
    | _ x ih =>
      by_cases hne : x = root
      · rw [hne]
        exact within_refl u (f root)
      · cases hp : t.parent? x with
        | none => exact (hne ((within_iff_of_root ht hp).mp hx).symm).elim
        | some p =>
          have hwithin := ((within_iff_of_parent? ht hp).mp hx).resolve_left (Ne.symm hne)
          exact (within_iff_of_parent? hu (howner hx hne hp)).mpr (Or.inr (ih p hp hwithin))
  have hnewRoot := h.le_image (within_refl t root)
  -- What was there before is owned by what was there before.
  have hold (y : NodeId) (hy : u.Within (f root) y) : t.size ≤ y ∧ y < u.size := by
    induction y using hu.finite.induction with
    | _ y ih =>
      cases hp : u.parent? y with
      | none =>
        rw [← (within_iff_of_root hu hp).mp hy]
        exact hnewRoot
      | some p =>
        refine ⟨?_, lt_size_of_parent? hp⟩
        rcases (within_iff_of_parent? hu hp).mp hy with rfl | hwithin
        · exact hnewRoot.1
        · refine Nat.le_of_not_lt fun hlt => ?_
          rw [htu.parent y hlt] at hp
          exact Nat.not_lt.mpr (ih p (htu.parent y hlt ▸ hp) hwithin).1 (ht.lt_size_of_owner hp)
  have hnew (y : NodeId) : u.Within (f root) y ↔ t.size ≤ y ∧ y < u.size := by
    refine ⟨hold y, fun hy => ?_⟩
    obtain ⟨x, hx, rfl⟩ := (h.onto y).mpr hy
    exact himage x hx
  exact {
    map_root := rfl
    unattached := hroot
    new := hnew
    onto := fun y => (hnew y).trans (h.onto y).symm
    injective := h.injective
    node := fun x n => h.node_image
    children := fun x => h.children_image
    target := fun x => h.target_image
    location := h.location
    parent := fun x p => howner }

end Images

/-! ## Writing -/

section Write

variable {write write' : NodeId → Except TreeError Written}

/-- Several renamed nodes are written as the nodes are, if each of them is. -/
theorem mapM_write_map {ids : List NodeId} (h : ∀ c ∈ ids, write' (f c) = write c) :
    (ids.map f).mapM write' = ids.mapM write := by
  rw [List.mapM_map]
  exact mapM_congr h

/-- What is written for a call with its operands renamed. -/
theorem writeOperand_map {c : Call} (h : ∀ a ∈ c.operands,
    write' (f a) = write a ∧ write' (u.conditionName (f a)) = write (t.conditionName a)) :
    u.writeOperand write' (c.mapOperands f) = t.writeOperand write c := by
  have hall : (c.mapOperands f).operands.mapM write' = c.operands.mapM write := by
    rw [c.operands_mapOperands]
    exact mapM_write_map fun a ha => (h a ha).1
  cases c with
  | base64 a | getAzs a | importValue a | ref a target =>
    exact (h a (by simp [Call.operands])).1
  | cidr a b d | findInMap a b d => exact congrArg (Written.sequence <$> ·) hall
  | getAtt a b target => exact congrArg (Written.sequence <$> ·) hall
  | join a b | select a b | split a b => exact congrArg (Written.sequence <$> ·) hall
  | sub a parameters =>
    cases parameters with
    | none => exact (h a (by simp [Call.operands])).1
    | some b => exact congrArg (Written.sequence <$> ·) hall
  | ifElse d a b =>
    -- The condition is written as its name, if it has one.
    have hd := (h d (by simp [Call.operands])).2
    have ha := (h a (by simp [Call.operands])).1
    have hb := (h b (by simp [Call.operands])).1
    simp only [Call.mapOperands, writeOperand, List.mapM_cons, List.mapM_nil, hd, ha, hb]
  | transform a b =>
    have ha := (h a (by simp [Call.operands])).1
    have hb := (h b (by simp [Call.operands])).1
    simp only [Call.mapOperands, writeOperand, ha, hb]

/-- A renamed operand that is a condition is written as the operand is. -/
theorem writeConditionOperand_map {c : Condition} (h : ∀ a ∈ c.operands, write' (f a) = write a) :
    writeConditionOperand write' (c.mapOperands f) = writeConditionOperand write c := by
  have hall : (c.mapOperands f).operands.mapM write' = c.operands.mapM write := by
    rw [c.operands_mapOperands]
    exact mapM_write_map h
  cases c with
  | reference name target | existence name target => exact h name (by simp [Condition.operands])
  | _ => exact congrArg (Written.sequence <$> ·) hall

/-- What is written for a node that is no declaration does not depend on its id or those of its
children. -/
theorem writeNode_map {n : Node} {id id' : NodeId} (hn : ∀ d, n ≠ .declaration d)
    (h : ∀ c ∈ n.children,
      write' (f c) = write c ∧ write' (u.conditionName (f c)) = write (t.conditionName c)) :
    u.writeNode write' id' (n.mapChildren f) = t.writeNode write id n := by
  have hchildren (c : NodeId) (hc : c ∈ n.children) : write' (f c) = write c := (h c hc).1
  cases n with
  | declaration d => exact (hn d rfl).elim
  | collection items => exact congrArg (Written.sequence <$> ·) (mapM_write_map hchildren)
  | expression e =>
    cases e with
    | literal l => rfl
    | list items => exact congrArg (Written.sequence <$> ·) (mapM_write_map hchildren)
    | object entries =>
      refine congrArg (Written.ofEntries <$> ·) ?_
      rw [List.mapM_map]
      refine mapM_congr fun entry hentry => ?_
      exact congrArg ((entry.1.text, ·) <$> ·) (hchildren entry.2 (List.mem_map_of_mem hentry))
    | call c =>
      change Written.tagged (c.mapOperands f).name.tag <$> u.writeOperand write' (c.mapOperands f)
        = Written.tagged c.name.tag <$> t.writeOperand write c
      rw [c.name_mapOperands, writeOperand_map h]
    | condition c =>
      change Written.tagged (c.mapOperands f).name.tag
          <$> writeConditionOperand write' (c.mapOperands f)
        = Written.tagged c.name.tag <$> writeConditionOperand write c
      rw [c.name_mapOperands, writeConditionOperand_map hchildren]

/-- Nodes of `t` stand in `u` with their children renamed. -/
def Renamed (t u : Tree) (P : NodeId → Prop) (f : NodeId → NodeId) : Prop :=
  ∀ x, P x → u.node? (f x) = (t.node? x).map (Node.mapChildren f)

/-- Nodes that were there stand there under their own names. -/
theorem Extends.renamed (h : t.Extends u) : t.Renamed u (· < t.size) id := by
  intro x hx
  rw [id, h.node x hx]
  cases t.node? x with
  | none => rfl
  | some n => exact congrArg some n.mapChildren_id.symm

namespace Renamed

/-- A renamed expression is the expression with its children renamed. -/
theorem expression? (h : t.Renamed u P f) {x : NodeId} (hx : P x) :
    u.expression? (f x) = (t.expression? x).map (Expression.mapChildren f) := by
  rw [Tree.expression?, h x hx, Tree.expression?]
  cases t.node? x with
  | none => rfl
  | some n => cases n <;> rfl

/-- A condition that is only named has its name renamed. -/
theorem conditionName (h : t.Renamed u P f) {x : NodeId} (hx : P x) :
    u.conditionName (f x) = f (t.conditionName x) := by
  unfold Tree.conditionName
  rw [h.expression? hx]
  cases t.expression? x with
  | none => rfl
  | some e =>
    cases e with
    | condition c => cases c <;> rfl
    | _ => rfl

/-- Where no declaration lies in a subtree, its nodes are written as they are under other names. -/
theorem write_eq (h : t.Renamed u P f) (ht : t.Sound) (hu : u.Sound) (hdown : t.Downward P)
    {root : NodeId} (hroot : P root) (hlt : root < t.size)
    (hdeclaration : ∀ x d, t.Within root x → t.node? x ≠ some (.declaration d)) {x : NodeId}
    (hx : t.Within root x) : u.write (f x) = t.write x := by
  induction root using ht.finite_children.induction generalizing x with
  | _ root ih =>
    have hbelow (c : NodeId) (hc : c ∈ t.children root) {x : NodeId} (hx : t.Within c x) :
        u.write (f x) = t.write x := by
      refine ih c hc (hdown root hroot c hc) (ht.lt_size_of_child hc) (fun y d hy => ?_) hx
      exact hdeclaration y d ((within_iff_exists_child ht).mpr (Or.inr ⟨c, hc, hy⟩))
    rcases (within_iff_exists_child ht).mp hx with rfl | ⟨c, hc, hx⟩
    · obtain ⟨n, hn⟩ := node?_eq_some_iff_lt.mpr hlt
      have hrenamed : u.node? (f x) = some (n.mapChildren f) := by
        rw [h x hroot, hn]
        rfl
      rw [ht.write_eq hn, hu.write_eq hrenamed]
      refine writeNode_map (fun d hd => ?_) fun c hc => ?_
      · exact hdeclaration x d hx (hd ▸ hn)
      · rw [← children_of_node? hn] at hc
        rw [h.conditionName (hdown x hroot c hc)]
        refine ⟨hbelow c hc (within_refl t c), hbelow c hc ?_⟩
        -- The name of a condition is the condition or its child.
        rcases t.conditionName_eq_or c with heq | hmem
        · rw [heq]
          exact within_refl t c
        · exact (within_iff_exists_child ht).mpr (Or.inr ⟨_, hmem, within_refl t _⟩)
    · exact hbelow c hc hx

end Renamed

end Write

end Tree

/-- A node that exists is copied faithfully with its subtree, which is not changed. The copy is
written back as the original is, and so is the original afterwards, unless a declaration lies below
it. -/
theorem TreeM.copySubtree_faithful (ht : t.Sound) (hroot : root < t.size) :
    ∃ copy u f, TreeM.copySubtree root t = .ok copy u ∧ u.Sound ∧ t.Extends u ∧
      t.Copies u f root copy ∧
      ((∀ x d, t.Within root x → t.node? x ≠ some (.declaration d)) →
        u.write copy = t.write root ∧ u.write root = t.write root) := by
  obtain ⟨copy, u, hok, hu, htu, hnew⟩ := TreeM.copySubtree_ok ht hroot
  obtain ⟨f, rfl, himages⟩ :=
    TreeM.images_copyWithin ht hroot (ht.fits hroot) ht (Tree.Extends.refl t) hok
  have hrootless := (hnew.root (f root) List.mem_cons_self).2
  refine ⟨f root, u, f, hok, hu, htu, himages.copies ht hu htu hrootless, fun hdeclaration => ?_⟩
  have hself := Tree.within_refl t root
  refine ⟨?copy, ?original⟩
  case copy =>
    have hrenamed : t.Renamed u (t.Within root) f := himages.node
    exact hrenamed.write_eq ht hu (ht.downward_within root) hself hroot hdeclaration hself
  case original =>
    have hdown : t.Downward (· < t.size) := fun x _ c hc => ht.lt_size_of_child hc
    exact htu.renamed.write_eq ht hu hdown hroot hroot hdeclaration hself

end InfraModule
