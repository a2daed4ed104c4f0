import InfraModule.Proofs.Tree.Growth

/-!
# Steps that make nodes

A step of building in a sound tree never misuses the tree (`Succeeds`). A step that may give a node
makes it as a new root of a demanded form (`Gives`); roots that were made before wait unchanged
until a node is added over them (`succeeds_addNode`).
-/

namespace InfraModule

open Result

/-- From `t` a new root was made that satisfies `P`, unless no node was given. -/
structure Build.Gave (t : Tree) (P : Tree → NodeId → Prop) (given : Option NodeId) (b : Build) :
    Prop where
  /-- The node given is a new root. -/
  made : t.Made b.tree given.toList
  /-- The node given is as demanded. -/
  form : ∀ id ∈ given, P b.tree id

/-- What is given satisfies whatever follows from the demand. -/
theorem Build.Gave.imp {t : Tree} {P Q : Tree → NodeId → Prop} {given : Option NodeId} {b : Build}
    (h : b.Gave t P given) (hPQ : ∀ id, P b.tree id → Q b.tree id) : b.Gave t Q given :=
  ⟨h.made, fun id hid => hPQ id (h.form id hid)⟩

namespace BuildM

variable {α β : Type} {b : Build} {t : Tree} {ids : List NodeId} {message text : String}
  {l : Location} {P Q : Tree → NodeId → Prop}

/-- The step succeeds, and `Q` holds after it. -/
abbrev Succeeds (m : BuildM α) (b : Build) (Q : α → Build → Prop) : Prop :=
  Post m b Q fun _ _ => False

/-- A step that succeeds with some result succeeds with a weaker one. -/
theorem Succeeds.mono {m : BuildM α} {Q Q' : α → Build → Prop} (h : Succeeds m b Q)
    (hQ : ∀ a b, Q a b → Q' a b) : Succeeds m b Q' :=
  Post.mono h hQ fun _ _ h => h

/-- Two steps succeed one after the other if the second does after whatever the first gives. -/
theorem succeeds_bind {m : BuildM α} {f : α → BuildM β} {Q : α → Build → Prop}
    {R : β → Build → Prop} (hm : Succeeds m b Q)
    (hf : ∀ a b, Q a b → Succeeds (f a) b R) : Succeeds (m >>= f) b R :=
  post_bind.mpr (Succeeds.mono hm hf)

/-- To return a value builds and reports nothing. -/
@[simp] theorem post_pure {a : α} {Q : α → Build → Prop} {E : TreeError → Build → Prop} :
    Post (pure a : BuildM α) b Q E ↔ Q a b := Iff.rfl

/-- A report is recorded as an error, and the tree stays. -/
@[simp] theorem post_report {Q : Unit → Build → Prop} {E : TreeError → Build → Prop} :
    Post (report message l) b Q E ↔
      Q () { b with diagnostics := b.diagnostics.error message l } := Iff.rfl

/-- A step on the tree changes nothing but the tree. -/
theorem post_onTree {operation : TreeM α} {Q : α → Build → Prop} {E : TreeError → Build → Prop} :
    Post (onTree operation) b Q E ↔
      Post operation b.tree (fun a u => Q a { b with tree := u })
        (fun e u => E e { b with tree := u }) := by
  obtain ⟨tree, diagnostics⟩ := b
  unfold Post onTree
  dsimp only
  cases operation tree <;> rfl

/-- Started in a sound tree, the step makes a new root as demanded, or gives no node. -/
def Gives (m : BuildM (Option NodeId)) (P : Tree → NodeId → Prop) : Prop :=
  ∀ b, b.tree.Sound → Succeeds m b fun given b' => b'.Gave b.tree P given

/-- A node is added over the first of the roots that were made. -/
theorem succeeds_addNode {n : Node} (h : t.Made b.tree (n.children ++ ids))
    (htarget : n.target = none) (htyped : b.tree.WellTyped n) (l : Location) :
    Succeeds (onTree (.add n l)) b fun id b' => t.Made b'.tree (id :: ids) ∧
      b.tree.Retains b'.tree ∧ b.tree.node? id = none ∧ b'.tree.node? id = some n := by
  rw [Succeeds, post_onTree, post_of_ok (h.add htarget htyped l)]
  exact ⟨h.append htarget htyped, b.tree.retains_append n l,
    Tree.node?_eq_none_iff.mpr (Nat.le_refl _), Tree.node?_append_self⟩

end BuildM

end InfraModule
