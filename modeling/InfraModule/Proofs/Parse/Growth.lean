import InfraModule.Proofs.Parse.Extent
import InfraModule.Proofs.Resolve.Condition

/-!
# What readers build

A reader makes the node that it returns as a new root of the form that is demanded (`Yields`). It
never misuses the tree, and what it has built when it fails is typed as well (`Fails`). Many readers
only read or skip and leave the tree as it is (`Spares`).

The loops over containers are treated with an invariant of the tree. That they take their turns is
known from the extent of what their steps take.
-/

namespace InfraModule

open ParseState

namespace ParseM

variable {α β : Type} {setting : Setting} {s u : ParseState} {t : Tree} {ids : List NodeId}
  {container : Container} {P Q : Tree → NodeId → Prop}

/-- The failure is no misuse of the tree, and what has been built is typed. -/
structure Fails (t : Tree) (error : ParseError) (s : ParseState) : Prop where
  /-- The tree has grown from `t`. -/
  grown : t.Grown s.build.tree
  /-- The failure lies in the events. -/
  error : ∀ te, error ≠ .tree te

/-- The reader leaves the tree as it is. -/
def Spares (m : ParseM α) : Prop :=
  ∀ setting s, Post m setting s (fun _ u => u.build.tree = s.build.tree)
    fun error u => u.build.tree = s.build.tree ∧ ∀ te, error ≠ .tree te

/-- Started in a sound tree, the reader makes a new root as demanded, or returns no node. -/
def Yields (m : ParseM (Option NodeId)) (P : Tree → NodeId → Prop) : Prop :=
  ∀ setting s, s.build.tree.Sound → Post m setting s
    (fun given u => u.build.Gave s.build.tree P given) fun error u => Fails s.build.tree error u

/-! ## Readers that leave the tree as it is -/

namespace Spares

/-- To return a value leaves the tree as it is. -/
theorem pure (a : α) : Spares (Pure.pure a : ParseM α) := fun _ _ => rfl

/-- Two readers in a row that leave the tree as it is leave it so together. -/
theorem bind {m : ParseM α} {f : α → ParseM β} (hm : Spares m) (hf : ∀ a, Spares (f a)) :
    Spares (m >>= f) := by
  intro setting s
  refine (hm setting s).bind fun a u hu => ?_
  refine (hf a setting u).mono (fun _ v hv => hv.trans hu) fun _ v hv => ?_
  exact ⟨hv.1.trans hu, hv.2⟩

/-- What a function makes of the result leaves the tree as it is. -/
theorem map {m : ParseM α} (g : α → β) (hm : Spares m) : Spares (g <$> m) := by
  intro setting s
  rw [post_map]
  exact hm setting s

/-- To look at the state leaves the tree as it is. -/
theorem get : Spares (MonadState.get : ParseM ParseState) := fun _ _ => rfl

/-- To look at the setting leaves the tree as it is. -/
theorem read : Spares (MonadReader.read : ParseM Setting) := fun _ _ => rfl

/-- To count the levels that are left leaves the tree as it is. -/
theorem levels : Spares levels := fun _ _ => rfl

/-- To move on by an event leaves the tree as it is. -/
theorem advance : Spares advance := fun _ _ => rfl

/-- To report leaves the tree as it is. -/
theorem report (message : String) (l : Location) : Spares (report message l) := fun _ _ => rfl

/-- To look at the event at the cursor leaves the tree as it is. -/
theorem current : Spares current := by
  intro setting s
  rcases s.nil_or_cons with hs | ⟨e, es, hs⟩
  · exact (post_current_of_nil hs).mpr ⟨rfl, by simp⟩
  · exact (post_current hs).mpr rfl

/-- To tell the place leaves the tree as it is. -/
theorem here : Spares here :=
  current.bind fun _ => read.bind fun _ => pure _

/-- Skipping leaves the tree as it is. -/
theorem skip : Spares skip := by
  intro setting s
  rw [post_skip]
  split
  · rfl
  · exact ⟨rfl, by simp⟩

/-- To refuse a value leaves the tree as it is. -/
theorem refuse (message : String) : Spares (refuse message : ParseM (Option α)) :=
  here.bind fun l => (report message l).bind fun _ => skip.bind fun _ => pure none

/-- To pass over a value that is too deep leaves the tree as it is. -/
theorem tooDeep : Spares (tooDeep : ParseM (Option α)) :=
  refuse _

/-- To take the end of a container leaves the tree as it is. -/
theorem closeFrom (start : Location) : Spares (closeFrom start) :=
  here.bind fun _ => advance.bind fun _ => pure _

/-- Nesting leaves the tree as it is if what is nested does. -/
theorem nested {body : ParseM α} (hbody : Spares body) : Spares (nested body) := by
  intro setting s
  rw [post_nested]
  exact hbody setting _

/-- The reader does as little to a tree that has been built before. -/
theorem after {m : ParseM α} (hm : Spares m) (h : t.Grown s.build.tree) :
    Post m setting s (fun _ u => u.build.tree = s.build.tree) (Fails t) := by
  refine (hm setting s).mono_error fun _ u hu => ?_
  exact ⟨hu.1 ▸ h, hu.2⟩

end Spares

/-! ## Loops over containers -/

/-- A loop keeps an invariant of its steps, where `I none` holds if a step gives up. -/
theorem post_foldUntilClose_of_turns {σ : Type} {step : σ → ParseM (Option σ)}
    {I : Option σ → ParseState → Prop} {E : ParseError → ParseState → Prop} {G : Prop}
    (hturns : ∀ acc s, Post (step acc) setting s
      (fun r u => s.Turns container u ∧ (r = none → G))
      fun error _ => s.ExcusesElement container error)
    (hstep : ∀ acc s, I (some acc) s → Post (step acc) setting s I E)
    (hstuck : ∀ acc s, I (some acc) s → ∀ error, (∀ te, error ≠ .tree te) → E error s) (acc : σ)
    (hI : I (some acc) s) : Post (foldUntilClose container step acc) setting s I E := by
  refine Result.Post.mono (post_foldUntilClose (I := fun acc u => I (some acc) u)
    (G := fun u => I none u) (E := E) (fun acc u hu hvalue => ?step)
    (fun acc u hu _ _ error herror _ => hstuck acc u hu error herror) acc hI)
    (fun r u hu => ?_) fun _ _ h => h
  case step =>
    refine ((hturns acc u).and (hstep acc u hu)).mono (fun r v hv => ?_) fun _ _ h => h.2
    -- The turn has taken an event, which is what the loop needs.
    obtain ⟨⟨hturn, -⟩, hv⟩ := hv
    cases r with
    | some acc' => exact Or.inl ⟨acc', rfl, hv, hturn.length_lt hvalue⟩
    | none => exact Or.inr ⟨rfl, hv⟩
  rcases hu with ⟨acc', rfl, hu, -⟩ | ⟨rfl, hu⟩
  · exact hu
  · exact hu

/-- A loop leaves the tree as it is if each of its turns does. -/
theorem Spares.foldUntilClose {σ : Type} {step : σ → ParseM (Option σ)} {G : Prop}
    (hturns : ∀ setting acc s, Post (step acc) setting s
      (fun r u => s.Turns container u ∧ (r = none → G))
      fun error _ => s.ExcusesElement container error)
    (hstep : ∀ acc, Spares (step acc)) (acc : σ) :
    Spares (foldUntilClose container step acc) := by
  intro setting s
  refine post_foldUntilClose_of_turns (I := fun _ u => u.build.tree = s.build.tree)
    (hturns setting) (fun acc u hu => ?_) (fun _ u hu error herror => ⟨hu, herror⟩) acc rfl
  refine (hstep acc setting u).mono (fun _ v hv => hv.trans hu) fun _ v hv => ?_
  exact ⟨hv.1.trans hu, hv.2⟩

/-! ## Readers that build -/

/-- A step of building that never misuses the tree. -/
theorem post_build_of_succeeds {step : BuildM α} {R : α → Build → Prop}
    {E : ParseError → ParseState → Prop} (h : BuildM.Succeeds step s.build R) :
    Post (build step) setting s (fun a u => R a u.build) E := by
  rw [post_build]
  exact Result.Post.mono h (fun _ _ h => h) fun _ _ h => h.elim

/-- A node is added over the first of the roots that were made. -/
theorem post_add {n : Node} {E : ParseError → ParseState → Prop}
    (h : t.Made s.build.tree (n.children ++ ids)) (htarget : n.target = none)
    (htyped : s.build.tree.WellTyped n) (l : Location) :
    Post (add n l) setting s (fun id u => t.Made u.build.tree (id :: ids) ∧
      s.build.tree.Retains u.build.tree ∧ s.build.tree.node? id = none ∧
        u.build.tree.node? id = some n) E :=
  post_build_of_succeeds (BuildM.succeeds_addNode h htarget htyped l)

/-- A node without children is added beside the roots that were made. -/
theorem post_add_leaf {n : Node} {E : ParseError → ParseState → Prop}
    (h : t.Made s.build.tree ids) (hchildren : n.children = []) (htarget : n.target = none)
    (htyped : s.build.tree.WellTyped n) (l : Location) :
    Post (add n l) setting s (fun id u => t.Made u.build.tree (ids ++ [id]) ∧
      s.build.tree.Extends u.build.tree ∧ u.build.tree.node? id = some n) E := by
  have hself : s.build.tree.Made s.build.tree (n.children ++ []) := by
    rw [hchildren]
    exact (Tree.Grown.refl h.sound).made
  refine Result.Post.mono (post_add hself htarget htyped l) (fun id u hu => ?_) fun _ _ h => h
  obtain ⟨hmade, -, -, hnode⟩ := hu
  exact ⟨h.trans hmade, hmade.toExtends, hnode⟩

namespace Yields

/-- A reader that makes a node as demanded makes one as anything weaker demands. -/
theorem imp {m : ParseM (Option NodeId)} (hm : Yields m P) (h : ∀ t id, P t id → Q t id) :
    Yields m Q := fun setting s hs =>
  (hm setting s hs).mono (fun _ _ hu => hu.imp (h _)) fun _ _ h => h

/-- Roots that were made before are still there afterwards, as they were. -/
theorem after {m : ParseM (Option NodeId)} (hm : Yields m P) (h : t.Made s.build.tree ids) :
    Post m setting s (fun given u => t.Made u.build.tree (ids ++ given.toList) ∧
      s.build.tree.Keeps u.build.tree ∧ ∀ id ∈ given, P u.build.tree id) (Fails t) :=
  (hm setting s h.sound).mono
    (fun _ _ hu => ⟨h.trans hu.made, hu.made.keeps, hu.form⟩)
    fun _ _ hu => ⟨h.toGrown.trans hu.grown, hu.error⟩

/-- A reader that leaves the tree as it is may come first. -/
theorem bind_spares {m : ParseM α} {f : α → ParseM (Option NodeId)} (hm : Spares m)
    (hf : ∀ a, Yields (f a) P) : Yields (m >>= f) P := by
  intro setting s hs
  refine (hm.after (Tree.Grown.refl hs)).bind fun a u hu => ?_
  rw [← hu] at hs ⊢
  exact hf a setting u hs

/-- A reader makes what its building step gives. -/
theorem build {step : BuildM (Option NodeId)} (h : BuildM.Gives step P) :
    Yields (build step) P := fun _ s hs =>
  post_build_of_succeeds (h s.build hs)

/-- A reader that returns no node makes what is demanded. -/
theorem pure_none : Yields (pure none) P := fun _ _ hs =>
  ⟨(Tree.Grown.refl hs).made, by simp⟩

/-- To refuse a value makes what is demanded, which is nothing. -/
theorem refuse (message : String) : Yields (refuse message) P :=
  bind_spares Spares.here fun l => bind_spares (Spares.report message l) fun _ =>
    bind_spares Spares.skip fun _ => pure_none

/-- To pass over a value that is too deep makes what is demanded, which is nothing. -/
theorem tooDeep : Yields tooDeep P :=
  refuse _

end Yields

/-- What is made for the elements of a sequence is collected in order. -/
theorem post_collect {item : ParseM (Option NodeId)} (htakes : Takes item) (hitem : Yields item P)
    (hP : ∀ {t u : Tree} {id : NodeId}, t.Keeps u → P t id → P u id)
    (h : t.Made s.build.tree []) : Post (collect .sequence item) setting s
      (fun items u => t.Made u.build.tree items ∧ ∀ id ∈ items, P u.build.tree id) (Fails t) := by
  unfold collect
  refine Post.bind (post_foldUntilClose_of_turns (G := False)
    (I := fun items u => t.Made u.build.tree (items.getD []) ∧
      ∀ id ∈ items.getD [], P u.build.tree id)
    (fun items u => ?_) (fun items u hu => ?_)
    (fun items u hu error herror => ⟨hu.1.toGrown, herror⟩) [] ⟨h, by simp⟩) fun r u hu => hu
  · exact (htakes setting u).bind fun r v hv => ⟨hv, by simp⟩
  · refine (hitem.after hu.1).bind fun given v hv => ?_
    obtain ⟨hmade, hkeeps, hgiven⟩ := hv
    refine ⟨hmade, fun id hid => ?_⟩
    -- Items made before keep their forms.
    rcases List.mem_append.mp hid with hid | hid
    · exact hP hkeeps (hu.2 id hid)
    · exact hgiven id (by simpa using hid)

end ParseM

end InfraModule
