import InfraModule.Proofs.Parse.Session
import InfraModule.Proofs.Tree.Binding

/-!
# What parsing adds to a tree

A parser and a resolver only add to a tree. Whatever they read, and whether or not they fail, what
was there before stays as it was, and a node that they give is the root of a subtree of which they
made every node (`Tree.Appended`). They never misuse the tree: no mistake in a document is an error
of the tree, and neither is binding the references of what was read.
-/

namespace InfraModule

open ParseM Result BuildM

namespace Tree

variable {t u : Tree} {given : Option NodeId}

/-- Nodes were only added, and a node that is given, if one is, is the unattached root of added
nodes. -/
structure Appended (t u : Tree) (given : Option NodeId) : Prop extends t.Extends u where
  /-- The node given has no owner. -/
  root : ∀ id ∈ given, id < u.size ∧ u.parent? id = none
  /-- The subtree of the node given is new. -/
  new : ∀ id ∈ given, ∀ x, u.Within id x → t.size ≤ x

/-- A tree to which nothing was added and of which no node is given. -/
theorem Appended.refl (t : Tree) : t.Appended t none where
  toExtends := Extends.refl t
  root := by simp
  new := by simp

/-- New roots are roots of new nodes. -/
theorem Made.appended (h : t.Made u given.toList) : t.Appended u given where
  toExtends := h.toExtends
  root := fun id hid => h.root id (Option.mem_toList.mpr hid)
  new := fun id hid _ =>
    h.size_le_of_within (NewRoots.new h.toNewRoots id (Option.mem_toList.mpr hid))

end Tree

namespace ParseM

variable {α : Type} {m : ParseM (Option NodeId)} {P : Tree → NodeId → Prop} {setting : Setting}
  {s : ParseState}

/-- The reader only adds to the tree, also where it fails, and a failure lies in the events. -/
def Appends (m : ParseM (Option NodeId)) (setting : Setting) (s : ParseState) : Prop :=
  Post m setting s (fun given u => s.build.tree.Appended u.build.tree given) fun error u =>
    s.build.tree.Extends u.build.tree ∧ ∀ te, error ≠ .tree te

/-- A reader that makes a root as demanded only adds to a sound tree. -/
theorem Yields.appends (hm : Yields m P) (hs : s.build.tree.Sound) : Appends m setting s :=
  (hm setting s hs).mono (fun _ _ hu => hu.made.appended) fun _ _ hu =>
    ⟨hu.grown.toExtends, hu.error⟩

/-- A reader that leaves the tree as it is only adds to it. -/
theorem Spares.appends {m : ParseM α} (hm : Spares m) :
    Appends ((fun _ => none) <$> m) setting s := by
  refine post_map.mpr ((hm setting s).mono (fun _ _ hu => ?_) fun _ _ hu => ?_)
  · rw [hu]
    exact Tree.Appended.refl _
  · rw [hu.1]
    exact ⟨Tree.Extends.refl _, hu.2⟩

end ParseM

namespace Parse

variable {setting : Setting} {s : ParseState}

/-- Opening the frame of a document leaves the tree as it is. -/
theorem spares_start : Spares start :=
  (Spares.expect _).bind fun _ => Spares.expect _

/-- Closing the frame leaves the tree as it is. -/
theorem spares_finishDocument : Spares finishDocument :=
  (Spares.expect _).bind fun _ => Spares.expect _

/-- Does what a request asks for, and keeps the node that is given where it is one. -/
def Request.node : Request → ParseM (Option NodeId)
  | .start => (fun _ => none) <$> Parse.start
  | .declaration type => Parse.declaration type
  | .declarationList type => Parse.declarationList type
  | .valueOf kind => Parse.valueOf kind
  | .expression => Parse.expression
  | .condition => Parse.condition
  | .string => Parse.string
  | .int => Parse.int
  | .bool => Parse.bool
  | .stringList => Parse.stringList
  | .rawValue => (fun _ => none) <$> Parse.rawValue
  | .key => (fun _ => none) <$> Parse.key
  | .finishDocument => (fun _ => none) <$> Parse.finishDocument

/-- In a sound tree every request only adds. -/
theorem Request.appends (request : Request) (hs : s.build.tree.Sound) :
    Appends request.node setting s := by
  have hlevels {m : Nat → ParseM (Option NodeId)} {P : Tree → NodeId → Prop}
      (hm : ∀ levels, Yields (m levels) P) : Appends (levels >>= m) setting s :=
    (Yields.bind_spares Spares.levels hm).appends hs
  cases request with
  | start => exact spares_start.appends
  | declaration type => exact (yields_valueOf (.declaration type)).appends hs
  | declarationList type => exact (yields_valueOf (.declarationList type)).appends hs
  | valueOf kind => exact (yields_valueOf kind).appends hs
  | expression => exact hlevels yields_expressionWithin
  | condition => exact hlevels yields_conditionWithin
  | string => exact yields_string.appends hs
  | int => exact yields_int.appends hs
  | bool => exact yields_bool.appends hs
  | stringList => exact hlevels yields_stringListWithin
  | rawValue => exact (Spares.levels.bind spares_rawValueWithin).appends
  | key => exact spares_key.appends
  | finishDocument => exact spares_finishDocument.appends

/-! ## Documents -/

/-- The module of a document is read as a declaration between two steps that leave the tree as it
is. -/
theorem yields_readModule :
    Yields Document.readModule fun t id => t.IsDeclaration (.concrete .module) id := by
  refine Yields.bind_spares spares_start fun _ setting s hs => ?_
  refine Post.bind (yields_valueOf (.declaration (.concrete .module)) setting s hs)
    fun root u hu => ?_
  refine Post.bind (spares_finishDocument.after hu.made.toGrown) fun _ v hv => ?_
  exact ⟨hv ▸ hu.made, hv ▸ hu.form⟩

/-- Binding the references of what was read succeeds. -/
theorem exists_link (options : Options) (root : Option NodeId) {t : Tree} (ht : t.Sound) :
    ∃ unresolved u, Document.link options root t = .ok unresolved u := by
  unfold Document.link
  split
  · next root =>
    split
    · obtain ⟨u, hu, -⟩ := TreeM.linkReferences_ok root ht (Tree.SameButTargets.refl t) ht
      exact ⟨_, u, hu⟩
    · exact ⟨[], t, rfl⟩
  · exact ⟨[], t, rfl⟩

/-- Whatever the events, no failure to read a document is an error of the tree. -/
theorem ofEvents_ne_tree (setting : Setting) (events : List Event) (te : TreeError) :
    Document.ofEvents setting events ≠ .error (.tree te) := by
  intro h
  have hread := yields_readModule setting { events } Tree.sound_empty
  unfold Document.ofEvents at h
  split at h
  · next error u herror =>
    cases h
    exact (hread.of_error herror).error te rfl
  · next root u hok =>
    obtain ⟨unresolved, v, hlink⟩ :=
      exists_link setting.options root (hread.of_ok hok).made.sound
    split at h
    · next error w herror => cases hlink.symm.trans herror
    · cases h

/-- Parsers and resolvers only add to a tree, and never misuse it. Whatever the events and the
options, a request to a parser, after any others and their failures, leaves all that was there as it
was, and a node that it gives is the unattached root of nodes that it made; where it fails, the
failure is none of the tree. Nor does a document ever fail so, the binding of its references
included. And in every tree that operations have built, giving meaning to a value or a condition
succeeds, and only adds in the same way. -/
theorem only_adds (setting : Setting) :
    (∀ events requests request,
      let s := after setting requests { events }
      Post (Request.node request) setting s
        (fun given u => s.build.tree.Appended u.build.tree given)
        fun error u => s.build.tree.Extends u.build.tree ∧ ∀ te, error ≠ .tree te) ∧
    (∀ events te, Document.ofEvents setting events ≠ .error (.tree te)) ∧
    ∀ ops diagnostics r,
      let b : Build := ⟨Tree.after ops, diagnostics⟩
      Succeeds (Resolve.value r) b (fun given b' => b.tree.Appended b'.tree given) ∧
        Succeeds (Resolve.condition r) b fun given b' => b.tree.Appended b'.tree given := by
  refine ⟨fun events requests request => ?requests, ofEvents_ne_tree setting,
    fun ops diagnostics r => ?resolvers⟩
  case requests => exact request.appends (sound_after requests Tree.sound_empty)
  case resolvers =>
    have hgives {m : BuildM (Option NodeId)} {P : Tree → NodeId → Prop} (hm : Gives m P) :
        Succeeds m ⟨Tree.after ops, diagnostics⟩ fun given b' =>
          (Tree.after ops).Appended b'.tree given :=
      (hm _ (Tree.sound_after ops)).mono fun _ _ hgave => hgave.made.appended
    exact ⟨hgives (Resolve.gives_value r), hgives (Resolve.gives_condition r)⟩

end Parse

end InfraModule
