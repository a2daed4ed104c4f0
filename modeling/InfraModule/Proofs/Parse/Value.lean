import InfraModule.Proofs.Parse.Growth

/-!
# What readers of values build

Reading an uninterpreted value builds nothing; giving it a meaning does. Each reader of a value that
is no declaration makes a root of the form that the schema table prescribes for its kind of value.
-/

namespace InfraModule

open ParseM

/-- The value is one that an event of this kind stands for or starts. -/
def RawValue.StartsWith (v : RawValue) (kind : EventKind) : Prop :=
  match kind with
  | .scalar text tag => ∃ l, v = .scalar tag l text
  | .sequenceStart tag => ∃ l items, v = .sequence tag l items
  | .mappingStart tag => ∃ l entries, v = .mapping tag l entries
  | _ => False

namespace Parse

variable {setting : Setting} {s : ParseState} {e : Event} {es : List Event}
  {container : Container} {P : Tree → NodeId → Prop}

/-! ## Uninterpreted values -/

/-- Reading a key builds nothing. -/
theorem spares_key : Spares key := by
  unfold key
  refine Spares.current.bind fun e => ?_
  split
  · exact Spares.here.bind fun _ => Spares.advance.bind fun _ => Spares.pure _
  · exact Spares.here.bind fun l => (Spares.report _ l).bind fun _ => Spares.skip.bind fun _ =>
      Spares.skip.bind fun _ => Spares.pure none

/-- Reading an uninterpreted entry builds nothing if reading its value does not. -/
theorem spares_rawEntry {value : ParseM (Option RawValue)} (hvalue : Spares value)
    (entries : List (Key × RawValue)) : Spares (rawEntry value entries) := by
  unfold rawEntry
  refine spares_key.bind fun k => ?_
  cases k with
  | none => exact Spares.pure _
  | some k =>
    refine hvalue.bind fun r => ?_
    cases r with
    | none => exact Spares.pure _
    | some r => exact Spares.pure _

/-- Reading an uninterpreted value builds nothing. -/
theorem spares_rawValueWithin (levels : Nat) : Spares (rawValueWithin levels) := by
  induction levels using Nat.strongRecOn with
  | _ levels ih =>
    unfold rawValueWithin
    refine Spares.here.bind fun start => Spares.current.bind fun e => ?_
    split
    · exact Spares.advance.bind fun _ => Spares.pure _
    · cases levels with
      | zero => exact Spares.tooDeep
      | succ levels =>
        have hitem : Spares (rawValueWithin levels) := ih levels (Nat.lt_succ_self levels)
        refine Spares.nested (Spares.bind ?_ fun items => ?_)
        · refine Spares.bind (Spares.foldUntilClose (G := False) (fun setting items s => ?_)
            (fun items => hitem.bind fun _ => Spares.pure _) []) fun items => Spares.pure _
          exact (takes_rawValueWithin levels setting s).bind fun r u hu => ⟨hu, by simp⟩
        · exact (Spares.closeFrom start).bind fun _ => Spares.pure _
    · cases levels with
      | zero => exact Spares.tooDeep
      | succ levels =>
        have hvalue : Spares (rawValueWithin levels) := ih levels (Nat.lt_succ_self levels)
        refine Spares.nested (Spares.bind ?_ fun entries => ?_)
        · exact Spares.foldUntilClose
            (fun setting entries s => turns_rawEntry (takes_rawValueWithin levels) entries)
            (fun entries => spares_rawEntry hvalue entries) []
        · exact (Spares.closeFrom start).bind fun _ => Spares.pure _
    · exact Spares.refuse _

/-- What is read is what starts at the cursor. -/
theorem startsWith_rawValueWithin (levels : Nat) (hs : s.events = e :: es) :
    Post (rawValueWithin levels) setting s (fun r _ => ∀ v ∈ r, v.StartsWith e.kind)
      fun _ _ => True := by
  -- What is read inside a container does not matter here.
  have hany {β : Type} (m : ParseM β) (u : ParseState) :
      Post m setting u (fun _ _ => True) fun _ _ => True := by
    unfold Post Result.Post
    split <;> trivial
  have hrefuse (message : String) (kind : EventKind) : Post (refuse message) setting s
      (fun (r : Option RawValue) _ => ∀ v ∈ r, v.StartsWith kind) fun _ _ => True := by
    unfold refuse
    exact (hany here s).bind fun _ _ _ => (hany _ _).bind fun _ _ _ =>
      (hany skip _).bind fun _ _ _ => by simp
  unfold rawValueWithin
  rw [post_bind, post_here hs, post_bind, post_current hs]
  cases hkind : e.kind with
  | scalar text tag =>
    rw [post_bind, post_advance]
    simp [RawValue.StartsWith]
  | sequenceStart tag =>
    cases levels with
    | zero => exact hrefuse _ _
    | succ levels =>
      refine post_nested.mpr ((hany _ _).bind fun items u _ => (hany _ u).bind fun l v _ => ?_)
      simp [RawValue.StartsWith]
  | mappingStart tag =>
    cases levels with
    | zero => exact hrefuse _ _
    | succ levels =>
      refine post_nested.mpr ((hany _ _).bind fun entries u _ => (hany _ u).bind fun l v _ => ?_)
      simp [RawValue.StartsWith]
  | _ => exact hrefuse _ _

/-! ## Literals -/

/-- A literal is made as a new root. -/
theorem yields_add_literal (literal : Literal) (l : Location) :
    Yields (some <$> add (.expression (.literal literal)) l) fun t id =>
      t.form? id = some (.literal literal) := by
  intro setting s hs
  rw [post_map]
  have hnil : s.build.tree.Made s.build.tree [] := (Tree.Grown.refl hs).made
  refine Result.Post.mono
    (post_add_leaf (n := .expression (.literal literal)) hnil rfl rfl trivial l)
    (fun id u hu => ?_) fun _ _ h => h
  obtain ⟨hmade, -, hnode⟩ := hu
  refine ⟨hmade, fun x hx => ?_⟩
  cases hx
  exact Tree.form?_of_node? hnode

/-- A scalar makes a literal to which its text converts. -/
theorem yields_scalar (message : String) (convert : String → Option Literal) :
    Yields (scalar message convert) fun t id =>
      ∃ text literal, convert text = some literal ∧ t.form? id = some (.literal literal) := by
  unfold scalar
  refine Yields.bind_spares Spares.current fun e => ?_
  have hliteral (literal : Literal) (text : String) (h : convert text = some literal) :
      Yields (do
        let location ← here
        advance
        some <$> add (.expression (.literal literal)) location) fun t id =>
          ∃ text literal, convert text = some literal ∧ t.form? id = some (.literal literal) := by
    refine Yields.bind_spares Spares.here fun l => Yields.bind_spares Spares.advance fun _ => ?_
    exact (yields_add_literal literal l).imp fun t id hid => ⟨text, literal, h, hid⟩
  dsimp only
  split
  · next literal h =>
    split at h
    · next text hkind => exact hliteral literal text h
    · cases h
  · exact Yields.refuse message

/-- A text that is read is a literal text. -/
theorem yields_string : Yields string fun t id => t.HasForm .string id := by
  refine (yields_scalar _ _).imp fun t id hid => ?_
  obtain ⟨text, literal, h, hform⟩ := hid
  cases h
  exact ⟨text, hform⟩

/-- An integer that is read is a literal integer. -/
theorem yields_int : Yields int fun t id => t.HasForm .int id := by
  refine (yields_scalar _ _).imp fun t id hid => ?_
  obtain ⟨text, literal, h, hform⟩ := hid
  obtain ⟨n, hn, rfl⟩ := Option.map_eq_some_iff.mp h
  -- What was read passed the check of its range.
  have hfits : Text.Integer.Fits n := by
    unfold Text.Integer.read? at hn
    simpa using (Option.filter_eq_some_iff.mp hn).2
  exact ⟨n, hfits, hform⟩

/-- A boolean that is read is a literal boolean. -/
theorem yields_bool : Yields bool fun t id => t.HasForm .bool id := by
  refine (yields_scalar _ _).imp fun t id hid => ?_
  obtain ⟨text, literal, h, hform⟩ := hid
  obtain ⟨b, -, rfl⟩ := Option.map_eq_some_iff.mp h
  exact ⟨b, hform⟩

/-! ## Expressions -/

/-- An expression that is read has the form of one, whatever depth is left. -/
theorem yields_expressionWithin (levels : Nat) :
    Yields (expressionWithin levels) fun t id => t.HasForm .expression id := by
  refine Yields.bind_spares (spares_rawValueWithin levels) fun r => ?_
  cases r with
  | none => exact Yields.pure_none
  | some v => exact Yields.build (Resolve.gives_value v)

/-- A condition that is read has the form of one, whatever depth is left. -/
theorem yields_conditionWithin (levels : Nat) :
    Yields (conditionWithin levels) fun t id => t.HasForm .condition id := by
  refine Yields.bind_spares (spares_rawValueWithin levels) fun r => ?_
  cases r with
  | none => exact Yields.pure_none
  | some v => exact Yields.build (Resolve.gives_condition v)

/-- Where a value starts as it must, its meaning has the form of any such value. -/
theorem post_expressionWithin (levels : Nat) (hs : s.events = e :: es)
    (hsound : s.build.tree.Sound)
    (hP : ∀ v : RawValue, v.StartsWith e.kind → BuildM.Gives (Resolve.value v) P) :
    Post (expressionWithin levels) setting s
      (fun given u => u.build.Gave s.build.tree P given) (Fails s.build.tree) := by
  have hgrown := Tree.Grown.refl hsound
  unfold expressionWithin
  refine Post.bind (Result.Post.mono
    (((spares_rawValueWithin levels).after hgrown).and (startsWith_rawValueWithin levels hs))
    (fun _ _ h => h) fun _ _ h => h.1) fun r u hu => ?_
  obtain ⟨htree, hr⟩ := hu
  rw [← htree] at hsound ⊢
  cases r with
  | none => exact Yields.pure_none setting u hsound
  | some v => exact Yields.build (hP v (hr v rfl)) setting u hsound

/-- A reader of an untagged container need make a root only where the container starts. -/
theorem yields_plain {body : ParseM (Option NodeId)}
    (hbody : ∀ setting s e es, s.events = e :: es → e.kind = container.plainStart →
      s.build.tree.Sound → Post body setting s
        (fun given u => u.build.Gave s.build.tree P given) (Fails s.build.tree)) :
    Yields (plain container body) P := by
  intro setting s hs
  unfold plain atPlain
  rw [post_bind]
  refine post_bind_current (fun _ => ⟨Tree.Grown.refl hs, by simp⟩) fun e es hevents => ?_
  rw [post_pure]
  by_cases hkind : e.kind = container.plainStart
  · simp only [hkind, decide_true, if_true]
    exact hbody setting s e es hevents hkind hs
  · simp only [hkind, decide_false]
    exact Yields.refuse _ setting s hs

/-- A reader of an untagged container may look where it stands first. -/
theorem yields_plain_here {body : Location → ParseM (Option NodeId)}
    (hbody : ∀ start setting s, s.build.tree.Sound → Post (body start) setting s
      (fun given u => u.build.Gave s.build.tree P given) (Fails s.build.tree)) :
    Yields (plain container (here >>= body)) P :=
  yields_plain fun setting s _ _ _ _ hsound =>
    Yields.bind_spares Spares.here (fun start setting s hs => hbody start setting s hs) setting s
      hsound

/-- A plain mapping is read as an object. -/
theorem yields_object (levels : Nat) :
    Yields (plain .mapping (expressionWithin levels)) fun t id => t.HasForm .object id := by
  refine yields_plain fun setting s e es hs hkind hsound => ?_
  refine post_expressionWithin levels hs hsound fun v hv => ?_
  rw [hkind] at hv
  obtain ⟨l, entries, rfl⟩ := hv
  exact Resolve.gives_object l entries

/-- A plain sequence is read as a list. -/
theorem yields_list (levels : Nat) :
    Yields (plain .sequence (expressionWithin levels)) fun t id => t.HasForm .list id := by
  refine yields_plain fun setting s e es hs hkind hsound => ?_
  refine post_expressionWithin levels hs hsound fun v hv => ?_
  rw [hkind] at hv
  obtain ⟨l, items, rfl⟩ := hv
  exact Resolve.gives_list l items

/-! ## Lists of texts -/

/-- A collection is added over the nodes that were made for its items. -/
theorem post_add_collection {t : Tree} {items : List NodeId} (h : t.Made s.build.tree items)
    (hP : ∀ u : Tree, s.build.tree.Keeps u → ∀ id, u.form? id = some (.collection items) → P u id)
    (l : Location) : Post (some <$> add (.collection items) l) setting s
      (fun given u => u.build.Gave t P given) (Fails t) := by
  have hmade : t.Made s.build.tree ((Node.collection items).children ++ []) := by
    rw [List.append_nil]
    exact h
  rw [post_map]
  refine Result.Post.mono (post_add hmade rfl trivial l) (fun id u hu => ?_) fun _ _ h => h
  obtain ⟨hmade, hretains, -, hnode⟩ := hu
  refine ⟨hmade, fun x hx => ?_⟩
  cases hx
  exact hP _ hretains.keeps id (Tree.form?_of_node? hnode)

/-- The texts of a list are made as new roots. -/
theorem post_texts (start : Location) (hs : s.build.tree.Sound) :
    Post (nested do
      let items ← collect .sequence string
      return (items, ← closeFrom start)) setting s
      (fun items u => s.build.tree.Made u.build.tree items.1 ∧
        ∀ id ∈ items.1, u.build.tree.IsText id) (Fails s.build.tree) := by
  refine post_nested.mpr (Post.bind (post_collect (P := Tree.IsText) (takes_scalar _ _)
    yields_string Tree.Keeps.isText (Tree.Grown.refl hs).made) fun items v hv => ?_)
  refine Post.bind ((Spares.closeFrom start).after hv.1.toGrown) fun l w hw => ?_
  rw [post_pure, hw]
  exact hv

/-- A list of texts that is read has the form of one, whatever depth is left. -/
theorem yields_stringListWithin (levels : Nat) :
    Yields (stringListWithin levels) fun t id => t.HasForm .stringList id := by
  refine yields_plain_here fun start setting s hs => ?_
  cases levels with
  | zero => exact Yields.tooDeep setting s hs
  | succ levels =>
    -- The texts are collected first; then the collection is added over them.
    refine Post.bind (post_texts start hs) fun items v hv => ?_
    obtain ⟨hmade, hitems⟩ := hv
    refine post_add_collection hmade (fun w hw id hid => ?_) items.2
    exact ⟨items.1, hid, fun i hi => hw.isText (hitems i hi)⟩

end Parse

end InfraModule
