import InfraModule.Proofs.Parse.Draft
import InfraModule.Proofs.Tree.Reachable

/-!
# What reading declarations builds

A declaration that is read is typed, whatever was wrong with its entries, and so is each element of
a list of declarations. Reading a value of the schema table makes a root of the form that the table
prescribes (`yields_valueWithin`), by recursion on the levels that may still be opened.
-/

namespace InfraModule

open ParseM

namespace Parse

variable {setting : Setting} {s : ParseState} {t u : Tree} {type : DeclarationType} {id : NodeId}
  {d : Declaration} {draft : Draft} {value : ValueReader}

/-! ## Entries -/

/-- What is done for a key leaves a draft typed. -/
theorem post_entry (hvalue : ∀ kind, Yields (value kind) fun t id => t.HasForm kind id)
    {read : Option Draft} (h : DraftRead type t (some read) s.build.tree) :
    Post (entry type value read) setting s (fun r u => DraftRead type t r u.build.tree)
      (Fails t) := by
  unfold entry
  refine Post.bind (spares_key.after h.grown) fun k u hu => ?_
  have hread : DraftRead type t (some read) u.build.tree := hu ▸ h
  cases k with
  | none => exact hread
  | some k =>
    -- Reporting and skipping leave the draft as it was.
    have hskip (message : String) (r : Option (Option Draft))
        (hr : DraftRead type t r u.build.tree) :
        Post (do report message k.location; skip; return r) setting u
          (fun r u => DraftRead type t r u.build.tree) (Fails t) := by
      refine Post.bind ((Spares.report message _).after hr.grown) fun _ v hv => ?_
      refine Post.bind (Spares.skip.after (hv ▸ hr.grown)) fun _ w hw => ?_
      rw [post_pure, hw, hv]
      exact hr
    dsimp only
    split
    · exact hskip _ none hread.grown
    · next draft hdraft =>
      -- The first key chooses a kind that the type accepts; later keys find the draft.
      have htyped : draft.Typed type t u.build.tree := by
        cases read with
        | some read =>
          cases hdraft
          exact hread
        | none =>
          obtain ⟨kind, hkind, rfl⟩ := Option.map_eq_some_iff.mp hdraft
          exact Draft.typed_of_accepts hread (DeclarationType.accepts_of_resolveFirst hkind)
      split
      · exact hskip _ (some (some draft)) htyped
      · next known hknown =>
        split
        · exact hskip _ (some (some draft)) htyped
        · next hseen => exact post_property hvalue htyped hknown hseen

/-- Skipping the entries that are left builds nothing. -/
theorem spares_skipEntries : Spares skipEntries := by
  unfold skipEntries
  refine Spares.map _ (Spares.foldUntilClose (G := False) (fun setting _ s => ?_)
    (fun _ => Spares.skip.bind fun _ => Spares.skip.bind fun _ => Spares.pure _) ())
  exact turns_skipEntry

/-! ## One declaration -/

/-- Reporting missing keys builds nothing. -/
theorem spares_reportMissing (keys : List String) (l : Location) :
    Spares (reportMissing keys l) := by
  unfold reportMissing
  split
  · exact Spares.pure _
  · exact Spares.report _ l

/-- A draft without entries is typed. -/
theorem post_emptyDraft (start : Location) (h : t.Grown s.build.tree) :
    Post (emptyDraft type start) setting s
      (fun draft u => DraftRead type t (some draft) u.build.tree) (Fails t) := by
  unfold emptyDraft
  split
  · next kind =>
    split
    · exact Draft.typed_of_accepts h (by simp [DeclarationType.accepts])
    · refine Post.bind ((spares_reportMissing _ start).after h) fun _ u hu => ?_
      exact (hu ▸ h : t.Grown u.build.tree)
  · exact h

/-- A module without a version is given one. -/
theorem post_addDefaultVersion (h : t.Made s.build.tree [id])
    (hid : s.build.tree.node? id = some (.declaration d)) (hkind : d.kind = draft.kind)
    (hbound : ∀ key, d.bound? key = draft.bound? key)
    (hversion : "Version" ∉ draft.seen → d.property? "Version" = none) (l : Location) :
    Post (addDefaultVersion draft id l) setting s
      (fun _ u => t.Made u.build.tree [id] ∧
        (∃ d', u.build.tree.node? id = some (.declaration d') ∧
          draft.Becomes setting u.build.tree d') ∧
        ∀ x n, x ≠ id → s.build.tree.node? x = some n → u.build.tree.node? x = some n)
      (Fails t) := by
  unfold addDefaultVersion
  split
  · next hlacks =>
    refine Post.bind (Q := fun r u => t.Made u.build.tree [id] ∧ u.build.tree = s.build.tree ∧
      r = setting) ⟨h, rfl, rfl⟩ fun setting' u hu => ?_
    obtain ⟨hmade, htree, rfl⟩ := hu
    rw [← htree] at hid ⊢
    refine Post.bind (post_add_leaf (n := .expression (.literal (.string _))) hmade rfl rfl trivial
      l) fun version v hv => ?_
    obtain ⟨hmade', hextends, hnode⟩ := hv
    have hid' : v.build.tree.node? id = some (.declaration d) := hextends.retains _ _ hid
    -- Only a module has a version, and its row says that it is a text.
    have hmodule : d.kind = .module := hkind.trans hlacks.1
    have hmem : Schema.optional "Version" .string ∈ d.kind.properties := by
      rw [hmodule]
      decide
    have htext : v.build.tree.IsText version := ⟨_, Tree.form?_of_node? hnode⟩
    have hunbound := hversion hlacks.2
    have hne : version ≠ id := by
      rintro rfl
      simp [hid'] at hnode
    refine Result.Post.mono (post_bindAll hmade' hid' ?_ (List.nodup_singleton _) ?_)
      (fun _ w hw => ?_) fun _ _ h => h
    · simpa using hunbound
    · simpa using ⟨_, hmem, rfl, htext⟩
    · obtain ⟨hmade, -, hd', hothers⟩ := hw
      refine ⟨hmade, ⟨_, hd', .withVersion hkind hbound hlacks hunbound ?_⟩, fun x n hx hn => ?_⟩
      · rw [hothers version hne, hnode]
      · rw [hothers x hx]
        exact hextends.retains _ _ hn
  · next hlacks =>
    refine ⟨h, ⟨d, hid, hkind, fun key _ => hbound key, fun h => absurd h hlacks⟩, ?_⟩
    exact fun _ _ _ hn => hn

/-- A draft is completed: the declaration that was added becomes what it has read. -/
def Draft.Completed (setting : Setting) (draft : Draft) (t : Tree) (given : Option NodeId)
    (u : Tree) : Prop :=
  match given with
  | some id => t.Retains u ∧ ∃ d, u.node? id = some (.declaration d) ∧ draft.Becomes setting u d
  | none => draft.kind.keyword.isSome = true ∧ draft.keyword = none

/-- What a draft has read is bound to a declaration that was added. -/
def Draft.Finished (draft : Draft) (t : Tree) (given : Option NodeId) (u : Tree) : Prop :=
  match given with
  | some id => t.Retains u ∧ ∃ d, u.node? id = some (.declaration d) ∧ draft.Binds u d
  | none => draft.kind.keyword.isSome = true ∧ draft.keyword = none

/-- A typed draft becomes a typed declaration. -/
theorem post_finish_completed (h : draft.Typed type t s.build.tree) (start l : Location) :
    Post (finish draft start l) setting s
      (fun given u => u.build.Gave t (fun t id => t.IsDeclaration type id) given ∧
        draft.Completed setting s.build.tree given u.build.tree) (Fails t) := by
  unfold finish
  refine Post.bind ((spares_reportMissing _ start).after h.made.toGrown) fun _ u hu => ?_
  rw [← hu] at h ⊢
  split
  · next hd => exact ⟨⟨h.made.toGrown.made, by simp⟩, Declaration.new?_eq_none hd⟩
  · next d hd =>
    obtain ⟨hkind, hkeyword, hchildren, hunbound⟩ := Declaration.new?_eq_some hd
    have hsublist := hchildren.append_right (draft.values.map Prod.snd)
    have hmade : t.Made u.build.tree ((Node.declaration d).children ++ draft.values.map Prod.snd) :=
      h.made.mono (h.made.nodup.sublist hsublist) hsublist.subset
    -- No other key is bound yet, so only the keyword counts.
    have htyped : u.build.tree.WellTyped (.declaration d) := by
      refine ⟨fun key value hrow => ?_, fun p hp id hid => ?_⟩
      · rw [hkind] at hrow
        obtain ⟨heq, hsome⟩ := hkeyword (by simp [Kind.keyword, hrow])
        obtain ⟨id, hid⟩ := Option.isSome_iff_exists.mp hsome
        refine ⟨id, heq.trans hid, h.keyword id hid ⟨key, value, true⟩ ?_⟩
        simp [Kind.keywordProperty, hrow]
      · rw [hunbound] at hid
        cases hid
    refine Post.bind (post_add hmade rfl htyped l) fun id v hv => ?_
    obtain ⟨hmade, hretains, hnew, hnode⟩ := hv
    refine Post.bind (post_bindAll hmade hnode (fun entry _ => hunbound entry.1) h.nodup
      fun entry hentry => ?_) fun _ w hw => ?_
    · obtain ⟨p, hp, hkey, hform⟩ := h.values entry hentry
      exact ⟨p, hkind ▸ hp, hkey, hretains.keeps.hasForm hform⟩
    · obtain ⟨hmade, -, hd', hothers⟩ := hw
      -- A key that was never seen has not been bound.
      have hversion (hseen : "Version" ∉ draft.seen) :
          (d.withAll draft.values).property? "Version" = none := by
        rw [Declaration.property?_withAll (h.hasProperty hkind) h.nodup, hunbound, Option.or_none,
          List.lookup_eq_none_iff]
        intro entry hentry
        simpa using fun heq : "Version" = entry.1 =>
          hseen (heq ▸ h.seen entry.1 (List.mem_map_of_mem hentry))
      have hkind' : (d.withAll draft.values).kind = draft.kind := by simpa using hkind
      refine Post.bind (post_addDefaultVersion hmade hd' hkind' (h.bound?_withAll hd) hversion l)
        fun _ w' hw' => ?_
      obtain ⟨hmade, ⟨d', hd', hbecomes⟩, hretained⟩ := hw'
      refine ⟨⟨hmade, fun x hx => ?_⟩, fun x n hx => ?_, d', hd', hbecomes⟩
      · cases hx
        exact ⟨_, Tree.form?_of_node? hd', hbecomes.kind ▸ h.accepts⟩
      · -- The declaration is new, so that what was there before is something else.
        have hne : x ≠ id := by
          rintro rfl
          simp [hnew] at hx
        exact hretained x n hne ((hothers x hne).trans (hretains _ _ hx))

/-- What a typed draft has read is bound in the end. -/
theorem post_finish (h : draft.Typed type t s.build.tree) (start l : Location) :
    Post (finish draft start l) setting s
      (fun given u => u.build.Gave t (fun t id => t.IsDeclaration type id) given ∧
        draft.Finished s.build.tree given u.build.tree) (Fails t) := by
  refine (post_finish_completed h start l).mono (fun given u hu => ⟨hu.1, ?_⟩) fun _ _ h => h
  cases given with
  | none => exact hu.2
  | some id =>
    obtain ⟨hretains, d, hd, hbecomes⟩ := hu.2
    exact ⟨hretains, d, hd, hbecomes.binds h⟩

/-- Whatever is wrong with its entries, a declaration that is made is typed. -/
theorem post_declarationBody (htakes : ∀ kind, Takes (value kind))
    (hvalue : ∀ kind, Yields (value kind) fun t id => t.HasForm kind id) (start : Location)
    (h : t.Grown s.build.tree) : Post (declarationBody type value start) setting s
      (fun given u => u.build.Gave t (fun t id => t.IsDeclaration type id) given) (Fails t) := by
  unfold declarationBody
  -- The invariant of the loop is that the draft is typed as far as it has been read.
  refine Post.bind (post_foldUntilClose_of_turns
    (I := fun r u => DraftRead type t r u.build.tree) (fun read s => turns_entry htakes type read)
    (fun read s hs => post_entry hvalue hs) (fun read s hs error herror => ⟨hs.grown, herror⟩)
    none h) fun r u hu => ?_
  cases r with
  | none =>
    refine Post.bind (spares_skipEntries.after hu) fun _ v hv => ?_
    refine Post.bind (Spares.advance.after (hv ▸ hu)) fun _ w hw => ?_
    have hgrown : t.Grown w.build.tree := hw ▸ hv ▸ hu
    exact ⟨hgrown.made, by simp⟩
  | some read =>
    refine Post.bind ((Spares.closeFrom start).after hu.grown) fun l v hv => ?_
    rw [← hv] at hu
    cases read with
    | some draft => exact (post_finish hu start l).mono (fun _ _ hw => hw.1) fun _ _ h => h
    | none =>
      refine Post.bind (post_emptyDraft start hu) fun draft w hw => ?_
      cases draft with
      | none => exact ⟨hw.made, by simp⟩
      | some draft => exact (post_finish hw start l).mono (fun _ _ hw => hw.1) fun _ _ h => h

/-! ## Lists of declarations -/

/-- Comparing a name with those before it builds nothing. -/
theorem spares_uniqueName? (id : NodeId) : Spares (uniqueName? id) := by
  unfold uniqueName?
  refine Spares.get.bind fun state => Spares.read.bind fun setting => ?_
  split
  · exact Spares.pure _
  · exact Spares.pure _

/-- The items of a list are new roots that are declarations of its type. -/
structure Items.Typed (type : DeclarationType) (t u : Tree) (items : Items) : Prop where
  /-- The items are new roots. -/
  made : t.Made u items.ids
  /-- The items are declarations. -/
  declaration : ∀ id ∈ items.ids, u.IsDeclaration type id

/-- An element that is made is added to the items, unless its name is taken. -/
theorem post_element {declaration : ParseM (Option NodeId)} {items : Items}
    (hdeclaration : Yields declaration fun t id => t.IsDeclaration type id)
    (h : items.Typed type t s.build.tree) : Post (element declaration items) setting s
      (fun r u => (r.getD {}).Typed type t u.build.tree) (Fails t) := by
  unfold element
  refine Post.bind (hdeclaration.after h.made) fun given u hu => ?_
  obtain ⟨hmade, hkeeps, hgiven⟩ := hu
  have hold : ∀ id ∈ items.ids, u.build.tree.IsDeclaration type id :=
    fun id hid => hkeeps.isDeclaration (h.declaration id hid)
  cases given with
  | none => exact ⟨by simpa using hmade, hold⟩
  | some id =>
    -- The new item is a declaration, and the others still are.
    have hadded : ∀ i ∈ items.ids ++ [id], u.build.tree.IsDeclaration type i := by
      intro i hi
      rcases List.mem_append.mp hi with hi | hi
      · exact hold i hi
      · exact hgiven i (by simpa [eq_comm] using hi)
    refine Post.bind ((spares_uniqueName? id).after hmade.toGrown) fun name v hv => ?_
    cases name with
    | none => exact ⟨hv ▸ hmade, hv ▸ hadded⟩
    | some name =>
      dsimp only
      split
      · -- The element stays behind as a root that nothing names.
        have hitems : t.Made u.build.tree items.ids :=
          hmade.mono (List.nodup_append.mp hmade.nodup).1 (List.subset_append_left _ _)
        rw [← hv] at hitems hold
        exact ⟨hitems, hold⟩
      · exact ⟨hv ▸ hmade, hv ▸ hadded⟩

/-- The items of a list are new roots that are declarations of its type. -/
theorem post_listBody {declaration : ParseM (Option NodeId)} (htakes : Takes declaration)
    (hdeclaration : Yields declaration fun t id => t.IsDeclaration type id) (start : Location)
    (h : t.Grown s.build.tree) : Post (listBody declaration start) setting s
      (fun r u => t.Made u.build.tree r.1 ∧ ∀ id ∈ r.1, u.build.tree.IsDeclaration type id)
      (Fails t) := by
  unfold listBody
  refine Post.bind (post_foldUntilClose_of_turns
    (I := fun r u => (r.getD {}).Typed type t u.build.tree)
    (fun items s => turns_element htakes items) (fun items s hs => post_element hdeclaration hs)
    (fun items s hs error herror => ⟨hs.made.toGrown, herror⟩) {} ⟨h.made, by simp⟩)
    fun r u hu => ?_
  refine Post.bind ((Spares.closeFrom start).after hu.made.toGrown) fun l v hv => ?_
  rw [post_pure, hv]
  exact ⟨hu.made, hu.declaration⟩

/-! ## All shapes -/

/-- Values other than declarations and lists of them are made as roots of the form that the table
prescribes in any case. -/
theorem yields_valueWithin_of_declarations {levels : Nat}
    (hdeclaration : ∀ type, Yields (valueWithin levels (.declaration type))
      fun t id => t.HasForm (.declaration type) id)
    (hlist : ∀ type, Yields (valueWithin levels (.declarationList type))
      fun t id => t.HasForm (.declarationList type) id)
    (kind : ValueKind) : Yields (valueWithin levels kind) fun t id => t.HasForm kind id := by
  cases kind with
  | string =>
    unfold valueWithin
    exact yields_string
  | int =>
    unfold valueWithin
    exact yields_int
  | bool =>
    unfold valueWithin
    exact yields_bool
  | expression =>
    unfold valueWithin
    exact yields_expressionWithin levels
  | condition =>
    unfold valueWithin
    exact yields_conditionWithin levels
  | object =>
    unfold valueWithin
    exact yields_object levels
  | list =>
    unfold valueWithin
    exact yields_list levels
  | stringList =>
    unfold valueWithin
    exact yields_stringListWithin levels
  | declaration type => exact hdeclaration type
  | declarationList type => exact hlist type

/-- Whatever the shape, a value of the schema table is made as a root of the form that the table
prescribes. -/
theorem yields_valueWithin (levels : Nat) (kind : ValueKind) :
    Yields (valueWithin levels kind) fun t id => t.HasForm kind id := by
  induction levels generalizing kind with
  | zero =>
    have hdeep {container : Container} {P : Tree → NodeId → Prop} :
        Yields (plain container do let _ ← here; tooDeep) P :=
      yields_plain_here fun _ setting s hs => Yields.tooDeep setting s hs
    refine yields_valueWithin_of_declarations (fun type => ?_) (fun type => ?_) kind
    · exact hdeep
    · exact hdeep
  | succ levels ih =>
    refine yields_valueWithin_of_declarations (fun type => ?declaration) (fun type => ?list) kind
    case declaration =>
      refine yields_plain_here fun start setting s hs => post_nested.mpr ?_
      exact post_declarationBody (takes_valueWithin levels) ih start (Tree.Grown.refl hs)
    case list =>
      refine yields_plain_here fun start setting s hs => ?_
      refine Post.bind (Q := fun r v => s.build.tree.Made v.build.tree r.1 ∧
        ∀ id ∈ r.1, v.build.tree.IsDeclaration type id) ?_ fun r v hv => ?_
      · exact post_nested.mpr (post_listBody (takes_valueWithin levels (.declaration type))
          (ih (.declaration type)) start (Tree.Grown.refl hs))
      · obtain ⟨hmade, hitems⟩ := hv
        refine post_add_collection hmade (fun w hw id hid => ?_) r.2
        exact ⟨r.1, hid, fun i hi => hw.isDeclaration (hitems i hi)⟩

/-- A value of any kind has the form that the schema table prescribes for it. -/
theorem yields_valueOf (kind : ValueKind) : Yields (valueOf kind) fun t id => t.HasForm kind id :=
  Yields.bind_spares Spares.levels fun levels => yields_valueWithin levels kind

end Parse

end InfraModule
