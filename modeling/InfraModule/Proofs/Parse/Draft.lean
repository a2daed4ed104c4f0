import InfraModule.Proofs.Parse.Value
import InfraModule.Proofs.Tree.Declaration

/-!
# What reading a declaration builds

The nodes of a draft are roots of the forms that the schema table prescribes for its kind, under
distinct keys (`Draft.Typed`); each entry that is read keeps that. So the declaration that is added
in the end is typed, and binding its keys one by one, each of them unbound before, keeps it typed.
-/

namespace InfraModule

open ParseM

/-! ## Binding keys -/

namespace Tree

variable {t : Tree} {d : Declaration} {p : Property} {v : NodeId}

/-- Binding a key to a value of its form keeps a declaration typed. -/
theorem ValuesTyped.withProperty (h : t.ValuesTyped d) (hp : p ∈ d.kind.properties)
    (hv : t.HasForm p.value v) : t.ValuesTyped (d.withProperty p.key (some v)) where
  keyword := h.keyword
  property := by
    intro q hq id hid
    -- Two keys of a row that are spelt alike are the same.
    by_cases hkey : q.key = p.key
    · rw [Kind.property_unique hq hp hkey] at hid ⊢
      rw [Declaration.property?_withProperty_self (Declaration.hasProperty_of_mem hp)] at hid
      cases hid
      exact hv
    · rw [Declaration.property?_withProperty_of_ne hkey] at hid
      exact h.property q hq id hid

end Tree

namespace BuildM

open Result

variable {b : Build} {t : Tree} {d : Declaration} {p : Property} {id v : NodeId}
  {ids : List NodeId}

/-- A value that was made for an unbound key of a declaration is bound to it. -/
theorem succeeds_setProperty (h : t.Made b.tree (id :: v :: ids))
    (hid : b.tree.node? id = some (.declaration d)) (hp : p ∈ d.kind.properties)
    (hunbound : d.property? p.key = none) (hv : b.tree.HasForm p.value v) :
    Succeeds (onTree (.setProperty id p.key (some v))) b fun _ b' =>
      t.Made b'.tree (id :: ids) ∧ b.tree.Keeps b'.tree ∧
        b'.tree.node? id = some (.declaration (d.withProperty p.key (some v))) ∧
        ∀ x, x ≠ id → b'.tree.node? x = b.tree.node? x := by
  have hkey := Declaration.hasProperty_of_mem hp
  have ha : b.tree.Attachable id v := h.attachable h.sound
  have hv' : ∀ w, some v = some w → b.tree.Attachable id w := by simpa using ha
  have happly := TreeM.setProperty_of_attachable h.sound hid hkey hv'
  -- The key is unbound, so nothing is detached.
  have hsame : d.withProperty p.key none = d := by
    rw [← hunbound, Declaration.withProperty_property?]
  have hwithout :
      (Node.declaration (d.withProperty p.key (some v))).Without v (.declaration d) := by
    have hbound := Node.without_of_bound v hkey
    rwa [hsame] at hbound
  have htyped : b.tree.WellTyped (.declaration (d.withProperty p.key (some v))) :=
    (h.typed id _ (h.new id List.mem_cons_self) hid).withProperty hp hv
  rw [Succeeds, post_onTree, post_of_ok happly, Tree.vacate_of_none hunbound]
  have hmade := h.attach hid hwithout rfl htyped
  have hkeeps : b.tree.Keeps
      (b.tree.move id (.declaration (d.withProperty p.key (some v))) v (some id)) :=
    Tree.keeps_move hid rfl
  refine ⟨hmade, hkeeps, ?_, fun x hx => ?_⟩
  · rw [Tree.occupy, Tree.node?_move ha.owner, if_pos rfl]
  · rw [Tree.occupy, Tree.node?_move ha.owner, if_neg hx]

end BuildM

namespace Parse

variable {setting : Setting} {s : ParseState} {t u : Tree} {type : DeclarationType} {id : NodeId}
  {d : Declaration} {draft : Draft}

/-- Values that were made for distinct unbound keys of a declaration are bound to them. -/
theorem post_bindAll {values : List (String × NodeId)}
    (h : t.Made s.build.tree (id :: values.map Prod.snd))
    (hid : s.build.tree.node? id = some (.declaration d))
    (hunbound : ∀ entry ∈ values, d.property? entry.1 = none)
    (hnodup : (values.map Prod.fst).Nodup)
    (htyped : ∀ entry ∈ values, ∃ p ∈ d.kind.properties,
      p.key = entry.1 ∧ s.build.tree.HasForm p.value entry.2) :
    Post (bindAll id values) setting s
      (fun _ u => t.Made u.build.tree [id] ∧ s.build.tree.Keeps u.build.tree ∧
        u.build.tree.node? id = some (.declaration (d.withAll values)) ∧
        ∀ x, x ≠ id → u.build.tree.node? x = s.build.tree.node? x)
      (Fails t) := by
  induction values generalizing s d with
  | nil => exact ⟨h, fun _ _ h => h, hid, fun _ _ => rfl⟩
  | cons entry values ih =>
    obtain ⟨key, v⟩ := entry
    obtain ⟨⟨p, hp, rfl, hv⟩, htypedRest⟩ := List.forall_mem_cons.mp htyped
    obtain ⟨hunboundKey, hunboundRest⟩ := List.forall_mem_cons.mp hunbound
    obtain ⟨hnotMem, hnodupRest⟩ := List.nodup_cons.mp hnodup
    change Post (discard (build (.onTree (.setProperty id p.key (some v)))) >>= fun _ =>
      bindAll id values) setting s _ _
    refine Post.bind (Q := fun _ u => t.Made u.build.tree (id :: values.map Prod.snd) ∧
      s.build.tree.Keeps u.build.tree ∧
        u.build.tree.node? id = some (.declaration (d.withProperty p.key (some v))) ∧
        ∀ x, x ≠ id → u.build.tree.node? x = s.build.tree.node? x) ?_
      fun _ u hu => ?_
    · exact post_map.mpr (post_build_of_succeeds
        (BuildM.succeeds_setProperty h hid hp hunboundKey hv))
    · obtain ⟨hmade, hkeeps, hnode, hothers⟩ := hu
      -- The keys that remain are others, so that they are still unbound.
      have hother {k : String} (hk : k ∈ values.map Prod.fst) : k ≠ p.key :=
        fun he => hnotMem (he ▸ hk)
      refine Result.Post.mono (ih hmade hnode (fun entry hentry => ?_) hnodupRest
        fun entry hentry => ?_) (fun _ w hw => ?_) fun _ _ h => h
      · rw [Declaration.property?_withProperty_of_ne (hother (List.mem_map_of_mem hentry))]
        exact hunboundRest entry hentry
      · obtain ⟨q, hq, hqkey, hform⟩ := htypedRest entry hentry
        exact ⟨q, hq, hqkey, hkeeps.hasForm hform⟩
      · obtain ⟨hmade, hkeeps', hnode, hothers'⟩ := hw
        exact ⟨hmade, fun x f hx => hkeeps' x f (hkeeps x f hx), hnode,
          fun x hx => (hothers' x hx).trans (hothers x hx)⟩

/-! ## Drafts -/

/-- The node that was read for a key, the keyword included. -/
def Draft.bound? (draft : Draft) (key : String) : Option NodeId :=
  if draft.kind.isKeyword key then draft.keyword else draft.values.lookup key

/-- The nodes of a draft are new roots of the forms that the schema table prescribes, under distinct
keys that have been seen. -/
structure Draft.Typed (type : DeclarationType) (t u : Tree) (draft : Draft) : Prop where
  /-- The nodes are new roots. -/
  made : t.Made u (draft.keyword.toList ++ draft.values.map Prod.snd)
  /-- The kind is one that is accepted. -/
  accepts : type.accepts draft.kind = true
  /-- The keyword's value has its form. -/
  keyword : ∀ id ∈ draft.keyword, ∀ p ∈ draft.kind.keywordProperty, u.HasForm p.value id
  /-- The other values have theirs. -/
  values : ∀ entry ∈ draft.values, ∃ p ∈ draft.kind.properties,
    p.key = entry.1 ∧ u.HasForm p.value entry.2
  /-- The keys of the values are distinct. -/
  nodup : (draft.values.map Prod.fst).Nodup
  /-- The keys of the values have been seen. -/
  seen : ∀ key ∈ draft.values.map Prod.fst, key ∈ draft.seen

/-- What has been built while the entries of a declaration are read. -/
def DraftRead (type : DeclarationType) (t : Tree) : Option (Option Draft) → Tree → Prop
  | some (some draft), u => draft.Typed type t u
  | _, u => t.Grown u

/-- While the entries are read, nodes are only added. -/
theorem DraftRead.grown {read : Option (Option Draft)} (h : DraftRead type t read u) :
    t.Grown u := by
  match read with
  | some (some draft) => exact h.made.toGrown
  | some none | none => exact h

/-- A draft of which nothing but the kind is known. -/
theorem Draft.typed_of_accepts {kind : Kind} (h : t.Grown u) (hkind : type.accepts kind = true) :
    ({ kind := kind } : Draft).Typed type t u where
  made := h.made
  accepts := hkind
  keyword := by simp
  values := by simp
  nodup := List.nodup_nil
  seen := by simp

/-- The value of a key of the draft's kind is added to the draft. -/
theorem post_property {value : ValueReader}
    (hvalue : ∀ kind, Yields (value kind) fun t id => t.HasForm kind id) {key : String}
    {known : Property} (h : draft.Typed type t s.build.tree)
    (hknown : draft.kind.property? key = some known) (hseen : known.key ∉ draft.seen) :
    Post (property value draft known) setting s (fun r u => DraftRead type t r u.build.tree)
      (Fails t) := by
  refine Post.bind ((hvalue known.value).after h.made) fun given u hu => ?_
  obtain ⟨hmade, hkeeps, hgiven⟩ := hu
  have hvalues : ∀ entry ∈ draft.values, ∃ p ∈ draft.kind.properties,
      p.key = entry.1 ∧ u.build.tree.HasForm p.value entry.2 := by
    intro entry hentry
    obtain ⟨p, hp, hkey, hform⟩ := h.values entry hentry
    exact ⟨p, hp, hkey, hkeeps.hasForm hform⟩
  have hseen' : ∀ key ∈ draft.values.map Prod.fst, key ∈ known.key :: draft.seen :=
    fun key hkey => List.mem_cons_of_mem _ (h.seen key hkey)
  -- The keyword has a place of its own in the draft; other values are listed with their keys.
  rcases Kind.property?_cases hknown with ⟨hkeyword, hrow⟩ | ⟨hkeyword, hmem⟩
  · simp only [hkeyword, if_true]
    cases given with
    | none => exact hmade.toGrown
    | some id =>
      refine ⟨hmade.mono ?_ ?_, h.accepts, ?_, hvalues, h.nodup, hseen'⟩
      · have hnodup := hmade.nodup
        rw [List.append_assoc] at hnodup
        exact List.perm_append_singleton id _ |>.nodup_iff.mp (List.nodup_append.mp hnodup).2.1
      · intro d hd
        simp only [Option.toList_some, List.singleton_append, List.mem_cons] at hd
        rcases hd with rfl | hd
        · simp
        · simp [hd]
      · intro d hd p hp
        cases hd
        cases Option.some_inj.mp (hrow.symm.trans hp)
        exact hgiven id rfl
  · simp only [hkeyword]
    have hold : ∀ id ∈ draft.keyword, ∀ p ∈ draft.kind.keywordProperty,
        u.build.tree.HasForm p.value id :=
      fun id hid p hp => hkeeps.hasForm (h.keyword id hid p hp)
    cases given with
    | none => exact ⟨by simpa using hmade, h.accepts, hold, by simpa using hvalues,
        by simpa using h.nodup, by simpa using hseen'⟩
    | some id =>
      refine ⟨?_, h.accepts, hold, ?_, ?_, ?_⟩
      · simpa using hmade
      · intro entry hentry
        rcases List.mem_append.mp hentry with hentry | hentry
        · exact hvalues entry hentry
        · rw [List.mem_singleton.mp hentry]
          exact ⟨known, hmem, rfl, hgiven id rfl⟩
      · -- Keys that have values have been seen, and this one has not.
        have hnew : known.key ∉ draft.values.map Prod.fst := fun hk => hseen (h.seen _ hk)
        simpa [List.nodup_append, h.nodup] using fun key v hv he => hnew
          (List.mem_map.mpr ⟨(key, v), hv, he⟩)
      · intro key hkey
        rw [List.map_append, List.mem_append] at hkey
        rcases hkey with hkey | hkey
        · exact hseen' key hkey
        · have heq : key = known.key := by simpa using hkey
          exact heq ▸ List.mem_cons_self

/-! ## From drafts to declarations -/

/-- A declaration binds what a draft has read, and a module without a version binds one that it was
given. -/
structure Draft.Binds (draft : Draft) (t : Tree) (d : Declaration) : Prop where
  /-- The declaration is of the draft's kind. -/
  kind : d.kind = draft.kind
  /-- What was read for a key is bound to it. -/
  bound : ∀ key child, draft.bound? key = some child → d.bound? key = some child
  /-- Nothing else is bound but a version. -/
  authored : ∀ key child, d.bound? key = some child → draft.bound? key = some child ∨
    (d.kind = .module ∧ key = "Version" ∧ t.IsText child)

/-- A declaration of the draft's kind has all keys for which something was read. -/
theorem Draft.Typed.hasProperty (h : draft.Typed type t u) (hd : d.kind = draft.kind) :
    ∀ entry ∈ draft.values, d.hasProperty entry.1 = true := by
  intro entry hentry
  obtain ⟨p, hp, hkey, -⟩ := h.values entry hentry
  exact hkey ▸ Declaration.hasProperty_of_mem (hd ▸ hp)

/-- All that a draft has read, bound to a new declaration. -/
theorem Draft.Typed.bound?_withAll (h : draft.Typed type t u)
    (hd : Declaration.new? draft.kind draft.keyword = some d) (key : String) :
    (d.withAll draft.values).bound? key = draft.bound? key := by
  obtain ⟨hkind, hkeyword, -, hunbound⟩ := Declaration.new?_eq_some hd
  rw [Declaration.bound?_withAll (h.hasProperty hkind) h.nodup, hunbound, Option.or_none, hkind,
    bound?]
  by_cases hkey : draft.kind.isKeyword key = true
  · have hsome : draft.kind.keyword = some key := by simpa [Kind.isKeyword] using hkey
    rw [if_pos hkey, if_pos hkey, (hkeyword (by rw [hsome]; rfl)).1]
  · rw [if_neg hkey, if_neg hkey]

/-- The draft is of a module that has no version. -/
def Draft.LacksVersion (draft : Draft) : Prop :=
  draft.kind = .module ∧ "Version" ∉ draft.seen

/-- Nothing was read for a version that is lacking. -/
theorem Draft.Typed.bound?_version (h : draft.Typed type t u) (hlacks : draft.LacksVersion) :
    draft.bound? "Version" = none := by
  obtain ⟨hkind, hseen⟩ := hlacks
  have hkeyword : ¬ draft.kind.isKeyword "Version" = true := by
    rw [hkind]
    decide
  rw [bound?, if_neg hkeyword, List.lookup_eq_none_iff]
  intro entry hentry
  simpa using fun heq : "Version" = entry.1 =>
    hseen (heq ▸ h.seen entry.1 (List.mem_map_of_mem hentry))

/-- A declaration binds what a draft has read and nothing else, but for the version that a module
without one is given. -/
structure Draft.Becomes (setting : Setting) (draft : Draft) (t : Tree) (d : Declaration) :
    Prop where
  /-- The declaration is of the draft's kind. -/
  kind : d.kind = draft.kind
  /-- What was read for a key is bound to it. -/
  bound : ∀ key, ¬ (draft.LacksVersion ∧ key = "Version") → d.bound? key = draft.bound? key
  /-- A version that is lacking is the one chosen in the options. -/
  version : draft.LacksVersion → ∃ id, d.bound? "Version" = some id ∧
    t.node? id = some (.expression (.literal (.string setting.options.defaultModuleVersion)))

/-- So a declaration binds what the draft has read, and maybe a version. -/
theorem Draft.Becomes.binds (h : draft.Becomes setting u d) {v w : Tree}
    (htyped : draft.Typed type v w) : draft.Binds u d where
  kind := h.kind
  bound key child hchild := by
    refine (h.bound key ?_).trans hchild
    rintro ⟨hlacks, rfl⟩
    simp [htyped.bound?_version hlacks] at hchild
  authored key child hchild := by
    by_cases hversion : draft.LacksVersion ∧ key = "Version"
    · obtain ⟨hlacks, rfl⟩ := hversion
      obtain ⟨id, hid, hnode⟩ := h.version hlacks
      obtain rfl : id = child := Option.some_inj.mp (hid.symm.trans hchild)
      exact Or.inr ⟨h.kind.trans hlacks.1, rfl, _, Tree.form?_of_node? hnode⟩
    · exact Or.inl ((h.bound key hversion).symm.trans hchild)

/-- A version is bound where there was none. -/
theorem Draft.Becomes.withVersion (hkind : d.kind = draft.kind)
    (hbound : ∀ key, d.bound? key = draft.bound? key) (hlacks : draft.LacksVersion)
    (hunbound : d.property? "Version" = none) {version : NodeId}
    (hversion : u.node? version
      = some (.expression (.literal (.string setting.options.defaultModuleVersion)))) :
    draft.Becomes setting u (d.withAll [("Version", version)]) := by
  have hmodule : d.kind = .module := hkind.trans hlacks.1
  have hkey : ∀ entry ∈ [("Version", version)], d.hasProperty entry.1 = true := by
    rw [List.forall_mem_singleton, Declaration.hasProperty_iff, hmodule]
    exact (by decide : "Version" ∈ Kind.module.propertyKeys)
  have hkeyword : ¬ d.kind.isKeyword "Version" = true := by
    rw [hmodule]
    decide
  have hbound' := Declaration.bound?_withAll hkey (List.nodup_singleton _)
  refine ⟨by simpa using hkind, fun key hother => ?_, fun _ => ⟨version, ?_, hversion⟩⟩
  · have hne : key ≠ "Version" := fun heq => hother ⟨hlacks, heq⟩
    rw [hbound', List.lookup_cons, beq_eq_false_iff_ne.mpr hne, ← hbound key, Declaration.bound?]
    simp
  · rw [hbound', if_neg hkeyword]
    simp [hunbound]

end Parse

end InfraModule
