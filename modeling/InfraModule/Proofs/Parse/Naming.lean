import InfraModule.Proofs.Parse.Binding
import InfraModule.Proofs.Parse.Freshness
import InfraModule.Proofs.Tree.FullName

/-!
# Names in what is read

Where the options demand it, a list of declarations takes no second item of a name (`Items.Apart`).
So no two items of any list of a module that was read share a name, whatever was reported
(`separates_valueWithin`), and no two of its items share a path. Full names are another matter: a
name may hold the `::` that joins names. Without such names full names tell items apart, and what
references are bound to does not depend on the order of the items (`Document.items_unambiguous`).
-/

namespace InfraModule

open ParseM

namespace Parse

variable {setting : Setting} {s u : ParseState} {t : Tree} {type : DeclarationType} {id : NodeId}
  {draft : Draft} {value : ValueReader} {P : Tree → NodeId → Prop}

/-- In trees that were built from nothing, no two items of a list in what the reader gives share a
name. -/
def Separates (setting : Setting) (m : ParseM (Option NodeId)) : Prop :=
  ∀ s, Tree.Grown {} s.build.tree →
    Ensures m setting s fun given u => ∀ id ∈ given, u.build.tree.Apart id

/-! ## Drafts -/

/-- The nodes of a draft. -/
def Draft.nodes (draft : Draft) : List NodeId :=
  draft.keyword.toList ++ draft.values.map Prod.snd

/-- What was read for a key is a node of the draft. -/
theorem Draft.mem_nodes {key : String} (h : draft.bound? key = some id) : id ∈ draft.nodes := by
  rw [Draft.bound?] at h
  split at h
  · exact List.mem_append_left _ (Option.mem_toList.mpr h)
  · refine List.mem_append_right _ (List.mem_map.mpr ⟨(key, id), ?_, rfl⟩)
    obtain ⟨before, after, hsplit, -⟩ := List.lookup_eq_some_iff.mp h
    exact hsplit ▸ List.mem_append_right before List.mem_cons_self

/-- No two items of a list in what has been read share a name. -/
def ReadApart (t : Tree) : Option (Option Draft) → Prop
  | some (some draft) => ∀ id ∈ draft.nodes, t.Apart id
  | _ => True

/-- What has been read stays apart while the tree grows. -/
theorem Draft.Typed.readApart {u : Tree} (h : draft.Typed type {} t)
    (hapart : ∀ id ∈ draft.nodes, t.Apart id) (hgrown : t.Grown u) :
    ∀ id ∈ draft.nodes, u.Apart id := fun id hid =>
  (hapart id hid).of_retains hgrown.sound_before hgrown.sound hgrown.retains (h.made.root id hid).1

section Entries

variable (hyields : ∀ kind, Yields (value kind) fun t id => t.HasForm kind id)
  (hseparates : ∀ kind, Separates setting (value kind))

include hyields hseparates

/-- What is read for a key is apart. -/
theorem ensures_property {known : Property} (h : draft.Typed type {} s.build.tree)
    (hapart : ∀ id ∈ draft.nodes, s.build.tree.Apart id) :
    Ensures (property value draft known) setting s fun r u => ReadApart u.build.tree r := by
  refine Post.bind ((hyields known.value setting s h.made.sound).ensures.and
    (hseparates known.value s h.made.toGrown)) fun given u hu => ?_
  obtain ⟨hgave, hgiven⟩ := hu
  have hold := h.readApart hapart hgave.made.toGrown
  dsimp only
  split
  · cases given with
    | none => trivial
    | some id =>
      intro i hi
      rcases List.mem_append.mp hi with hi | hi
      · exact hgiven i (Option.mem_toList.mp hi)
      · exact hold i (List.mem_append_right _ hi)
  · intro i hi
    rw [Draft.nodes, List.map_append, ← List.append_assoc] at hi
    rcases List.mem_append.mp hi with hi | hi
    · exact hold i hi
    · refine hgiven i ?_
      cases given with
      | none => simp at hi
      | some id => simpa [eq_comm] using hi

/-- What is done for a key keeps what has been read apart. -/
theorem ensures_entry {read : Option Draft} (h : DraftRead type {} (some read) s.build.tree)
    (hapart : ReadApart s.build.tree (some read)) :
    Ensures (entry type value read) setting s fun r u => ReadApart u.build.tree r := by
  unfold entry
  refine Post.bind (spares_key setting s).ensures fun k u hu => ?_
  rw [← hu] at h hapart
  cases k with
  | none => exact hapart
  | some k =>
    have hskip (message : String) (r : Option (Option Draft)) (hr : ReadApart u.build.tree r) :
        Ensures (do report message k.location; skip; return r) setting u
          fun r v => ReadApart v.build.tree r := by
      refine Post.bind (Spares.report message k.location setting u).ensures fun _ v hv => ?_
      refine Post.bind (Spares.skip setting v).ensures fun _ w hw => ?_
      rw [← hv, ← hw] at hr
      exact hr
    dsimp only
    split
    · exact hskip _ none trivial
    · next draft hdraft =>
      -- The first key starts a draft without nodes; later keys find the draft.
      have hdraftApart : draft.Typed type {} u.build.tree ∧
          ∀ id ∈ draft.nodes, u.build.tree.Apart id := by
        cases read with
        | some read =>
          cases hdraft
          exact ⟨h, hapart⟩
        | none =>
          obtain ⟨kind, hkind, rfl⟩ := Option.map_eq_some_iff.mp hdraft
          exact ⟨Draft.typed_of_accepts h (DeclarationType.accepts_of_resolveFirst hkind),
            by simp [Draft.nodes]⟩
      split
      · exact hskip _ (some (some draft)) hdraftApart.2
      · split
        · exact hskip _ (some (some draft)) hdraftApart.2
        · exact ensures_property hyields hseparates hdraftApart.1 hdraftApart.2

/-! ## One declaration -/

omit hyields hseparates in
/-- What a typed draft becomes is apart. -/
theorem ensures_finish (h : draft.Typed type {} s.build.tree)
    (hapart : ∀ id ∈ draft.nodes, s.build.tree.Apart id) (start l : Location) :
    Ensures (finish draft start l) setting s
      fun given u => ∀ id ∈ given, u.build.tree.Apart id := by
  refine (post_finish h start l).ensures.mono fun given u hu id hid => ?_
  obtain ⟨hgave, hfinished⟩ := hu
  cases hid
  obtain ⟨hretains, d, hnode, hbinds⟩ := hfinished
  have hsound : u.build.tree.Sound := hgave.made.sound
  -- It owns what was read, and a version if it was given one.
  refine Tree.Apart.of_children hsound hnode (by simp) fun c hc => ?_
  obtain ⟨key, hkey⟩ := Declaration.exists_bound?_of_mem_children hc
  rcases hbinds.authored key c hkey with hbound | ⟨-, -, htext⟩
  · have hmem := Draft.mem_nodes hbound
    exact (hapart c hmem).of_retains h.made.sound hsound hretains (h.made.root c hmem).1
  · obtain ⟨e, he⟩ := htext.isValue.exists_expression
    exact .of_expression hsound hgave.made.toGrown.all_typed he

omit hyields hseparates in
/-- A draft without entries has no nodes. -/
theorem nodes_emptyDraft (start : Location) : Ensures (emptyDraft type start) setting s
    fun given _ => ∀ draft ∈ given, draft.nodes = [] := by
  unfold emptyDraft
  split
  · split
    · rintro draft ⟨⟩
      rfl
    · exact Post.bind (spares_reportMissing _ start setting s).ensures fun _ _ _ => by simp
  · exact Post.bind (Spares.report _ start setting s).ensures fun _ _ _ => by simp

/-- Whatever is wrong with its entries, a declaration that is made is apart. -/
theorem ensures_declarationBody (htakes : ∀ kind, Takes (value kind)) (start : Location)
    (hs : Tree.Grown {} s.build.tree) : Ensures (declarationBody type value start) setting s
      fun given u => ∀ id ∈ given, u.build.tree.Apart id := by
  unfold declarationBody
  refine Post.bind (ensures_foldUntilClose
    (I := fun r u => DraftRead type {} r u.build.tree ∧ ReadApart u.build.tree r)
    (fun read s => turns_entry htakes type read)
    (fun read u hu => (post_entry hyields hu.1).ensures.and
      (ensures_entry hyields hseparates hu.1 hu.2)) none ⟨hs, trivial⟩) fun r u hu => ?_
  obtain ⟨⟨hread, hapart⟩, -⟩ := hu
  cases r with
  | none =>
    refine Post.bind (spares_skipEntries setting u).ensures fun _ v _ => ?_
    exact Post.bind (Spares.advance setting v).ensures fun _ _ _ => by simp
  | some read =>
    refine Post.bind (Spares.closeFrom start setting u).ensures fun l v hv => ?_
    rw [← hv] at hread hapart
    cases read with
    | some draft => exact ensures_finish hread hapart start l
    | none =>
      refine Post.bind ((post_emptyDraft start hread).ensures.and (nodes_emptyDraft start))
        fun draft w hw => ?_
      cases draft with
      | none => simp
      | some draft =>
        have hnil : draft.nodes = [] := hw.2 draft rfl
        exact ensures_finish hw.1 (by simp [hnil]) start l

end Entries

/-! ## Lists of declarations -/

/-- No two items of a list share a name, and the names of all items are taken. -/
structure Items.Apart (t : Tree) (items : Items) : Prop where
  /-- What stands in an item is apart. -/
  each : ∀ id ∈ items.ids, t.Apart id
  /-- The names of the items are distinct. -/
  nodup : (items.ids.filterMap t.itemName?).Nodup
  /-- The names of the items are taken. -/
  taken : ∀ name ∈ items.ids.filterMap t.itemName?, name ∈ items.names

namespace Items.Apart

variable {items : Items} {name : String}

/-- No items are apart. -/
theorem nil (t : Tree) : ({} : Items).Apart t where
  each := by simp
  nodup := List.nodup_nil
  taken := by simp

/-- Items stay apart while the tree grows. -/
theorem grow {u : Tree} (h : items.Apart t) (htyped : items.Typed type {} t)
    (hgrown : t.Grown u) : items.Apart u := by
  have hlt {id : NodeId} (hid : id ∈ items.ids) : id < t.size := (htyped.made.root id hid).1
  have hnames : items.ids.filterMap u.itemName? = items.ids.filterMap t.itemName? :=
    List.filterMap_congr fun id hid => hgrown.retains.itemName? hgrown.sound_before (hlt hid)
  refine ⟨fun id hid => ?_, hnames ▸ h.nodup, hnames ▸ h.taken⟩
  exact (h.each id hid).of_retains hgrown.sound_before hgrown.sound hgrown.retains (hlt hid)

/-- What has no name that could be taken is added. -/
theorem append_unnamed (h : items.Apart t) (hid : t.Apart id) (hname : t.itemName? id = none) :
    ({ items with ids := items.ids ++ [id] } : Items).Apart t := by
  have hnames : (items.ids ++ [id]).filterMap t.itemName? = items.ids.filterMap t.itemName? := by
    simp [List.filterMap_append, hname]
  refine ⟨?_, by rw [hnames]; exact h.nodup, by rw [hnames]; exact h.taken⟩
  exact List.forall_mem_append.mpr ⟨h.each, by simpa using hid⟩

/-- An item of which the name is not taken is added, and takes it. -/
theorem append_named (h : items.Apart t) (hid : t.Apart id) (hname : t.itemName? id = some name)
    (hnew : name ∉ items.names) :
    ({ ids := items.ids ++ [id], names := name :: items.names } : Items).Apart t := by
  have hnames : (items.ids ++ [id]).filterMap t.itemName?
      = items.ids.filterMap t.itemName? ++ [name] := by
    simp [List.filterMap_append, hname]
  refine ⟨List.forall_mem_append.mpr ⟨h.each, by simpa using hid⟩, ?_, ?_⟩
  · rw [hnames]
    exact h.nodup.append (List.nodup_singleton _)
      (by simpa using fun hmem => hnew (h.taken name hmem))
  · rw [hnames]
    intro other hother
    rcases List.mem_append.mp hother with hother | hother
    · exact List.mem_cons_of_mem name (h.taken other hother)
    · rw [List.mem_singleton.mp hother]
      exact List.mem_cons_self

end Items.Apart

section Lists

variable (henforce : setting.options.enforceUniqueNames = true)

include henforce

/-- The name that no other item of the list may have is that of an item. -/
theorem ensures_uniqueName? (id : NodeId) : Ensures (uniqueName? id) setting s
    fun name u => u.build.tree = s.build.tree ∧ name = s.build.tree.itemName? id := by
  unfold uniqueName? Tree.itemName?
  simp only [Ensures, post_bind, post_get, post_read, henforce, true_and]
  split
  · exact ⟨rfl, rfl⟩
  · exact ⟨rfl, rfl⟩

/-- An element is added to the items unless its name is taken. -/
theorem ensures_element {declaration : ParseM (Option NodeId)} {items : Items}
    (hyields : Yields declaration fun t id => t.IsDeclaration type id)
    (hseparates : Separates setting declaration) (h : items.Typed type {} s.build.tree)
    (hapart : items.Apart s.build.tree) : Ensures (element declaration items) setting s
      fun r u => (r.getD {}).Apart u.build.tree := by
  unfold element
  refine Post.bind ((hyields setting s h.made.sound).ensures.and (hseparates s h.made.toGrown))
    fun given u hu => ?_
  obtain ⟨hgave, hgiven⟩ := hu
  have hold : items.Apart u.build.tree := hapart.grow h hgave.made.toGrown
  cases given with
  | none => exact hold
  | some id =>
    have hid := hgiven id rfl
    refine Post.bind (ensures_uniqueName? henforce id) fun name v hv => ?_
    obtain ⟨htree, hname⟩ := hv
    rw [← htree] at hold hid hname
    cases name with
    | none => exact hold.append_unnamed hid hname.symm
    | some name =>
      dsimp only
      split
      · exact hold
      · next hnew => exact hold.append_named hid hname.symm hnew

/-- The items of a list are apart in the end. -/
theorem ensures_listBody {declaration : ParseM (Option NodeId)} (htakes : Takes declaration)
    (hyields : Yields declaration fun t id => t.IsDeclaration type id)
    (hseparates : Separates setting declaration) (start : Location)
    (hs : Tree.Grown {} s.build.tree) : Ensures (listBody declaration start) setting s
      fun r u => (∀ id ∈ r.1, u.build.tree.Apart id) ∧
        (r.1.filterMap u.build.tree.itemName?).Nodup := by
  unfold listBody
  refine Post.bind (ensures_foldUntilClose
    (I := fun r u => (r.getD {}).Typed type {} u.build.tree ∧ (r.getD {}).Apart u.build.tree)
    (fun items s => turns_element htakes items)
    (fun items u hu => (post_element hyields hu.1).ensures.and
      (ensures_element henforce hyields hseparates hu.1 hu.2)) {}
    ⟨⟨hs.made, by simp⟩, Items.Apart.nil _⟩) fun r u hu => ?_
  refine Post.bind (Spares.closeFrom start setting u).ensures fun l v hv => ?_
  have hitems : (r.getD {}).Apart v.build.tree := hv ▸ hu.1.2
  exact ⟨hitems.each, hitems.nodup⟩

end Lists

/-- A list over items that are apart is apart. -/
theorem ensures_collection {ids : List NodeId} (hmade : Tree.Made {} s.build.tree ids)
    (heach : ∀ id ∈ ids, s.build.tree.Apart id)
    (hnodup : (ids.filterMap s.build.tree.itemName?).Nodup) (l : Location) :
    Ensures (some <$> add (.collection ids) l) setting s
      fun given u => ∀ id ∈ given, u.build.tree.Apart id := by
  have hchildren : Tree.Made {} s.build.tree ((Node.collection ids).children ++ []) := by
    rw [List.append_nil]
    exact hmade
  have hlt {id : NodeId} (hid : id ∈ ids) : id < s.build.tree.size := (hmade.root id hid).1
  refine post_map.mpr ((post_add hchildren rfl trivial l).mono (fun id u hu => ?_) fun _ _ h => h)
  obtain ⟨hmade', hretains, -, hnode⟩ := hu
  have hsound : u.build.tree.Sound := hmade'.sound
  rintro x ⟨⟩
  refine .of_children hsound hnode (fun items hitems => ?_) fun c hc => ?_
  · cases hitems
    have hnames : ids.filterMap u.build.tree.itemName? = ids.filterMap s.build.tree.itemName? :=
      List.filterMap_congr fun i hi => hretains.itemName? hmade.sound (hlt hi)
    rwa [hnames]
  · exact (heach c hc).of_retains hmade.sound hsound hretains (hlt hc)

/-! ## All shapes -/

/-- A reader of an untagged container need make something apart only where the container starts. -/
theorem separates_plain_here {container : Container} {body : Location → ParseM (Option NodeId)}
    (hbody : ∀ start s, Tree.Grown {} s.build.tree → Ensures (body start) setting s
      fun given u => ∀ id ∈ given, u.build.tree.Apart id) :
    Separates setting (plain container (here >>= body)) := by
  intro s hs
  unfold plain atPlain
  rw [Ensures, post_bind]
  refine post_bind_current (fun _ => trivial) fun e es hevents => ?_
  rw [post_pure]
  by_cases hkind : e.kind = container.plainStart
  · simp only [hkind, decide_true, if_true]
    refine Post.bind (Spares.here setting s).ensures fun start u hu => ?_
    exact hbody start u (hu ▸ hs)
  · simp only [hkind, decide_false]
    -- What is refused gives nothing.
    exact (Yields.refuse (P := fun _ _ => False) _ setting s hs.sound).ensures.mono
      fun _ _ hu id hid => (hu.form id hid).elim

/-- Where a value is too deep there are no items. -/
theorem separates_tooDeep : Separates setting tooDeep := fun s hs =>
  (Yields.tooDeep (P := fun _ _ => False) setting s hs.sound).ensures.mono
    fun _ _ hu id hid => (hu.form id hid).elim

/-- Values other than declarations and lists of them hold no items. -/
theorem separates_of_yields {m : ParseM (Option NodeId)} {kind : ValueKind}
    (hm : Yields m fun t id => t.HasForm kind id) (hdeclaration : ∀ type, kind ≠ .declaration type)
    (hlist : ∀ type, kind ≠ .declarationList type) : Separates setting m := fun s hs =>
  (hm setting s hs.sound).ensures.mono fun _ _ hu id hid =>
    .of_hasForm hu.made.sound (hs.trans hu.made.toGrown).all_typed (hu.form id hid) hdeclaration
      hlist

/-- Whatever the shape, no two items of a list in a value of the schema table share a name. -/
theorem separates_valueWithin (henforce : setting.options.enforceUniqueNames = true) (levels : Nat)
    (kind : ValueKind) : Separates setting (valueWithin levels kind) := by
  have hother (levels : Nat) (kind : ValueKind) (hdeclaration : ∀ type, kind ≠ .declaration type)
      (hlist : ∀ type, kind ≠ .declarationList type) :
      Separates setting (valueWithin levels kind) :=
    separates_of_yields (yields_valueWithin levels kind) hdeclaration hlist
  induction levels generalizing kind with
  | zero =>
    cases kind with
    | declaration type => exact separates_plain_here fun _ s hs => separates_tooDeep s hs
    | declarationList type => exact separates_plain_here fun _ s hs => separates_tooDeep s hs
    | _ => exact hother _ _ (by simp) (by simp)
  | succ levels ih =>
    cases kind with
    | declaration type =>
      refine separates_plain_here fun start s hs => post_nested.mpr ?_
      exact ensures_declarationBody (yields_valueWithin levels) ih (takes_valueWithin levels) start
        hs
    | declarationList type =>
      refine separates_plain_here fun start s hs => ?_
      have hyields := yields_valueWithin levels (.declaration type)
      have htakes := takes_valueWithin levels (.declaration type)
      have hbody (v : ParseState) (hv : Tree.Grown {} v.build.tree) :=
        ((post_listBody htakes hyields start hv).ensures.and
          (ensures_listBody henforce htakes hyields (ih (.declaration type)) start hv)).mono
          fun _ _ hu => And.intro hu.1.1 hu.2
      refine Post.bind (Q := fun r v => Tree.Made {} v.build.tree r.1 ∧
        (∀ id ∈ r.1, v.build.tree.Apart id) ∧ (r.1.filterMap v.build.tree.itemName?).Nodup)
        (post_nested.mpr (hbody { s with events := s.events.tail, depth := s.depth + 1 } hs))
        fun r v hv => ?_
      exact ensures_collection hv.1 hv.2.1 hv.2.2 r.2
    | _ => exact hother _ _ (by simp) (by simp)

/-- No two items of a list of the module share a name. -/
theorem ensures_readModule (henforce : setting.options.enforceUniqueNames = true)
    (events : List Event) : Ensures Document.readModule setting { events }
      fun root u => ∀ id ∈ root, u.build.tree.Apart id := by
  unfold Document.readModule
  refine Post.bind (spares_start setting _).ensures fun _ s hs => ?_
  have hgrown : Tree.Grown {} s.build.tree := hs ▸ Tree.Grown.refl Tree.sound_empty
  have hread : Ensures (declaration (.concrete .module)) setting s
      fun root u => ∀ id ∈ root, u.build.tree.Apart id :=
    Post.bind (Spares.levels setting s).ensures fun levels u hu =>
      separates_valueWithin henforce levels _ u (hu ▸ hgrown)
  refine Post.bind hread fun root u hu => ?_
  refine Post.bind (spares_finishDocument setting u).ensures fun _ v hv => ?_
  rw [← hv] at hu
  exact hu

end Parse

/-! ## Documents -/

open InfraModule.Tree

namespace Document

variable {setting : Setting} {events : List Event} {d : Document} {root : NodeId}

/-- A document is what was read of its module, with references bound. -/
theorem exists_of_ofEvents (h : ofEvents setting events = .ok d) : ∃ u unresolved,
    readModule setting { events } = .ok d.root u ∧
      link setting.options d.root u.build.tree = .ok unresolved d.tree := by
  unfold ofEvents at h
  split at h
  · cases h
  · next root u hread =>
    split at h
    · cases h
    · next unresolved t hlink =>
      cases h
      exact ⟨u, unresolved, hread, hlink⟩

/-- The module of a document was read as one in which no two items of a list share a name. What its
references are bound to, if anything, is what their names were found as. -/
theorem exists_module (henforce : setting.options.enforceUniqueNames = true)
    (hd : ofEvents setting events = .ok d) (hroot : d.root = some root) :
    ∃ t : Tree, t.ModuleAt root ∧ t.Apart root ∧ t.SameButTargets d.tree ∧
      ∀ e ∈ t.references root, ∃ name, t.referenceName? e = some name ∧
        d.tree.target? e = if setting.options.linkReferences
          then t.lookUp (t.namedItems root) e name else none := by
  obtain ⟨u, unresolved, hread, hlink⟩ := exists_of_ofEvents hd
  rw [hroot] at hread hlink
  have hgave := (Parse.yields_readModule setting { events } sound_empty).of_ok hread
  have hapart := (Parse.ensures_readModule henforce events).of_ok hread
  have hmade : Made {} u.build.tree [root] := hgave.made
  have ht : u.build.tree.Sound := hmade.sound
  refine ⟨u.build.tree, ⟨ht, hmade.toGrown.all_typed, hgave.form root rfl,
    (hmade.root root List.mem_cons_self).2⟩, hapart root rfl, ?_⟩
  -- The tag of a reference demands a name.
  have hname {e : NodeId} (he : e ∈ u.build.tree.references root) :
      ∃ name, u.build.tree.referenceName? e = some name := by
    obtain ⟨n, hn, href, -⟩ := ht.node?_of_mem_references he
    have htyped : u.build.tree.WellTyped n := hmade.toGrown.all_typed e n hn
    exact Option.isSome_iff_exists.mp (htyped.isSome_referenceName? hn href)
  rw [link] at hlink
  split at hlink
  · next hbinds =>
    obtain ⟨v, hv, hsame, -, htarget, -⟩ :=
      TreeM.linkReferences_ok root ht (SameButTargets.refl _) ht
    cases hlink.symm.trans hv
    refine ⟨hsame, fun e he => ?_⟩
    obtain ⟨name, hename⟩ := hname he
    exact ⟨name, hename, by rw [htarget, if_pos he, boundTo?_of_name hename, if_pos hbinds]⟩
  · next hbinds =>
    have htree : u.build.tree = d.tree := (EStateM.Result.ok.inj hlink).2
    rw [← htree]
    refine ⟨SameButTargets.refl _, fun e he => ?_⟩
    obtain ⟨name, hename⟩ := hname he
    exact ⟨name, hename, by rw [hmade.unbound e (Nat.zero_le e), if_neg hbinds]⟩

/-- Where the options demand unique names, no two items of a module share a path, whatever was
reported. If no item has `::` in its name, and no group a name that ends with `:`, then no two items
share a full name either. And the order of the items is of no account then: in any other such
document that has items of the same full names and kinds, in whatever order, a reference of the same
name and form in the same groups is bound to the item of the same path. -/
theorem items_unambiguous (henforce : setting.options.enforceUniqueNames = true)
    (hd : ofEvents setting events = .ok d) (hroot : d.root = some root) :
    (∀ x, d.tree.ItemOf root x → (d.tree.path? x).isSome = true) ∧
    (∀ x y, d.tree.ItemOf root x → d.tree.ItemOf root y →
      d.tree.path? x = d.tree.path? y → x = y) ∧
    (d.tree.PlainNames root →
      (∀ x y, d.tree.ItemOf root x → d.tree.ItemOf root y →
        d.tree.fullName? x = d.tree.fullName? y → x = y) ∧
      ∀ events' d' root', ofEvents setting events' = .ok d' → d'.root = some root' →
        d'.tree.PlainNames root' → (d'.tree.namedKinds root').Perm (d.tree.namedKinds root) →
        ∀ e ∈ d.tree.references root, ∀ e' ∈ d'.tree.references root',
          d'.tree.referenceName? e' = d.tree.referenceName? e →
          d'.tree.scopePath e' = d.tree.scopePath e →
          d'.tree.bindsConditionsOnly e' = d.tree.bindsConditionsOnly e →
          (d'.tree.target? e').bind d'.tree.path? = (d.tree.target? e).bind d.tree.path?) := by
  obtain ⟨t, ht, hapart, hsame, htarget⟩ := exists_module henforce hd hroot
  rw [hsame.itemOf, hsame.path?, hsame.fullName?, hsame.plainNames]
  refine ⟨fun x hx => ?_, fun x y hx hy => hapart.path_injective ht hx hy, fun hplain => ?_⟩
  · obtain ⟨name, hname⟩ := ht.exists_declarationName? hx.2
    rw [path?, hname]
    rfl
  have hlegible : t.Legible root := ⟨ht, hapart, hplain⟩
  refine ⟨fun x y hx hy => hlegible.fullName_injective hx hy, ?_⟩
  intro events' d' root' hd' hroot' hplain' hitems e he e' he' hname hscope hconditions
  obtain ⟨t', ht', hapart', hsame', htarget'⟩ := exists_module henforce hd' hroot'
  rw [hsame'.plainNames] at hplain'
  rw [hsame'.namedKinds, hsame.namedKinds] at hitems
  rw [hsame.references] at he
  rw [hsame'.references] at he'
  rw [hsame'.referenceName?, hsame.referenceName?] at hname
  rw [hsame'.scopePath, hsame.scopePath] at hscope
  rw [hsame'.bindsConditionsOnly, hsame.bindsConditionsOnly] at hconditions
  obtain ⟨name, hename, hbound⟩ := htarget e he
  obtain ⟨name', hename', hbound'⟩ := htarget' e' he'
  obtain rfl : name' = name := Option.some_inj.mp (hename'.symm.trans (hname.trans hename))
  rw [hsame'.path?, hbound, hbound']
  split
  · exact hlegible.lookUp_path? ⟨ht', hapart', hplain'⟩ hitems hscope hconditions
  · rfl

/-- A text that stands somewhere. -/
def sampleText (text : String) : Source :=
  .scalar ⟨default, default⟩ none text

/-- A sequence of declarations that stands somewhere. -/
def sampleItems (items : List Source) : Source :=
  .sequence ⟨default, default⟩ ⟨default, default⟩ none items

/-- A declaration that stands somewhere and has one key beside its keyword. -/
def sampleDeclaration (keyword name key : String) (value : Source) : Source :=
  .mapping ⟨default, default⟩ ⟨default, default⟩ none
    [(sampleText keyword, sampleText name), (sampleText key, value)]

/-- The events of a document with a module that has these items. -/
def sampleEvents (items : List Source) : List Event :=
  let span : Span := ⟨default, default⟩
  .over span .streamStart :: .over span .documentStart ::
    ((sampleDeclaration "Module" "m" "Items" (sampleItems items)).events
      ++ [.over span .documentEnd, .over span .streamEnd])

/-- An item in a group and one beside the group share a name. A reference to the one in the group is
bound to it in whatever order the three stand. -/
theorem items_unambiguous_beside_group :
    let group := sampleDeclaration "Group" "G" "Items"
      (sampleItems [sampleDeclaration "Variable" "x" "Value" (sampleText "1")])
    let other := sampleDeclaration "Variable" "x" "Value" (sampleText "2")
    let reference := sampleDeclaration "Variable" "r" "Value"
      (.scalar ⟨default, default⟩ (some "!Ref") "G::x")
    ∃ d d', ofEvents ⟨"m.yml", {}⟩ (sampleEvents [group, other, reference]) = .ok d ∧
      ofEvents ⟨"m.yml", {}⟩ (sampleEvents [reference, other, group]) = .ok d' ∧
      (∀ x y, d.tree.ItemOf 15 x → d.tree.ItemOf 15 y →
        d.tree.path? x = d.tree.path? y → x = y) ∧
      (∀ x y, d.tree.ItemOf 15 x → d.tree.ItemOf 15 y →
        d.tree.fullName? x = d.tree.fullName? y → x = y) ∧
      (d'.tree.target? 3).bind d'.tree.path? = (d.tree.target? 12).bind d.tree.path? ∧
      (d.tree.target? 12).bind d.tree.path? = some ["G", "x"] := by
  intro group other reference
  have hread : ∃ d ∈ (ofEvents ⟨"m.yml", {}⟩ (sampleEvents [group, other, reference])).toOption,
      ∃ d' ∈ (ofEvents ⟨"m.yml", {}⟩ (sampleEvents [reference, other, group])).toOption,
        d.root = some 15 ∧ d'.root = some 15 ∧ d.tree.PlainNames 15 ∧ d'.tree.PlainNames 15 ∧
        (d'.tree.namedKinds 15).Perm (d.tree.namedKinds 15) ∧ 12 ∈ d.tree.references 15 ∧
        3 ∈ d'.tree.references 15 ∧ d'.tree.referenceName? 3 = d.tree.referenceName? 12 ∧
        d'.tree.scopePath 3 = d.tree.scopePath 12 ∧
        d'.tree.bindsConditionsOnly 3 = d.tree.bindsConditionsOnly 12 ∧
        (d.tree.target? 12).bind d.tree.path? = some ["G", "x"] := by decide +kernel
  have hok {events : List Event} {d : Document}
      (h : d ∈ (ofEvents ⟨"m.yml", {}⟩ events).toOption) :
      ofEvents ⟨"m.yml", {}⟩ events = .ok d := by
    cases hresult : ofEvents ⟨"m.yml", {}⟩ events with
    | error e => simp [hresult, Except.toOption] at h
    | ok d' => simpa [hresult, Except.toOption] using h
  obtain ⟨d, hd, d', hd', hroot, hroot', hplain, hplain', hitems, he, he', hname, hscope,
    hconditions, hpath⟩ := hread
  obtain ⟨-, hpaths, hplainly⟩ := items_unambiguous rfl (hok hd) hroot
  obtain ⟨hnames, horder⟩ := hplainly hplain
  exact ⟨d, d', hok hd, hok hd', hpaths, hnames, horder _ d' 15 (hok hd') hroot' hplain' hitems 12
    he 3 he' hname hscope hconditions, hpath⟩

/-- An item may have the full name of an item of a group without any mistake. What a reference of
that name is bound to depends on which of the two comes first. -/
theorem full_name_ambiguous :
    let group := sampleDeclaration "Group" "G" "Items"
      (sampleItems [sampleDeclaration "Variable" "x" "Value" (sampleText "1")])
    let other := sampleDeclaration "Variable" "G::x" "Value" (sampleText "2")
    let reference := sampleDeclaration "Variable" "r" "Value"
      (.scalar ⟨default, default⟩ (some "!Ref") "G::x")
    let setting : Setting := ⟨"m.yml", {}⟩
    setting.options.enforceUniqueNames = true ∧
    ∃ d ∈ (ofEvents setting (sampleEvents [group, other, reference])).toOption,
      d.diagnostics.toList = [] ∧ d.root = some 15 ∧ d.tree.ItemOf 15 4 ∧ d.tree.ItemOf 15 9 ∧
      d.tree.fullName? 4 = some "G::x" ∧ d.tree.fullName? 9 = some "G::x" ∧
      (d.tree.target? 12).bind d.tree.path? = some ["G", "x"] ∧
    ∃ d' ∈ (ofEvents setting (sampleEvents [other, group, reference])).toOption,
      d'.diagnostics.toList = [] ∧ d'.tree.references 15 = [12] ∧
      (d'.tree.target? 12).bind d'.tree.path? = some ["G::x"] := by
  decide +kernel

end Document

end InfraModule
