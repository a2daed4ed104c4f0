import InfraModule.Proofs.Parse.Mapping
import InfraModule.Proofs.Parse.Naming

/-!
# The elements of a list of declarations

What a list of declarations comes to is told from its elements alone: each is read by itself and
placed behind those before it (`Parse.elements`), and of those that give a declaration one is left
out only if it takes a name that one before it took (`Element.keep`). In the loop over the elements
the items are those kept so far, by induction on the elements that are left.
-/

namespace InfraModule

open ParseM

/-- What is built behind something is built and told behind it. -/
theorem Build.graft_eq (b c : Build) :
    b.graft c = { b with tree := b.tree.graft c.tree }.tell c.diagnostics.toList := by
  simp [Build.graft, Build.tell, Diagnostics.toList]

namespace Parse

/-! ## What elements come to -/

/-- What an element of a list of declarations comes to where it stands. -/
structure Element where
  /-- The declaration, if the element gives one. -/
  given : Option NodeId
  /-- The name that the declaration takes in the list, if it takes one. -/
  name : Option String
  /-- The span of the declaration. -/
  location : Location
  /-- What is told of the element by itself. -/
  told : List Diagnostic

namespace Element

/-- What an element comes to alone, placed behind a tree. Items take their names where the options
demand that names are unique. -/
def place (setting : Setting) (t : Tree) (alone : Option NodeId × Build) : Element where
  given := alone.1.map t.shift
  name := if setting.options.enforceUniqueNames then alone.1.bind alone.2.tree.itemName? else none
  location := (alone.1.bind alone.2.tree.location?).getD default
  told := alone.2.diagnostics.toList

/-- The name that the element takes, if one of those that were kept has it. -/
def repeated? (kept : List Element) (e : Element) : Option String :=
  e.name.filter (· ∈ kept.filterMap name)

/-- What is kept with one more element. Without a declaration it is left out, and so is a
declaration whose name is taken. -/
def keep (kept : List Element) (e : Element) : List Element :=
  if e.given.isSome ∧ e.repeated? kept = none then kept ++ [e] else kept

/-- What is told of an element, behind some that were kept. -/
def mistakes (kept : List Element) (e : Element) : List Diagnostic :=
  e.told ++ (e.repeated? kept).toList.map fun name =>
    ⟨.error, s!"duplicate item name '{name}'", e.location⟩

end Element

/-- What is told of elements, behind some that were kept. -/
def elementMistakes (kept : List Element) : List Element → List Diagnostic
  | [] => []
  | e :: found => e.mistakes kept ++ elementMistakes (e.keep kept) found

/-- What elements come to one by one, each placed behind those before it. -/
def elements (setting : Setting) (depth : Nat) (type : DeclarationType) (t : Tree) :
    List Source → List Element
  | [] => []
  | a :: items =>
    let read := alone setting depth (.declaration type) a
    .place setting t read :: elements setting depth type (t.graft read.2.tree) items

/-- The tree in which all elements have been placed. -/
def afterElements (setting : Setting) (depth : Nat) (type : DeclarationType) (t : Tree) :
    List Source → Tree
  | [] => t
  | a :: items =>
    afterElements setting depth type (t.graft (alone setting depth (.declaration type) a).2.tree)
      items

/-! ## Names that are taken -/

namespace Element

variable {kept found : List Element} {e : Element} {name : String}

/-- The name of an element is new if and only if none of those that were kept has it. -/
theorem repeated?_eq_none :
    e.repeated? kept = none ↔ ∀ name ∈ e.name, name ∉ kept.filterMap Element.name := by
  simp [repeated?, Option.filter_eq_none_iff]

/-- An element that gives no declaration is left out. -/
theorem keep_of_given_eq_none (h : e.given = none) : e.keep kept = kept := by
  simp [keep, h]

/-- An element whose name is taken is left out. -/
theorem keep_of_repeated (h : e.repeated? kept = some name) : e.keep kept = kept := by
  simp [keep, h]

/-- Of an element with a new name nothing more is told. -/
theorem mistakes_of_new (h : e.repeated? kept = none) : e.mistakes kept = e.told := by
  simp [mistakes, h]

/-- Of an element whose name is taken, that is told in the end. -/
theorem mistakes_of_repeated (h : e.repeated? kept = some name) :
    e.mistakes kept = e.told ++ [⟨.error, s!"duplicate item name '{name}'", e.location⟩] := by
  rw [mistakes, h]
  rfl

/-- Items of distinct names stay so with one more that is kept. -/
theorem nodup_keep (h : (kept.filterMap Element.name).Nodup) :
    ((e.keep kept).filterMap Element.name).Nodup := by
  unfold keep
  split
  · next hkeep =>
    have hnew := repeated?_eq_none.mp hkeep.2
    rw [List.filterMap_append]
    cases hname : e.name with
    | none => simpa [hname] using h
    | some name =>
      have hnotMem := hnew name hname
      rw [List.filterMap_cons_some hname, List.filterMap_nil]
      exact h.append (List.nodup_singleton name) (by simpa using hnotMem)
  · exact h

/-- The names that are taken with one more element are those before and its own. -/
theorem mem_names_keep (he : e.name.isSome = true → e.given.isSome = true) :
    name ∈ (e.keep kept).filterMap Element.name
      ↔ name ∈ kept.filterMap Element.name ∨ e.name = some name := by
  unfold keep
  split
  · rw [List.filterMap_append, List.mem_append]
    refine or_congr_right ?_
    cases hname : e.name <;> simp [hname, eq_comm]
  · next hkeep =>
    -- What is left out although it has a name left it to another.
    refine ⟨.inl, fun h => ?_⟩
    rcases h with h | hname
    · exact h
    · by_contra hnotMem
      refine hkeep ⟨he (by simp [hname]), repeated?_eq_none.mpr ?_⟩
      simpa [hname] using hnotMem

/-- The names that are taken are those of all elements, whatever is kept of these. -/
theorem mem_names_foldl_keep (hfound : ∀ e ∈ found, e.name.isSome = true → e.given.isSome = true) :
    name ∈ (found.foldl keep kept).filterMap Element.name
      ↔ name ∈ kept.filterMap Element.name ∨ name ∈ found.filterMap Element.name := by
  induction found generalizing kept with
  | nil => simp
  | cons e found ih =>
    obtain ⟨he, hfound⟩ := List.forall_mem_cons.mp hfound
    rw [List.foldl_cons, ih hfound, mem_names_keep he, or_assoc]
    simp [List.mem_filterMap]

/-- An element is kept if it is a declaration and none before it has its name. -/
theorem foldl_keep_append (hfound : ∀ e ∈ found, e.name.isSome = true → e.given.isSome = true)
    (e : Element) : (found ++ [e]).foldl keep []
      = if e.given.isSome ∧ ∀ name ∈ e.name, name ∉ found.filterMap Element.name
        then found.foldl keep [] ++ [e] else found.foldl keep [] := by
  rw [List.foldl_append, List.foldl_cons, List.foldl_nil, keep]
  refine if_congr (and_congr_right fun _ => ?_) rfl rfl
  simp only [repeated?_eq_none, mem_names_foldl_keep hfound, List.filterMap_nil, List.not_mem_nil,
    false_or]

/-- The names of what is kept are distinct. -/
theorem nodup_foldl_keep (found : List Element) (h : (kept.filterMap Element.name).Nodup) :
    ((found.foldl keep kept).filterMap Element.name).Nodup := by
  induction found generalizing kept with
  | nil => exact h
  | cons e found ih => exact ih (nodup_keep h)

end Element

section Elements

variable {setting : Setting} {depth : Nat} {type : DeclarationType} {t : Tree} {kept : List Element}
  {b : Build} {rest : List Event} {items : List Source} {c : Event}

/-- What takes a name is a declaration. -/
theorem isSome_given_of_elements {e : Element} (he : e ∈ elements setting depth type t items)
    (hname : e.name.isSome = true) : e.given.isSome = true := by
  induction items generalizing t with
  | nil => cases he
  | cons a items ih =>
    rcases List.mem_cons.mp he with rfl | he
    · unfold Element.place at hname ⊢
      cases hread : (alone setting depth (.declaration type) a).1 with
      | none => simp [hread] at hname
      | some id => rfl
    · exact ih he

/-- What elements come to is told from left to right. -/
theorem elements_append (before items : List Source) :
    elements setting depth type t (before ++ items) = elements setting depth type t before ++
      elements setting depth type (afterElements setting depth type t before) items := by
  induction before generalizing t with
  | nil => rfl
  | cons a before ih => exact congrArg (_ :: ·) ih

/-- Elements are placed one run after the other. -/
theorem afterElements_append (before items : List Source) :
    afterElements setting depth type t (before ++ items)
      = afterElements setting depth type (afterElements setting depth type t before) items := by
  induction before generalizing t with
  | nil => rfl
  | cons a before ih => exact ih

/-- Each item comes to one element. -/
@[simp] theorem length_elements : (elements setting depth type t items).length = items.length := by
  induction items generalizing t with
  | nil => rfl
  | cons a items ih => exact congrArg (· + 1) ih

/-! ## The loop over the elements -/

/-- Items of a list that are what was kept of its elements. -/
def Items.ofElements (kept : List Element) : Items where
  ids := kept.filterMap Element.given
  names := (kept.filterMap Element.name).reverse

/-- A declaration is added to the items, and its name to those taken, unless its name is taken. -/
theorem Items.ofElements_keep {e : Element} {id : NodeId} (hid : e.given = some id)
    (hnew : e.repeated? kept = none) : Items.ofElements (e.keep kept)
      = ⟨(Items.ofElements kept).ids ++ [id], e.name.toList ++ (Items.ofElements kept).names⟩ := by
  rw [Element.keep, if_pos ⟨by rw [hid]; rfl, hnew⟩]
  cases hname : e.name <;> simp [Items.ofElements, hid, hname]

/-- The name of a node is looked up where it has been placed. -/
theorem uniqueName?_graft (b c : Build) (id : NodeId) :
    uniqueName? (b.tree.shift id) setting ⟨rest, b.graft c, depth⟩
      = .ok (Element.place setting b.tree (some id, c)).name ⟨rest, b.graft c, depth⟩ := by
  have hitem : (b.graft c).tree.isItem (b.tree.shift id) = c.tree.isItem id := Tree.isItem_graft
  have hname : (b.graft c).tree.declarationName? (b.tree.shift id) = c.tree.declarationName? id :=
    Tree.declarationName?_graft
  refine eq_ok_of_post ?_
  unfold uniqueName?
  rw [post_bind, post_get, post_bind, post_read]
  dsimp only [Element.place, Option.bind_some]
  rw [hitem, hname, Tree.itemName?]
  cases setting.options.enforceUniqueNames <;> cases c.tree.isItem id <;> exact ⟨rfl, rfl⟩

/-- An element is read as it is alone, and kept unless its name is taken. -/
theorem element_events (hb : b.tree.Sound) (kept : List Element) (a : Source) :
    let read := alone setting depth (.declaration type) a
    let e := Element.place setting b.tree read
    element (inside setting depth (.declaration type)) (.ofElements kept) setting
        ⟨a.events ++ rest, b, depth⟩
      = .ok (some (.ofElements (e.keep kept)))
        ⟨rest, { b with tree := b.tree.graft read.2.tree }.tell (e.mistakes kept), depth⟩ := by
  intro read e
  have htold : b.graft read.2 = { b with tree := b.tree.graft read.2.tree }.tell e.told :=
    Build.graft_eq b read.2
  have hread : Parse.valueOf (.declaration type) setting ⟨a.events ++ rest, b, depth⟩
      = .ok (read.1.map b.tree.shift) ⟨rest, b.graft read.2, depth⟩ :=
    valueOf_events hb (.declaration type) a rest
  refine (ParseM.bind_of_run hread).trans ?_
  -- Without a declaration nothing is kept; with one it depends on whether its name is taken.
  cases hgiven : read.1 with
  | none =>
    have hid : e.given = none := by simp [e, Element.place, hgiven]
    have hname : e.name = none := by simp [e, Element.place, hgiven]
    have hnew : e.repeated? kept = none := by simp [Element.repeated?, hname]
    rw [Element.keep_of_given_eq_none hid, Element.mistakes_of_new hnew, ← htold]
    rfl
  | some id =>
    have hid : e.given = some (b.tree.shift id) := by simp [e, Element.place, hgiven]
    have hunique : uniqueName? (b.tree.shift id) setting ⟨rest, b.graft read.2, depth⟩
        = .ok e.name ⟨rest, b.graft read.2, depth⟩ := by
      rw [uniqueName?_graft, ← hgiven]
    refine (ParseM.bind_of_run hunique).trans ?_
    cases hrepeated : e.repeated? kept with
    | none =>
      have hnew := Element.repeated?_eq_none.mp hrepeated
      rw [Items.ofElements_keep hid hrepeated, Element.mistakes_of_new hrepeated, ← htold]
      cases hname : e.name with
      | none => rfl
      | some name =>
        have hnotMem : name ∉ (Items.ofElements kept).names := by
          simpa [Items.ofElements] using hnew name hname
        dsimp only
        rw [if_neg hnotMem]
        rfl
    | some name =>
      obtain ⟨hname, hmem⟩ := Option.filter_eq_some_iff.mp hrepeated
      have htaken : name ∈ (Items.ofElements kept).names := by
        simpa [Items.ofElements] using hmem
      -- Placing the declaration behind the tree has not changed where it stands.
      have hlocation : ((b.graft read.2).tree.location? (b.tree.shift id)).getD default
          = e.location := by
        have hgraft : (b.graft read.2).tree.location? (b.tree.shift id)
            = read.2.tree.location? id := Tree.location?_graft
        simp [hgraft, e, Element.place, hgiven]
      have hreport : report s!"duplicate item name '{name}'"
          (((b.graft read.2).tree.location? (b.tree.shift id)).getD default) setting
            ⟨rest, b.graft read.2, depth⟩ = .ok () ⟨rest, (b.graft read.2).tell
              [⟨.error, s!"duplicate item name '{name}'", e.location⟩], depth⟩ := by
        rw [hlocation]
        exact report_eq_ok _ _
      rw [hname, Element.keep_of_repeated hrepeated]
      dsimp only
      rw [if_pos htaken]
      have hget : (get : ParseM ParseState) setting ⟨rest, b.graft read.2, depth⟩
          = .ok ⟨rest, b.graft read.2, depth⟩ ⟨rest, b.graft read.2, depth⟩ := rfl
      refine (ParseM.bind_of_run hget).trans ((ParseM.bind_of_run hreport).trans ?_)
      rw [htold, Build.tell_tell, Element.mistakes_of_repeated hrepeated]
      rfl

/-- The loop over the elements reads each of them and keeps what `Element.keep` says. -/
theorem loop_of_items (hb : b.tree.Sound) (hclose : c.kind = .sequenceEnd) (kept : List Element) :
    let found := elements setting depth type b.tree items
    foldUntilClose .sequence (element (inside setting depth (.declaration type)))
        (.ofElements kept) setting ⟨Source.itemEvents items ++ c :: rest, b, depth⟩
      = .ok (some (.ofElements (found.foldl Element.keep kept)))
        ⟨c :: rest, { b with tree := afterElements setting depth type b.tree items }.tell
          (elementMistakes kept found), depth⟩ := by
  have hturn (acc : Items) (s : ParseState) (hs : AtValue s) :
      (Result.final (element (inside setting depth (.declaration type)) acc setting s)).events.length
        < s.events.length :=
    (Loop.elements type (setting.options.maxDepth - depth)).length_lt acc hs
  intro found
  induction items generalizing b kept with
  | nil =>
    have hs : AtClose .sequence ⟨c :: rest, b, depth⟩ := ⟨c, rest, rfl, hclose⟩
    have hrun : foldUntilClose _ _ _ setting _ = _ :=
      foldUntilClose_of_close hturn hs (.ofElements kept)
    simpa [found, elements, afterElements, elementMistakes, Source.itemEvents] using hrun
  | cons a items ih =>
    rw [Source.itemEvents, List.append_assoc, foldUntilClose_of_some hturn
      (atValue_events a _ b depth) (element_events hb kept a)]
    exact (ih (sound_graft_alone hb setting depth _ a) _).trans
      (by simp [found, elements, afterElements, elementMistakes, Build.tell])

/-! ## One list -/

/-- The items of a list are what was kept of its elements. -/
theorem listBody_of_items (hb : b.tree.Sound) (hclose : c.kind = .sequenceEnd) (start : Location) :
    let found := elements setting depth type b.tree items
    listBody (inside setting depth (.declaration type)) start setting
        ⟨Source.itemEvents items ++ c :: rest, b, depth⟩
      = .ok ((found.foldl Element.keep []).filterMap Element.given,
          start.through (c.location setting.file))
        ⟨rest, { b with tree := afterElements setting depth type b.tree items }.tell
          (elementMistakes [] found), depth⟩ :=
  (ParseM.bind_of_run (loop_of_items hb hclose [])).trans (ParseM.bind_of_run closeFrom_cons)

/-- Wherever an untagged sequence stands and whatever follows it, a list of declarations that is
read from it is a collection of what is kept of its elements, if a level may still be opened. -/
theorem declarationList_of_sequence (setting : Setting) (type : DeclarationType) (s : ParseState)
    (first last : Span) (items : List Source) (rest : List Event) (hs : s.build.tree.Sound)
    (hdepth : s.depth < setting.options.maxDepth)
    (hevents : s.events = (Source.sequence first last none items).events ++ rest) :
    let found := elements setting (s.depth + 1) type s.build.tree items
    let t := afterElements setting (s.depth + 1) type s.build.tree items
    declarationList type setting s = .ok (some t.size)
      ⟨rest, { s.build with
        tree := t.append (.collection ((found.foldl Element.keep []).filterMap Element.given))
          ((first.location setting.file).through (last.location setting.file)) }.tell
        (elementMistakes [] found), s.depth⟩ := by
  obtain ⟨es, b, depth⟩ := s
  intro found t
  obtain ⟨levels, hlevels, hinside⟩ := exists_inside_eq hdepth
  have hcons : (⟨es, b, depth⟩ : ParseState).events = .over first (.sequenceStart none) ::
      (Source.itemEvents items ++ .over last .sequenceEnd :: rest) := by
    simpa [Source.events] using hevents
  let v : ParseState := ⟨Source.itemEvents items ++ .over last .sequenceEnd :: rest, b, depth + 1⟩
  have hbody : listBody (inside setting (depth + 1) (.declaration type))
      (first.location setting.file) setting v = _ :=
    listBody_of_items hs rfl _
  -- The items are new roots, so that a collection can be added over them.
  have hitems : b.tree.Made t ((found.foldl Element.keep []).filterMap Element.given) :=
    ((post_listBody (s := v) (takes_valueWithin _ (.declaration type)) (yields_valueWithin _ _) _
      (Tree.Grown.refl hs)).of_ok hbody).1
  have hchildren : b.tree.Made t ((Node.collection ((found.foldl Element.keep []).filterMap
      Element.given)).children ++ []) := by
    rw [List.append_nil]
    exact hitems
  refine eq_ok_of_post ?_
  unfold declarationList valueOf
  rw [post_bind, post_levels, hlevels]
  unfold valueWithin plain atPlain
  rw [post_bind, post_bind, post_current hcons, post_pure]
  simp only [Event.kind_over, Container.plainStart, decide_true, if_true]
  rw [post_bind, post_here hcons, post_bind, post_nested, hcons, ← hinside]
  refine (Result.post_of_ok hbody).mpr (post_map.mpr (post_build.mpr (BuildM.post_onTree.mpr ?_)))
  exact (Result.post_of_ok (hchildren.add rfl trivial _)).mpr ⟨rfl, rfl⟩

/-! ## Elements one by one -/

/-- A sound tree stays sound when elements are placed behind it. -/
theorem sound_afterElements (ht : t.Sound) : (afterElements setting depth type t items).Sound := by
  induction items generalizing t with
  | nil => exact ht
  | cons a items ih => exact ih (sound_graft_alone (b := ⟨t, {}⟩) ht setting depth _ a)

/-- What an element comes to is what reading a declaration from it gives, where the elements before
it have been read, whatever was told of these and whatever follows. -/
theorem declaration_of_element (ht : t.Sound) (before after : List Source) (a : Source) :
    ∃ e, (elements setting depth type t (before ++ a :: after))[before.length]? = some e ∧
      let u := afterElements setting depth type t (before ++ [a])
      (∀ ds rest, declaration type setting
          ⟨a.events ++ rest, ⟨afterElements setting depth type t before, ds⟩, depth⟩
        = .ok e.given ⟨rest, Build.tell ⟨u, ds⟩ e.told, depth⟩) ∧
      e.name = (if setting.options.enforceUniqueNames then e.given.bind u.itemName? else none) ∧
      e.location = (e.given.bind u.location?).getD default := by
  let v := afterElements setting depth type t before
  let read := alone setting depth (.declaration type) a
  have hv : v.Sound := sound_afterElements ht
  refine ⟨.place setting v read, ?_, ?_⟩
  · rw [elements_append, List.getElem?_append_right (by simp)]
    simp [elements, v, read]
  have hu : afterElements setting depth type t (before ++ [a]) = v.graft read.2.tree := by
    rw [afterElements_append]
    rfl
  rw [hu]
  refine ⟨fun ds rest => ?_, ?_, ?_⟩
  · refine (valueOf_events (b := ⟨v, ds⟩) hv (.declaration type) a rest).trans ?_
    rw [Build.graft_eq]
    rfl
  · have hname (id : NodeId) : (v.graft read.2.tree).itemName? (v.shift id)
        = read.2.tree.itemName? id := by
      rw [Tree.itemName?, Tree.isItem_graft, Tree.declarationName?_graft, Tree.itemName?]
    simp only [Element.place]
    cases read.1 with
    | none => rfl
    | some id => simp [hname]
  · simp only [Element.place]
    cases read.1 with
    | none => rfl
    | some id => simp [Tree.location?_graft]

end Elements

/-! ## Lists of what was read -/

variable {setting : Setting}

/-- Whatever is asked for, no two items of a list in it share a name. -/
theorem Request.separates (henforce : setting.options.enforceUniqueNames = true)
    (request : Request) : Separates setting request.node := by
  have hspares {α : Type} {m : ParseM α} (hm : Spares m) :
      Separates setting ((fun _ => none) <$> m) := fun s _ =>
    post_map.mpr ((hm setting s).ensures.mono fun _ _ _ id hid => by cases hid)
  have hlevels {m : Nat → ParseM (Option NodeId)} (hm : ∀ levels, Separates setting (m levels)) :
      Separates setting (ParseM.levels >>= m) := fun s hs =>
    Post.bind (Spares.levels setting s).ensures fun levels u hu => hm levels u (hu ▸ hs)
  have hvalue (kind : ValueKind) : Separates setting (Parse.valueOf kind) :=
    hlevels fun levels => separates_valueWithin henforce levels kind
  cases request with
  | start => exact hspares spares_start
  | declaration type => exact hvalue (.declaration type)
  | declarationList type => exact hvalue (.declarationList type)
  | valueOf kind => exact hvalue kind
  | expression =>
    exact hlevels fun levels =>
      separates_of_yields (yields_expressionWithin levels) (by simp) (by simp)
  | condition =>
    exact hlevels fun levels =>
      separates_of_yields (yields_conditionWithin levels) (by simp) (by simp)
  | string => exact separates_of_yields yields_string (by simp) (by simp)
  | int => exact separates_of_yields yields_int (by simp) (by simp)
  | bool => exact separates_of_yields yields_bool (by simp) (by simp)
  | stringList =>
    exact hlevels fun levels =>
      separates_of_yields (yields_stringListWithin levels) (by simp) (by simp)
  | rawValue => exact hspares (Spares.levels.bind spares_rawValueWithin)
  | key => exact hspares spares_key
  | finishDocument => exact hspares spares_finishDocument

/-- After any requests the tree has grown from nothing. -/
theorem grown_after (requests : List Request) {s : ParseState} (hs : Tree.Grown {} s.build.tree) :
    Tree.Grown {} (after setting requests s).build.tree := by
  induction requests generalizing s with
  | nil => exact hs
  | cons request requests ih =>
    refine ih (s := Result.final (request.perform setting s)) (hs.trans ?_)
    exact Result.post_final.mp (request.grows setting s hs.sound)

end Parse

/-- Where the targets of references are of no account, neither are they for the names of items. -/
theorem Tree.SameButTargets.apart {t u : Tree} (h : t.SameButTargets u) : u.Apart = t.Apart := by
  have hitem (x : NodeId) : u.isItem x = t.isItem x := by
    simp [Tree.isItem, h.node x, Function.comp_def]
  have hname : u.itemName? = t.itemName? := by
    funext x
    rw [Tree.itemName?, Tree.itemName?, hitem, h.declarationName?]
  have hlist (c : NodeId) (ids : List NodeId) :
      u.node? c = some (.collection ids) ↔ t.node? c = some (.collection ids) := by
    rw [h.node c]
    cases t.node? c with
    | none => simp
    | some n => cases n <;> simp [Node.withTarget]
  funext root
  simp only [Tree.Apart, Tree.Within, h.ancestors, hname, hlist]

namespace Parse

/-- A list of declarations is read as far as it can be. The elements of an untagged sequence are
read one by one, each as a declaration is read where it stands, and the list holds in order what
they give; but an item is left out if an element before it has its name, where the options demand
that names are unique. What is told of the elements is told in order, with the mistake of an item
that is left out right behind what is told of it. So where the options demand it no two items of a
list share a name, in whatever a parser is asked for and in every document. -/
theorem lists_best_effort (setting : Setting) :
    (∀ (type : DeclarationType) (s : ParseState) (first last : Span) (items : List Source)
      (rest : List Event), s.build.tree.Sound → s.depth < setting.options.maxDepth →
      s.events = (Source.sequence first last none items).events ++ rest →
      let found := elements setting (s.depth + 1) type s.build.tree items
      let kept := found.foldl Element.keep []
      let after := afterElements setting (s.depth + 1) type s.build.tree
      declarationList type setting s = .ok (some (after items).size) ⟨rest,
        { s.build with
          tree := (after items).append (.collection (kept.filterMap Element.given))
            ((first.location setting.file).through (last.location setting.file)) }.tell
          (elementMistakes [] found), s.depth⟩ ∧
      (∀ before a others, items = before ++ a :: others →
        ∃ e, found[before.length]? = some e ∧
          (∀ ds rest, declaration type setting
              ⟨a.events ++ rest, ⟨after before, ds⟩, s.depth + 1⟩
            = .ok e.given ⟨rest, Build.tell ⟨after (before ++ [a]), ds⟩ e.told, s.depth + 1⟩) ∧
          e.name = (if setting.options.enforceUniqueNames
            then e.given.bind (after (before ++ [a])).itemName? else none) ∧
          e.location = (e.given.bind (after (before ++ [a])).location?).getD default) ∧
      (∀ before e others, found = before ++ e :: others →
        (before ++ [e]).foldl Element.keep []
          = if e.given.isSome ∧ ∀ name ∈ e.name, name ∉ before.filterMap Element.name
            then before.foldl Element.keep [] ++ [e] else before.foldl Element.keep []) ∧
      (kept.filterMap Element.name).Nodup) ∧
    (setting.options.enforceUniqueNames = true →
      (∀ events requests request id u,
        Request.node request setting (after setting requests { events }) = .ok (some id) u →
        u.build.tree.Apart id) ∧
      ∀ events d root, Document.ofEvents setting events = .ok d → d.root = some root →
        d.tree.Apart root) := by
  refine ⟨fun type s first last items rest hs hdepth hevents => ?lists, fun henforce => ?names⟩
  case lists =>
    refine ⟨declarationList_of_sequence setting type s first last items rest hs hdepth hevents,
      ?_, ?_, Element.nodup_foldl_keep _ List.nodup_nil⟩
    · rintro before a others rfl
      exact declaration_of_element hs before others a
    · intro before e others hfound
      refine Element.foldl_keep_append (fun e' he' => ?_) e
      exact isSome_given_of_elements (hfound ▸ List.mem_append_left _ he')
  case names =>
    refine ⟨fun events requests request id u hread => ?_, fun events d root hd hroot => ?_⟩
    · have hgrown : Tree.Grown {} (after setting requests { events }).build.tree :=
        grown_after requests (Tree.Grown.refl Tree.sound_empty)
      exact (request.separates henforce _ hgrown).of_ok hread id rfl
    · obtain ⟨t, -, hapart, hsame, -⟩ := Document.exists_module henforce hd hroot
      rwa [hsame.apart]

/-- Of two variables of one name the first is kept, and what stands between them is told. -/
theorem lists_best_effort_of_repeated_name :
    let x (value : String) :=
      Document.sampleDeclaration "Variable" "x" "Value" (Document.sampleText value)
    let items := [x "1", Document.sampleText "y", x "2"]
    let s : ParseState := { events := (Document.sampleItems items).events }
    ∃ id u, declarationList (.abstract .item) ⟨"m.yml", {}⟩ s = .ok (some id) ⟨[], u, 0⟩ ∧
      u.tree.children id = [2] ∧
      u.diagnostics.toList.map Diagnostic.message
        = ["expected a map", "duplicate item name 'x'"] := by
  intro x items s
  have hevents : s.events = (Document.sampleItems items).events ++ [] := (List.append_nil _).symm
  obtain ⟨hrun, -⟩ := (lists_best_effort ⟨"m.yml", {}⟩).1 (.abstract .item) s ⟨default, default⟩
    ⟨default, default⟩ items [] Tree.sound_empty (by decide) hevents
  exact ⟨_, _, hrun, by decide +kernel⟩

end Parse

end InfraModule
