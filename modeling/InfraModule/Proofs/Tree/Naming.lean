import InfraModule.Proofs.Tree.Place
import InfraModule.Proofs.Tree.Scope
import Mathlib.Data.List.Pairwise

/-!
# Names of items

The way down to an item of a module leads through groups: their names and its own make its path.
Where no two items of a list share a name (`Tree.Apart`), no two items of the module share a path
(`Tree.Apart.path_injective`), by induction on the groups.
-/

namespace InfraModule.Tree

variable {t u : Tree} {root x y c q : NodeId} {kind : ValueKind} {ids : List NodeId}

/-! ## Paths -/

/-- The names of the groups around an item, outermost first, and its own. -/
def path? (t : Tree) (x : NodeId) : Option (List String) :=
  (t.declarationName? x).map (t.scopePath x ++ [·])

/-- A path has a name at its end. -/
theorem path?_ne_nil : t.path? x ≠ some [] := by
  simp [path?]

/-- The full name of an item joins its path. -/
theorem fullName?_eq (t : Tree) (x : NodeId) :
    t.fullName? x = (t.path? x).map ("::".intercalate ·) := by
  rw [fullName?, path?, Option.map_map]
  rfl

/-- An item of the module has no groups around it, and the groups around another are the path of
the innermost. -/
theorem ModuleAt.scopePath_of_listedIn (h : t.ModuleAt root) (hq : t.Within root q)
    (hx : t.ListedIn x c q) : (q = root ∧ t.scopePath x = []) ∨
      (t.ItemOf root q ∧ t.kind? q = some .group ∧ t.path? q = some (t.scopePath x)) := by
  obtain ⟨ids, hc⟩ := hx.list
  obtain ⟨d, hd, -, hkind⟩ := hx.bound
  have hkindq : t.kind? q = some d.kind := kind?_of_node? hd
  have hkindc : t.kind? c = none := kind?_of_node? hc
  have hchain : t.ancestors x = c :: q :: t.ancestors q := by
    rw [h.sound.ancestors_of_parent? hx.parent, h.sound.ancestors_of_parent? hx.owner]
  rcases hkind with hmodule | hgroup
  · obtain rfl : q = root := h.eq_root hq hd hmodule
    refine Or.inl ⟨rfl, ?_⟩
    simp [scopePath, hchain, h.sound.ancestors_of_root h.parent, hkindc, hkindq, hmodule]
  · have hitem : t.isItem q = true := by
      rw [isItem_of_kind? hkindq, hgroup]
      rfl
    obtain ⟨name, hname⟩ := h.exists_declarationName? hitem
    refine Or.inr ⟨⟨hq, hitem⟩, hkindq.trans (congrArg some hgroup), ?_⟩
    rw [path?, hname]
    simp [scopePath, hchain, hkindc, hkindq, hgroup, hname]

/-! ## Names that are told apart -/

/-- The name that an item takes in the list that it stands in. -/
def itemName? (t : Tree) (x : NodeId) : Option String :=
  if t.isItem x then t.declarationName? x else none

/-- No two items of a collection in the subtree share a name. -/
def Apart (t : Tree) (id : NodeId) : Prop :=
  ∀ c ids, t.Within id c → t.node? c = some (.collection ids) →
    (ids.filterMap t.itemName?).Nodup

/-- What is no item takes no name. -/
theorem itemName?_of_not_item (h : t.isItem x = false) : t.itemName? x = none := by
  rw [itemName?, h]
  rfl

/-- A node that stays, with all nodes of the tree, keeps its name. -/
theorem Retains.itemName? (h : t.Retains u) (ht : t.Sound) (hx : x < t.size) :
    u.itemName? x = t.itemName? x := by
  obtain ⟨n, hn⟩ := node?_eq_some_iff_lt.mpr hx
  have hn' := h x n hn
  rw [Tree.itemName?, Tree.itemName?, isItem_of_node? hn, isItem_of_node? hn']
  cases n with
  | declaration d =>
    have hname (v : Tree) (hv : v.node? x = some (.declaration d)) :
        v.declarationName? x = d.keyword.bind v.literalText? := by
      simp [declarationName?, declaration?, hv, Node.declaration?]
    rw [hname t hn, hname u hn']
    -- The keyword is a child, so that it was there.
    cases hkeyword : d.keyword with
    | none => rfl
    | some k =>
      have hchild : k ∈ t.children x := by
        simp [children_of_node? hn, Node.children, Declaration.children, hkeyword]
      obtain ⟨m, hm⟩ := node?_eq_some_iff_lt.mpr (ht.lt_size_of_child hchild)
      simp [literalText?, literal?, expression?, hm, h k m hm]
  | expression e => rfl
  | collection ids => rfl

/-- Where all nodes stay, so do the subtrees that they make up. -/
theorem Retains.within (h : t.Retains u) (ht : t.Sound) (hu : u.Sound) (hid : root < t.size)
    (hx : u.Within root x) : t.Within root x ∧ x < t.size := by
  induction x using hu.finite.induction with
  | _ x ih =>
    cases hp : u.parent? x with
    | none =>
      obtain rfl := (within_iff_of_root hu hp).mp hx
      exact ⟨within_refl t root, hid⟩
    | some p =>
      rcases (within_iff_of_parent? hu hp).mp hx with rfl | hwithin
      · exact ⟨within_refl t root, hid⟩
      · obtain ⟨hwithin, hlt⟩ := ih p hp hwithin
        obtain ⟨n, hn⟩ := node?_eq_some_iff_lt.mpr hlt
        have hchild : x ∈ t.children p := by
          rw [children_of_node? hn, ← children_of_node? (h p n hn)]
          exact hu.owner.mpr hp
        exact ⟨(within_iff_of_parent? ht (ht.owner.mp hchild)).mpr (Or.inr hwithin),
          ht.lt_size_of_child hchild⟩

namespace Apart

/-- A subtree that stays is still apart. -/
theorem of_retains (hapart : t.Apart x) (ht : t.Sound) (hu : u.Sound) (h : t.Retains u)
    (hx : x < t.size) : u.Apart x := by
  intro c ids hc hnode
  obtain ⟨hwithin, hlt⟩ := h.within ht hu hx hc
  obtain ⟨n, hn⟩ := node?_eq_some_iff_lt.mpr hlt
  obtain rfl : n = .collection ids := Option.some_inj.mp ((h c n hn).symm.trans hnode)
  have hnames : ids.filterMap u.itemName? = ids.filterMap t.itemName? := by
    refine List.filterMap_congr fun i hi => h.itemName? ht (ht.lt_size_of_child (p := c) ?_)
    rwa [children_of_node? hn]
  rw [hnames]
  exact hapart c ids hwithin hn

/-- A subtree is apart if those at the children of its root are, and the root is no list of items
that share a name. -/
theorem of_children {n : Node} (ht : t.Sound) (hx : t.node? x = some n)
    (hroot : ∀ ids, n = .collection ids → (ids.filterMap t.itemName?).Nodup)
    (hchildren : ∀ c ∈ n.children, t.Apart c) : t.Apart x := by
  intro c ids hc hnode
  rcases (within_iff_exists_child ht).mp hc with rfl | ⟨i, hi, hic⟩
  · exact hroot ids (Option.some_inj.mp (hx.symm.trans hnode))
  · rw [children_of_node? hx] at hi
    exact hchildren i hi c ids hic hnode

section Typed

variable (ht : t.Sound) (htyped : ∀ x n, t.node? x = some n → t.WellTyped n)

include ht htyped

/-- An expression holds no collection. -/
theorem of_expression {e : Expression} (hx : t.node? x = some (.expression e)) : t.Apart x := by
  intro c ids hc hnode
  obtain ⟨e', he'⟩ := exists_expression_of_within ht htyped hx hc
  simp [hnode] at he'

/-- A list of texts holds no items. -/
theorem of_texts (hx : t.node? x = some (.collection ids)) (htexts : ∀ i ∈ ids, t.IsText i) :
    t.Apart x := by
  have hexpression : ∀ i ∈ ids, ∃ e, t.node? i = some (.expression e) :=
    fun i hi => (htexts i hi).isValue.exists_expression
  refine of_children ht hx (fun ids hids => ?_) fun i hi => ?_
  · cases hids
    have hnil : ids.filterMap t.itemName? = [] := by
      refine List.filterMap_eq_nil_iff.mpr fun i hi => ?_
      obtain ⟨e, he⟩ := hexpression i hi
      exact itemName?_of_not_item (isItem_of_node? he)
    rw [hnil]
    exact List.nodup_nil
  · obtain ⟨e, he⟩ := hexpression i hi
    exact of_expression ht htyped he

/-- What is made for a value of a kind in which no declarations stand holds no items. -/
theorem of_hasForm (hx : t.HasForm kind x) (hdeclaration : ∀ type, kind ≠ .declaration type)
    (hlist : ∀ type, kind ≠ .declarationList type) : t.Apart x := by
  cases hkind : kind.isExpression with
  | true =>
    obtain ⟨e, he⟩ := hx.exists_expression hkind
    exact of_expression ht htyped he
  | false =>
    cases kind with
    | string =>
      obtain ⟨e, he⟩ := (IsText.isValue hx).exists_expression
      exact of_expression ht htyped he
    | stringList =>
      obtain ⟨items, hform, htexts⟩ := hx
      exact of_texts ht htyped (node?_of_form?_collection hform) htexts
    | declaration type => exact (hdeclaration type rfl).elim
    | declarationList type => exact (hlist type rfl).elim
    | _ => cases hkind

end Typed

end Apart

/-- Items of one list that share a name are the same. -/
theorem eq_of_itemName? (h : (ids.filterMap t.itemName?).Nodup) (hx : x ∈ ids) (hy : y ∈ ids)
    (name : String) (hxname : t.itemName? x = some name) (hyname : t.itemName? y = some name) :
    x = y := by
  by_contra hne
  have hpairwise := List.pairwise_filterMap.mp h
  have : Std.Symm fun a b => ∀ n, t.itemName? a = some n →
      ∀ m, t.itemName? b = some m → n ≠ m :=
    ⟨fun a b hab n hn m hm heq => hab m hm n hn heq.symm⟩
  exact hpairwise.forall hx hy hne name hxname name hyname rfl

/-- Items of one module or group that share a name are the same. -/
theorem Apart.eq_of_listedIn {c' : NodeId} (hapart : t.Apart root) (ht : t.Sound)
    (hq : t.Within root q) (hx : t.ListedIn x c q) (hy : t.ListedIn y c' q) (name : String)
    (hxname : t.itemName? x = some name) (hyname : t.itemName? y = some name) : x = y := by
  obtain rfl := hx.list_unique hy
  obtain ⟨ids, hc⟩ := hx.list
  have hwithin : t.Within root c := (within_iff_of_parent? ht hx.owner).mpr (Or.inr hq)
  exact eq_of_itemName? (hapart c ids hwithin hc) (hx.mem ht hc) (hy.mem ht hc) name hxname hyname

/-- Items of a module that share a path are the same. -/
theorem Apart.path_injective (hapart : t.Apart root) (h : t.ModuleAt root)
    (hx : t.ItemOf root x) (hy : t.ItemOf root y) (hpath : t.path? x = t.path? y) : x = y := by
  -- The induction goes up the groups around the first item.
  induction x using h.sound.finite.transGen.induction generalizing y with
  | _ x ih =>
    obtain ⟨name, hname⟩ := h.exists_declarationName? hx.2
    obtain ⟨name', hname'⟩ := h.exists_declarationName? hy.2
    rw [path?, path?, hname, hname', Option.map_some, Option.map_some, Option.some_inj] at hpath
    obtain ⟨hscope, hlast⟩ := List.append_inj' hpath rfl
    obtain rfl : name = name' := by simpa using hlast
    obtain ⟨c, q, hq, hlisted⟩ := h.exists_listedIn hx
    obtain ⟨c', q', hq', hlisted'⟩ := h.exists_listedIn hy
    have hsame : q = q' := by
      rcases h.scopePath_of_listedIn hq hlisted with ⟨rfl, hnil⟩ | ⟨hitem, -, hqpath⟩
      · rcases h.scopePath_of_listedIn hq' hlisted' with ⟨rfl, -⟩ | ⟨-, -, hqpath'⟩
        · rfl
        · rw [← hscope, hnil] at hqpath'
          exact (path?_ne_nil hqpath').elim
      · rcases h.scopePath_of_listedIn hq' hlisted' with ⟨rfl, hnil'⟩ | ⟨hitem', -, hqpath'⟩
        · rw [hscope, hnil'] at hqpath
          exact (path?_ne_nil hqpath).elim
        · refine ih q ?_ hitem hitem' (by rw [hqpath, hqpath', hscope])
          exact .head hlisted.owner (.single hlisted.parent)
    subst hsame
    refine hapart.eq_of_listedIn h.sound hq hlisted hlisted' name ?_ ?_
    · rw [itemName?, if_pos hx.2, hname]
    · rw [itemName?, if_pos hy.2, hname']

end InfraModule.Tree
