import InfraModule.Proofs.Tree.Naming
import Mathlib.Data.List.Infix

/-!
# Full names of items

A full name joins the names of a path by `::`, which does not tell the names apart if they have
colons of their own. It does where no name has `::` in it and none but the last ends with `:`
(`Readable.joined_injective`). In a module with such names, and no two items of one list of one name
(`Tree.Legible`), full names are as good as paths: no two items share one, so that the order of the
items is of no account to what a reference is settled to (`Tree.Legible.lookUp_path?`).
-/

namespace InfraModule

/-! ## Joining names -/

/-- The names can be read off what joins them. -/
structure Readable (path : List String) : Prop where
  /-- No name holds the separator. -/
  free : ∀ name ∈ path, ¬ [':', ':'] <:+: name.toList
  /-- No name can be mistaken to end with a part of it. -/
  open_end : ∀ name ∈ path.dropLast, ¬ [':'] <:+ name.toList

/-- What stands before a first separator does not go on to another. -/
theorem eq_nil_of_separator {a m r s : List Char} (hfree : ¬ [':', ':'] <:+: a ++ m)
    (hend : ¬ [':'] <:+ a ++ m) (h : ':' :: ':' :: r = m ++ s) : m = [] := by
  rcases m with _ | ⟨c, _ | ⟨c', m⟩⟩
  · rfl
  · obtain ⟨rfl, -⟩ := List.cons.inj h
    exact (hend (List.suffix_append a [':'])).elim
  · obtain ⟨rfl, htail⟩ := List.cons.inj h
    obtain ⟨rfl, -⟩ := List.cons.inj htail
    exact (hfree ⟨a, m, by simp⟩).elim

/-- The first separator tells what stands before it and behind it. -/
theorem separator_injective {a b r s : List Char} (ha : ¬ [':', ':'] <:+: a)
    (ha' : ¬ [':'] <:+ a) (hb : ¬ [':', ':'] <:+: b) (hb' : ¬ [':'] <:+ b)
    (h : a ++ ':' :: ':' :: r = b ++ ':' :: ':' :: s) : a = b ∧ r = s := by
  rcases List.append_eq_append_iff.mp h with ⟨m, rfl, hm⟩ | ⟨m, rfl, hm⟩
  · obtain rfl := eq_nil_of_separator hb hb' hm
    simpa using hm
  · obtain rfl := eq_nil_of_separator ha ha' hm
    simpa [eq_comm] using hm

/-- A path is its first name, two colons, and the rest of the path. -/
theorem toList_joined (a b : String) (path : List String) :
    ("::".intercalate (a :: b :: path)).toList
      = a.toList ++ ':' :: ':' :: ("::".intercalate (b :: path)).toList := by
  simp

namespace Readable

variable {a b : String} {path path' : List String}

/-- The rest of a path that can be read off can be read off. -/
theorem tail (h : Readable (a :: b :: path)) : Readable (b :: path) where
  free := fun name hname => h.free name (List.mem_cons_of_mem a hname)
  open_end := fun name hname => h.open_end name (List.mem_cons_of_mem a hname)

/-- A name without the separator joins nothing. -/
theorem ne_joined (h : Readable [a]) : a ≠ "::".intercalate (b :: b' :: path) := by
  intro heq
  refine h.free a List.mem_cons_self ?_
  rw [heq, toList_joined]
  exact ⟨b.toList, ("::".intercalate (b' :: path)).toList, List.append_assoc ..⟩

/-- Readable paths with one full name are the same. -/
theorem joined_injective (h : Readable path) (h' : Readable path') (hne : path ≠ [])
    (hne' : path' ≠ []) (heq : "::".intercalate path = "::".intercalate path') :
    path = path' := by
  induction path generalizing path' with
  | nil => exact (hne rfl).elim
  | cons a path ih =>
    obtain ⟨b, path', rfl⟩ := List.exists_cons_of_ne_nil hne'
    cases path with
    | nil =>
      cases path' with
      | nil => simpa using heq
      | cons b' path' => exact (h.ne_joined (by simpa using heq)).elim
    | cons a' path =>
      cases path' with
      | nil => exact (h'.ne_joined (by simpa using heq.symm)).elim
      | cons b' path' =>
        -- Both first names end at the first separator.
        have hchars := congrArg String.toList heq
        rw [toList_joined, toList_joined] at hchars
        obtain ⟨hfirst, hrest⟩ := separator_injective (h.free a List.mem_cons_self)
          (h.open_end a List.mem_cons_self) (h'.free b List.mem_cons_self)
          (h'.open_end b List.mem_cons_self) hchars
        rw [String.toList_inj.mp hfirst, ih h.tail h'.tail (by simp) (by simp)
          (String.toList_inj.mp hrest)]

end Readable

namespace Tree

variable {t t' u : Tree} {root root' x y g d e e' : NodeId} {path : List String}
  {full name : String}

/-! ## Items by full name -/

/-- No item of the module has `::` in its name, and no group has a name that ends with `:`. -/
def PlainNames (t : Tree) (root : NodeId) : Prop :=
  ∀ x, t.ItemOf root x → ∀ name ∈ t.declarationName? x, ¬ [':', ':'] <:+: name.toList ∧
    (t.kind? x = some .group → ¬ [':'] <:+ name.toList)

instance : Decidable (t.PlainNames root) :=
  decidable_of_iff (∀ x < t.size, t.ItemOf root x → ∀ name ∈ t.declarationName? x,
      ¬ [':', ':'] <:+: name.toList ∧ (t.kind? x = some .group → ¬ [':'] <:+ name.toList))
    ⟨fun h x hx => h x hx.lt_size hx, fun h x _ => h x⟩

/-- A module in which full names tell items apart. -/
structure Legible (t : Tree) (root : NodeId) : Prop extends t.ModuleAt root where
  /-- The items of a list have distinct names. -/
  apart : t.Apart root
  /-- The names can be read off full names. -/
  plain : t.PlainNames root

/-- What stands above a node of the module is in the module. -/
theorem ModuleAt.within_of_mem_ancestors (h : t.ModuleAt root) (hx : t.Within root x)
    (hg : g ∈ t.ancestors x) : t.Within root g := by
  induction x using h.sound.finite.induction with
  | _ x ih =>
    -- Nothing stands above the root.
    have hne : root ≠ x := by
      rintro rfl
      simp [h.sound.ancestors_of_root h.parent] at hg
    obtain ⟨p, -, hp, hwithin, -⟩ := hx.exists_parent h.sound hne
    rw [h.sound.ancestors_of_parent? hp] at hg
    rcases List.mem_cons.mp hg with rfl | hg
    · exact hwithin
    · exact ih p hp hwithin hg

namespace Legible

/-- The path of an item can be read off its full name. -/
theorem readable (h : t.Legible root) (hx : t.ItemOf root x) (hpath : t.path? x = some path) :
    Readable path := by
  obtain ⟨name, hname, rfl⟩ := Option.map_eq_some_iff.mp hpath
  -- The groups around the item are items of the module, too.
  have hscope : ∀ a ∈ t.scopePath x, ¬ [':', ':'] <:+: a.toList ∧ ¬ [':'] <:+ a.toList := by
    intro a ha
    obtain ⟨g, hg, hga⟩ := List.mem_filterMap.mp (List.mem_reverse.mp ha)
    obtain ⟨hgx, hgroup⟩ := List.mem_filter.mp hg
    have hkind : t.kind? g = some .group := by simpa using hgroup
    have hitem : t.ItemOf root g :=
      ⟨h.within_of_mem_ancestors hx.1 hgx, by rw [isItem_of_kind? hkind]; rfl⟩
    exact (h.plain g hitem a hga).imp_right fun hgroup => hgroup hkind
  refine ⟨fun a ha => ?_, fun a ha => ?_⟩
  · rcases List.mem_append.mp ha with ha | ha
    · exact (hscope a ha).1
    · rw [List.mem_singleton.mp ha]
      exact (h.plain x hx name hname).1
  · rw [List.dropLast_concat] at ha
    exact (hscope a ha).2

/-- Items with one full name have one path, also if they are items of two modules. -/
theorem path?_of_fullName? (h : t.Legible root) (h' : t'.Legible root') (hx : t.ItemOf root x)
    (hy : t'.ItemOf root' y) (heq : t.fullName? x = t'.fullName? y) : t.path? x = t'.path? y := by
  obtain ⟨name, hname⟩ := h.exists_declarationName? hx.2
  obtain ⟨name', hname'⟩ := h'.exists_declarationName? hy.2
  have hpath : t.path? x = some (t.scopePath x ++ [name]) := by rw [path?, hname]; rfl
  have hpath' : t'.path? y = some (t'.scopePath y ++ [name']) := by rw [path?, hname']; rfl
  rw [fullName?_eq, fullName?_eq, hpath, hpath', Option.map_some, Option.map_some,
    Option.some_inj] at heq
  rw [hpath, hpath', (h.readable hx hpath).joined_injective (h'.readable hy hpath') (by simp)
    (by simp) heq]

/-- No two items share a full name. -/
theorem fullName_injective (h : t.Legible root) (hx : t.ItemOf root x) (hy : t.ItemOf root y)
    (heq : t.fullName? x = t.fullName? y) : x = y :=
  h.apart.path_injective h.toModuleAt hx hy (h.path?_of_fullName? h hx hy heq)

end Legible

/-! ## References and the order of items -/

/-- The full names of the items of a subtree with their kinds, in the order of the document. -/
def namedKinds (t : Tree) (root : NodeId) : List (String × Option Kind) :=
  (t.namedItems root).map fun (full, x) => (full, t.kind? x)

/-- The named items are the items of the module that have full names. -/
theorem mem_namedItems (ht : t.Sound) :
    (full, x) ∈ t.namedItems root ↔ t.ItemOf root x ∧ t.fullName? x = some full := by
  rw [namedItems, List.mem_filterMap]
  constructor
  · rintro ⟨⟨y, n⟩, hmem, hn⟩
    obtain ⟨hnode, hwithin⟩ := ht.mem_inspect.mp hmem
    dsimp only at hn
    split at hn
    · next hitem =>
      obtain ⟨full', hfull, heq⟩ := Option.map_eq_some_iff.mp hn
      cases heq
      exact ⟨⟨hwithin, (isItem_of_node? hnode).trans hitem⟩, hfull⟩
    · cases hn
  · rintro ⟨⟨hwithin, hitem⟩, hfull⟩
    obtain ⟨d, hnode, -⟩ := exists_declaration_of_isItem hitem
    refine ⟨(x, .declaration d), ht.mem_inspect.mpr ⟨hnode, hwithin⟩, ?_⟩
    dsimp only
    rw [if_pos ((isItem_of_node? hnode).symm.trans hitem), hfull]
    rfl

/-- The names are listed with the kinds of their items. -/
theorem mem_namedKinds (ht : t.Sound) {kind : Option Kind} :
    (full, kind) ∈ t.namedKinds root ↔
      ∃ x, t.ItemOf root x ∧ t.fullName? x = some full ∧ t.kind? x = kind := by
  simp [namedKinds, mem_namedItems ht, and_assoc]

/-- The first item of a name is an item of that name. -/
theorem FirstNamed.named (ht : t.Sound) (h : t.FirstNamed root full d) :
    t.ItemOf root d ∧ t.fullName? d = some full := by
  obtain ⟨n, before, after, hsplit, hitem, hfull, -⟩ := h
  have hmem : (d, n) ∈ t.inspect root := hsplit ▸ List.mem_append_right before List.mem_cons_self
  obtain ⟨hnode, hwithin⟩ := ht.mem_inspect.mp hmem
  exact ⟨⟨hwithin, (isItem_of_node? hnode).trans hitem⟩, hfull⟩

namespace Legible

/-- The item of a full name is the first. -/
theorem firstNamed (h : t.Legible root) (hx : t.ItemOf root x)
    (hfull : t.fullName? x = some full) : t.FirstNamed root full x := by
  have hmem := (mem_namedItems h.sound).mpr ⟨hx, hfull⟩
  cases hlookup : (t.namedItems root).lookup full with
  | none => simpa using List.lookup_eq_none_iff.mp hlookup _ hmem
  | some d =>
    have hfirst := lookup_namedItems.mp hlookup
    obtain ⟨hd, hdfull⟩ := hfirst.named h.sound
    rwa [h.fullName_injective hx hd (hfull.trans hdfull.symm)]

section Reordered

variable (h : t.Legible root) (h' : t'.Legible root')
  (hitems : (t'.namedKinds root').Perm (t.namedKinds root))
  (hscope : t'.scopePath e' = t.scopePath e)
  (hconditions : t'.bindsConditionsOnly e' = t.bindsConditionsOnly e)

include h h' hitems hconditions

/-- What a scope offers in one order of the items it offers in any other. -/
theorem exists_offers {scope : List String} (hd : t.Offers root e name scope d) :
    ∃ d', t'.Offers root' e' name scope d' ∧ t'.path? d' = t.path? d := by
  obtain ⟨hitem, hfull⟩ := hd.1.named h.sound
  have hmem := hitems.mem_iff.mpr ((mem_namedKinds h.sound).mpr ⟨d, hitem, hfull, rfl⟩)
  obtain ⟨d', hitem', hfull', hkind⟩ := (mem_namedKinds h'.sound).mp hmem
  refine ⟨d', ⟨h'.firstNamed hitem' hfull', fun honly => ?_⟩, ?_⟩
  · rw [hkind]
    exact hd.2 (hconditions.symm.trans honly)
  · exact h'.path?_of_fullName? h hitem' hitem (hfull'.trans hfull.symm)

include hscope

/-- What settles a reference in one order of the items settles it in any other. -/
theorem exists_settles (hd : t.Settles root e name d) :
    ∃ d', t'.Settles root' e' name d' ∧ t'.path? d' = t.path? d := by
  obtain ⟨j, hj, hoffers, hinner⟩ := hd
  obtain ⟨d', hoffers', hpath⟩ := h.exists_offers h' hitems hconditions hoffers
  refine ⟨d', ⟨j, by rwa [hscope], by rwa [hscope], fun i hji hi d'' hd'' => ?_⟩, hpath⟩
  -- What an inner scope offered would have been offered before.
  rw [hscope] at hi hd''
  obtain ⟨d₀, hd₀, -⟩ := h'.exists_offers h hitems.symm hconditions.symm hd''
  exact hinner i hji hi d₀ hd₀

/-- A name is found as the same item in any order of the items. -/
theorem lookUp_path? : (t'.lookUp (t'.namedItems root') e' name).bind t'.path?
    = (t.lookUp (t.namedItems root) e name).bind t.path? := by
  cases hd : t.lookUp (t.namedItems root) e name with
  | some d =>
    obtain ⟨d', hd', hpath⟩ :=
      h.exists_settles h' hitems hscope hconditions (lookUp_eq_some_iff.mp hd)
    rw [lookUp_eq_some_iff.mpr hd', Option.bind_some, Option.bind_some, hpath]
  | none =>
    cases hd' : t'.lookUp (t'.namedItems root') e' name with
    | none => rfl
    | some d' =>
      obtain ⟨d, hd₀, -⟩ := h'.exists_settles h hitems.symm hscope.symm hconditions.symm
        (lookUp_eq_some_iff.mp hd')
      rw [lookUp_eq_some_iff.mpr hd₀] at hd
      cases hd

end Reordered

end Legible

/-! ## Trees that differ in targets -/

namespace SameButTargets

variable (h : t.SameButTargets u)

include h

/-- Trees that differ in targets have the same items. -/
theorem itemOf : u.ItemOf = t.ItemOf := by
  funext root x
  simp [ItemOf, Within, isItem, h.ancestors, h.node x, Function.comp_def]

/-- Trees that differ in targets have the same paths. -/
theorem path? : u.path? = t.path? := by
  funext x
  rw [Tree.path?, Tree.path?, h.declarationName?, h.scopePath]

/-- Trees that differ in targets list the same names with the same kinds. -/
theorem namedKinds : u.namedKinds = t.namedKinds := by
  funext root
  rw [Tree.namedKinds, Tree.namedKinds, h.namedItems, h.kind?]

/-- Trees that differ in targets have plain names alike. -/
theorem plainNames : u.PlainNames = t.PlainNames := by
  funext root
  rw [PlainNames, PlainNames, h.itemOf, h.declarationName?, h.kind?]

end SameButTargets

end Tree

end InfraModule
