import InfraModule.Proofs.Tree.Declaration
import InfraModule.Proofs.Tree.Graft

/-!
# Subtrees that are alike

Two subtrees, which may stand in two trees, are alike if they are the same but for the ids of their
nodes (`Tree.Alike`). Declarations are alike exactly if they are of one kind, stand at one location
and have the same keys bound to what is alike (`Tree.alike_declaration_iff`). A tree that is
embedded in two others, as one is that was built behind different nodes, is alike in both
(`Tree.Embeds.alike`).
-/

namespace InfraModule

/-! ## Children that are related -/

section Related

variable {R : NodeId → NodeId → Prop}

/-- Two slots have one key, and both hold nothing or what they hold is related. -/
def Slot.Related (R : NodeId → NodeId → Prop) (slot slot' : Slot) : Prop :=
  slot'.key = slot.key ∧ Option.Rel R slot.value slot'.value

namespace Slot

variable {slots slots' : List Slot} {ids : List NodeId}

/-- Slots that are refilled with what is related are related to what they were. -/
theorem related_refill (h : List.Forall₂ R (slots.filterMap Slot.value) ids) :
    List.Forall₂ (Related R) slots (refill slots ids) := by
  induction slots generalizing ids with
  | nil =>
    cases h
    exact .nil
  | cons slot slots ih =>
    obtain ⟨key, value⟩ := slot
    cases value with
    | none =>
      have hrest := ih h
      have hempty : Related R ⟨key, none⟩ ⟨key, none⟩ := ⟨rfl, .none⟩
      -- An empty slot takes no id, whether or not one is left.
      cases ids with
      | nil => cases slots <;> exact .cons hempty hrest
      | cons id ids => exact .cons hempty hrest
    | some id =>
      obtain ⟨id', ids', hid, hrest, rfl⟩ := List.forall₂_cons_left_iff.mp h
      exact .cons ⟨rfl, .some hid⟩ (ih hrest)

/-- Slots to which others are related are these refilled. -/
theorem refill_of_related (h : List.Forall₂ (Related R) slots slots') :
    refill slots (slots'.filterMap Slot.value) = slots' := by
  induction h with
  | nil => rfl
  | @cons slot slot' slots slots' hslot _ ih =>
    obtain ⟨key, value⟩ := slot
    obtain ⟨key', value'⟩ := slot'
    obtain ⟨rfl, hvalue⟩ := hslot
    cases hvalue with
    | some => exact congrArg (_ :: ·) ih
    | none =>
      rw [List.filterMap_cons_none rfl]
      cases hids : slots'.filterMap Slot.value with
      | nil =>
        rw [hids] at ih
        cases slots <;> exact congrArg (_ :: ·) ih
      | cons id ids =>
        rw [hids] at ih
        exact congrArg (_ :: ·) ih

/-- Slots of the same distinct keys are related exactly if what they hold for each key is. -/
theorem forall₂_related_iff (hkeys : slots'.map Slot.key = slots.map Slot.key)
    (hnodup : (slots.map Slot.key).Nodup) : List.Forall₂ (Related R) slots slots' ↔ ∀ key,
      Option.Rel R ((slots.find? (·.key == key)).bind Slot.value)
        ((slots'.find? (·.key == key)).bind Slot.value) := by
  induction slots generalizing slots' with
  | nil =>
    obtain rfl : slots' = [] := List.map_eq_nil_iff.mp hkeys
    exact iff_of_true .nil fun _ => .none
  | cons slot slots ih =>
    obtain ⟨slot', slots', rfl, hkey, hkeys⟩ := List.map_eq_cons_iff.mp hkeys
    obtain ⟨hnotMem, hnodup⟩ := List.nodup_cons.mp hnodup
    rw [List.forall₂_cons, ih hkeys hnodup]
    -- No later slot has the key of the first one.
    have hnone {slots : List Slot} (h : slot.key ∉ slots.map Slot.key) :
        slots.find? (·.key == slot.key) = none := by
      rw [List.find?_eq_none]
      exact fun other hother heq => h (List.mem_map.mpr ⟨other, hother, by simpa using heq⟩)
    constructor
    · rintro ⟨⟨-, hvalue⟩, hrest⟩ key
      by_cases heq : slot.key = key
      · simpa [heq, hkey] using hvalue
      · simpa [heq, hkey] using hrest key
    · intro h
      refine ⟨⟨hkey, by simpa [hkey] using h slot.key⟩, fun key => ?_⟩
      by_cases heq : slot.key = key
      · subst heq
        rw [hnone hnotMem, hnone (hkeys ▸ hnotMem)]
        exact .none
      · simpa [heq, hkey] using h key

end Slot

namespace Declaration

variable {d d' : Declaration} {ids : List NodeId}

/-- The slots of declarations of one kind are related exactly if what is bound to each key other
than the keyword is. -/
theorem forall₂_slots_iff (hkind : d'.kind = d.kind) :
    List.Forall₂ (Slot.Related R) d.slots d'.slots
      ↔ ∀ key, Option.Rel R (d.property? key) (d'.property? key) :=
  Slot.forall₂_related_iff (by rw [d.slots_keys, d'.slots_keys, hkind]) d.nodup_keys

/-- Declarations of one kind bind what is related exactly if they do so for the keyword and for the
other keys. -/
theorem bound?_related_iff (hkind : d'.kind = d.kind) :
    (∀ key, Option.Rel R (d.bound? key) (d'.bound? key))
      ↔ Option.Rel R d.keyword d'.keyword ∧
        List.Forall₂ (Slot.Related R) d.slots d'.slots := by
  rw [forall₂_slots_iff hkind]
  constructor
  · intro h
    refine ⟨?_, fun key => ?_⟩
    · cases hkeyword : d.kind.keyword with
      | none =>
        have hnone : d.keyword = none := by simpa [hkeyword] using d.keyword_isSome
        have hnone' : d'.keyword = none := by simpa [hkind, hkeyword] using d'.keyword_isSome
        rw [hnone, hnone']
        exact .none
      | some key =>
        simpa [bound?, Kind.isKeyword, hkind, hkeyword] using h key
    · by_cases hkey : d.kind.isKeyword key = true
      · have hnone {e : Declaration} (he : e.kind = d.kind) : e.property? key = none := by
          rw [property?, List.find?_eq_none.mpr]
          · rfl
          · intro slot hslot heq
            refine Kind.notMem_propertyKeys_of_isKeyword hkey ?_
            rw [← he, ← e.slots_keys]
            exact List.mem_map.mpr ⟨slot, hslot, by simpa using heq⟩
        rw [hnone rfl, hnone hkind]
        exact .none
      · simpa [bound?, hkind, hkey] using h key
  · rintro ⟨hkeyword, hproperty⟩ key
    rw [bound?, bound?, hkind]
    split
    · exact hkeyword
    · exact hproperty key

/-- A declaration with other children, each related to the one in whose place it is put, binds to
each key what is related. -/
theorem bound?_withChildren (h : List.Forall₂ R d.children ids) (key : String) :
    Option.Rel R (d.bound? key) ((d.withChildren ids).bound? key) := by
  have hkind : (d.withChildren ids).kind = d.kind := rfl
  refine (bound?_related_iff hkind).mpr ?_ key
  obtain ⟨kind, keyword, slots, hsome, hkeys⟩ := d
  cases keyword with
  | none => exact ⟨.none, Slot.related_refill h⟩
  | some id =>
    obtain ⟨id', ids', hid, hrest, rfl⟩ := List.forall₂_cons_left_iff.mp h
    exact ⟨.some hid, Slot.related_refill hrest⟩

/-- A declaration that binds to each key what is related is the other one with its children. -/
theorem withChildren_of_related (hkind : d'.kind = d.kind)
    (h : ∀ key, Option.Rel R (d.bound? key) (d'.bound? key)) :
    d.withChildren d'.children = d' ∧ List.Forall₂ R d.children d'.children := by
  obtain ⟨hkeyword, hslots⟩ := (bound?_related_iff hkind).mp h
  have hrefill := Slot.refill_of_related hslots
  have hvalues : List.Forall₂ R (d.slots.filterMap Slot.value) (d'.slots.filterMap Slot.value) :=
    List.rel_filterMap (fun _ _ hslot => hslot.2) hslots
  obtain ⟨kind, keyword, slots, hsome, hkeys⟩ := d
  obtain ⟨kind', keyword', slots', hsome', hkeys'⟩ := d'
  cases hkeyword with
  | none => exact ⟨ext' hkind.symm rfl hrefill, hvalues⟩
  | some hid => exact ⟨ext' hkind.symm rfl hrefill, .cons hid hvalues⟩

end Declaration

end Related

namespace Tree

variable {t u g : Tree} {x y : NodeId} {n : Node} {f f' : NodeId → NodeId}

/-! ## Alike -/

/-- The subtrees at two nodes are the same, but for the ids of their nodes. -/
inductive Alike (t u : Tree) : NodeId → NodeId → Prop
  /-- The nodes are the same but for their children, and these are alike in order. -/
  | node {x y : NodeId} {n : Node} {ids : List NodeId} (hx : t.node? x = some n)
    (hy : u.node? y = some (n.withChildren ids)) (hlocation : u.location? y = t.location? x)
    (hlength : n.children.length = ids.length)
    (hchildren : ∀ c d, (c, d) ∈ n.children.zip ids → Alike t u c d) : Alike t u x y

/-- Nodes are alike if they are the same but for their children, and these are alike in order. -/
theorem Alike.of_forall₂ {ids : List NodeId} (hx : t.node? x = some n)
    (hy : u.node? y = some (n.withChildren ids)) (hlocation : u.location? y = t.location? x)
    (hchildren : List.Forall₂ (t.Alike u) n.children ids) : t.Alike u x y := by
  obtain ⟨hlength, hall⟩ := List.forall₂_iff_zip.mp hchildren
  exact .node hx hy hlocation hlength fun _ _ h => hall h

/-- Declarations are alike exactly if they are of one kind, stand at one location and have the same
keys bound to what is alike. -/
theorem alike_declaration_iff {d d' : Declaration} (hx : t.node? x = some (.declaration d))
    (hy : u.node? y = some (.declaration d')) : t.Alike u x y ↔
      u.location? y = t.location? x ∧ d'.kind = d.kind ∧
        ∀ key, Option.Rel (t.Alike u) (d.bound? key) (d'.bound? key) := by
  constructor
  · rintro ⟨hx', hy', hlocation, hlength, hchildren⟩
    cases hx.symm.trans hx'
    cases hy.symm.trans hy'
    refine ⟨hlocation, rfl, Declaration.bound?_withChildren ?_⟩
    exact List.forall₂_iff_zip.mpr ⟨hlength, fun hmem => hchildren _ _ hmem⟩
  · rintro ⟨hlocation, hkind, hbound⟩
    obtain ⟨hsame, hchildren⟩ := Declaration.withChildren_of_related hkind hbound
    refine .of_forall₂ hx ?_ hlocation hchildren
    rw [hy, Node.withChildren]
    exact congrArg (some ∘ Node.declaration) hsame.symm

/-- What is alike a declaration is a declaration of the same kind that has the same keys bound to
what is alike. -/
theorem Alike.exists_declaration {d : Declaration} (h : t.Alike u x y)
    (hx : t.node? x = some (.declaration d)) : ∃ d', u.node? y = some (.declaration d') ∧
      d'.kind = d.kind ∧ ∀ key, Option.Rel (t.Alike u) (d.bound? key) (d'.bound? key) := by
  obtain ⟨hx', hy, -⟩ := id h
  cases hx.symm.trans hx'
  obtain ⟨-, hkind, hbound⟩ := (alike_declaration_iff hx hy).mp h
  exact ⟨_, hy, hkind, hbound⟩

/-! ## Embeddings -/

/-- A tree stands in another under new ids, node by node and at the same locations. -/
structure Embeds (g t : Tree) (f : NodeId → NodeId) : Prop where
  /-- The new ids are distinct. -/
  injective : Function.Injective f
  /-- The nodes are the same but for the ids. -/
  node : ∀ x n, g.node? x = some n → t.node? (f x) = some (n.mapChildren f)
  /-- So are their locations. -/
  location : ∀ x < g.size, t.location? (f x) = g.location? x

/-- A tree is embedded where all its nodes stay as they are and where they are. -/
theorem embeds_of_retains (htu : t.Retains u)
    (hlocation : ∀ x < t.size, u.location? x = t.location? x) : t.Embeds u id where
  injective := Function.injective_id
  node x n hx := by
    rw [Node.mapChildren_id]
    exact htu x n hx
  location := hlocation

/-- A tree is embedded in what extends it, under the same ids. -/
theorem Extends.embeds (h : t.Extends u) : t.Embeds u id :=
  embeds_of_retains h.retains h.location

/-- A tree is embedded in what has it behind another tree. -/
theorem embeds_graft (t g : Tree) : g.Embeds (t.graft g) t.shift where
  injective := t.shift_injective
  node x n hx := by rw [node?_graft, hx, Option.map_some]
  location _ _ := location?_graft

namespace Embeds

/-- What is embedded in a tree is embedded in whatever that tree is embedded in. -/
theorem trans (h : g.Embeds t f) (h' : t.Embeds u f') : g.Embeds u (f' ∘ f) where
  injective := h'.injective.comp h.injective
  node x n hx := by
    rw [← Node.mapChildren_mapChildren]
    exact h'.node _ _ (h.node x n hx)
  location x hx := by
    obtain ⟨n, hn⟩ := node?_eq_some_iff_lt.mpr hx
    exact (h'.location _ (lt_size_of_node? (h.node x n hn))).trans (h.location x hx)

/-- A subtree that is embedded in two trees is alike in both. -/
theorem alike (hg : g.Sound) (h : g.Embeds t f) (h' : g.Embeds u f') (hx : x < g.size) :
    t.Alike u (f x) (f' x) := by
  have hlevels (levels : Nat) (x : NodeId) (hx : x < g.size) (hfits : g.Fits levels x) :
      t.Alike u (f x) (f' x) := by
    induction levels generalizing x with
    | zero => exact hfits.elim
    | succ levels ih =>
      obtain ⟨n, hn⟩ := node?_eq_some_iff_lt.mpr hx
      -- The one ids are renamed to the other.
      obtain ⟨r, hr⟩ : ∃ r, r ∘ f = f' :=
        ⟨Function.extend f f' id, Function.extend_comp h.injective f' id⟩
      have hy : u.node? (f' x) = some ((n.mapChildren f).withChildren (n.children.map f')) := by
        rw [h'.node x n hn, ← hr, ← List.map_map, ← n.children_mapChildren, Node.withChildren_map,
          Node.mapChildren_mapChildren]
      refine .of_forall₂ (h.node x n hn) hy ((h'.location x hx).trans (h.location x hx).symm) ?_
      rw [n.children_mapChildren, List.forall₂_map_left_iff, List.forall₂_map_right_iff,
        List.forall₂_same]
      intro c hc
      rw [← children_of_node? hn] at hc
      exact ih c (hg.lt_size_of_child hc) (hfits c hc)
  exact hlevels g.size x hx (hg.fits hx)

end Embeds

end Tree

end InfraModule
