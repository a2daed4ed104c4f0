import InfraModule.Proofs.Tree.Reachable

/-!
# What attaching and detaching leave alone

An operation that attaches or detaches a node changes its owner in one place, be it a slot, an item
or an entry, where one node gives way to another or to none (`Node.Exchange`). Other nodes, owners
and targets stay, and so do the edges of all references outside the subtrees that come and go
(`Tree.Relinks`). Taking out what was put in restores the owner, for it is looked for by its id and
stands in the new place only; so attaching and detaching a node again restores the whole tree but
for its edges.
-/

namespace InfraModule

open Result

/-! ## One place of a node -/

namespace Slot

variable {c : NodeId} {key : String} {slots : List Slot}

/-- The slot that is emptied is one that holds the node. -/
theorem exists_of_release (h : c ∈ slots.filterMap Slot.value) : ∃ before key after,
    slots = before ++ ⟨key, some c⟩ :: after ∧
      release c slots = before ++ ⟨key, none⟩ :: after := by
  induction slots with
  | nil => simp at h
  | cons slot slots ih =>
    unfold release
    by_cases hv : slot.value = some c
    · exact ⟨[], slot.key, slots, by rw [← hv]; rfl, by rw [if_pos hv]; rfl⟩
    · have hrest : c ∈ slots.filterMap Slot.value := by
        rw [List.mem_filterMap] at h ⊢
        obtain ⟨s, hs, hc⟩ := h
        exact ⟨s, (List.mem_cons.mp hs).resolve_left fun he => hv (he ▸ hc), hc⟩
      obtain ⟨before, key, after, hslots, hrelease⟩ := ih hrest
      refine ⟨slot :: before, key, after, ?_, ?_⟩
      · rw [hslots, List.cons_append]
      · rw [if_neg hv, hrelease, List.cons_append]

/-- A node that stands in one slot only is found there. -/
theorem release_append {before after : List Slot} (h : c ∉ before.filterMap Slot.value) :
    release c (before ++ ⟨key, some c⟩ :: after) = before ++ ⟨key, none⟩ :: after := by
  induction before with
  | nil => simp [release]
  | cons slot before ih =>
    have hv : slot.value ≠ some c := fun hv => h (by simp [hv])
    have hbefore : c ∉ before.filterMap Slot.value := by
      rw [List.mem_filterMap] at h ⊢
      exact fun ⟨s, hs, hc⟩ => h ⟨s, List.mem_cons_of_mem slot hs, hc⟩
    rw [List.cons_append, release, if_neg hv, ih hbefore, List.cons_append]

/-- Binding a key fills the one slot that has the key. -/
theorem exists_of_bind (h : key ∈ slots.map Slot.key) (hnodup : (slots.map Slot.key).Nodup) :
    ∃ before after, slots
        = before ++ ⟨key, (slots.find? (·.key == key)).bind Slot.value⟩ :: after ∧
      ∀ value, bind key value slots = before ++ ⟨key, value⟩ :: after := by
  induction slots with
  | nil => simp at h
  | cons slot slots ih =>
    rw [List.map_cons, List.nodup_cons] at hnodup
    by_cases hkey : slot.key = key
    · -- No later slot has the key.
      refine ⟨[], slots, ?_, fun value => ?_⟩
      · simp [← hkey]
      · have hrest := bind_of_notMem value (hkey ▸ hnodup.1)
        calc bind key value (slot :: slots) = ⟨slot.key, value⟩ :: bind key value slots := by
              simp [bind, hkey]
          _ = [] ++ ⟨key, value⟩ :: slots := by rw [hrest, hkey, List.nil_append]
    · rw [List.map_cons, List.mem_cons] at h
      obtain ⟨before, after, hslots, hbind⟩ := ih (h.resolve_left (Ne.symm hkey)) hnodup.2
      have hfind : (slot :: slots).find? (·.key == key) = slots.find? (·.key == key) := by
        simp [hkey]
      refine ⟨slot :: before, after, ?_, fun value => ?_⟩
      · rw [hfind, List.cons_append, ← hslots]
      · calc bind key value (slot :: slots) = slot :: bind key value slots := by
              simp [bind, hkey]
          _ = (slot :: before) ++ ⟨key, value⟩ :: after := by rw [hbind, List.cons_append]

end Slot

/-- What is taken out of a call is the parameters of a substitution. -/
theorem Call.eq_sub_of_remove {f rest : Call} {c : NodeId} (h : f.remove c = .removed rest) :
    ∃ format, f = .sub format (some c) ∧ rest = .sub format none := by
  have hother (hremove : f.remove c = if c ∈ f.operands then .required else .notFound) : False := by
    rw [hremove] at h
    split at h <;> cases h
  cases f with
  | sub format parameters =>
    cases parameters with
    | none => exact (hother rfl).elim
    | some parameters =>
      simp only [Call.remove] at h
      split at h
      · next he =>
        cases h
        exact ⟨format, by rw [he], rfl⟩
      · split at h <;> cases h
  | _ => exact (hother rfl).elim

namespace Node

/-- The second node is the first with `new` in the place of `old`. A place that holds nothing is an
empty slot of a declaration, the missing parameters of `!Sub`, or any point in a list, collection
or object. Whatever else the node has stands where it stood. -/
inductive Exchange (old new : Option NodeId) : Node → Node → Prop
  | slot {d d' : Declaration} {before after : List Slot} {key : String} (hkind : d'.kind = d.kind)
      (hkeyword : d'.keyword = d.keyword) (hslots : d.slots = before ++ ⟨key, old⟩ :: after)
      (hslots' : d'.slots = before ++ ⟨key, new⟩ :: after) :
      Exchange old new (.declaration d) (.declaration d')
  | element (before after : List NodeId) :
      Exchange old new (.collection (before ++ old.toList ++ after))
        (.collection (before ++ new.toList ++ after))
  | item (before after : List NodeId) :
      Exchange old new (.expression (.list (before ++ old.toList ++ after)))
        (.expression (.list (before ++ new.toList ++ after)))
  | entry (before after : Entries) (key : Key) :
      Exchange old new (.expression (.object (before ++ (old.map (key, ·)).toList ++ after)))
        (.expression (.object (before ++ (new.map (key, ·)).toList ++ after)))
  | parameters (format : NodeId) :
      Exchange old new (.expression (.call (.sub format old)))
        (.expression (.call (.sub format new)))

variable {n n' : Node} {c : NodeId}

/-- Binding a key exchanges what is bound to it. -/
theorem exchange_withProperty {d : Declaration} {key : String} (value : Option NodeId)
    (h : d.hasProperty key = true) :
    Exchange (d.property? key) value (.declaration d) (.declaration (d.withProperty key value)) := by
  have hkey : key ∈ d.slots.map Slot.key := by
    rw [d.slots_keys]
    exact d.hasProperty_iff key |>.mp h
  obtain ⟨before, after, hslots, hbind⟩ := Slot.exists_of_bind hkey d.nodup_keys
  exact .slot rfl rfl hslots (hbind value)

/-- Appending puts a child where nothing stood. -/
theorem exchange_of_push? (h : n.push? c = some n') : Exchange none (some c) n n' := by
  unfold push? at h
  split at h
  · next items =>
    cases h
    simpa using (.item items [] : Exchange none (some c) _ _)
  · next items =>
    cases h
    simpa using (.element items [] : Exchange none (some c) _ _)
  · cases h

/-- An entry is inserted where nothing stood. -/
theorem exchange_append_entry (entries : Entries) (key : Key) (c : NodeId) :
    Exchange none (some c) (.expression (.object entries))
      (.expression (.object (entries ++ [(key, c)]))) := by
  simpa using (.entry entries [] key : Exchange none (some c) _ _)

/-- Taking a child out exchanges it for nothing. -/
theorem exchange_of_remove (h : n.remove c = .removed n') : Exchange (some c) none n n' := by
  match n with
  | .declaration d =>
    obtain ⟨d', hd, rfl⟩ := Removal.map_eq_removed.mp h
    simp only [Declaration.remove] at hd
    split at hd
    · cases hd
    -- The node is not the keyword; it leaves the one slot that binds it.
    · split at hd
      · next hmem =>
        cases hd
        obtain ⟨before, key, after, hslots, hrelease⟩ := Slot.exists_of_release hmem
        exact .slot rfl rfl hslots hrelease
      · cases hd
  | .collection items =>
    simp only [remove] at h
    split at h
    · next hmem =>
      cases h
      obtain ⟨before, after, -, hitems, herase⟩ := List.exists_erase_eq hmem
      rw [herase, hitems]
      simpa using (.element before after : Exchange (some c) none _ _)
    · cases h
  | .expression (.literal l) => cases h
  | .expression (.list items) =>
    simp only [remove, Expression.remove] at h
    split at h
    · next hmem =>
      cases h
      obtain ⟨before, after, -, hitems, herase⟩ := List.exists_erase_eq hmem
      rw [herase, hitems]
      simpa using (.item before after : Exchange (some c) none _ _)
    · cases h
  | .expression (.object entries) =>
    simp only [remove, Expression.remove] at h
    split at h
    · next hmem =>
      cases h
      obtain ⟨entry, hentry, hvalue⟩ := List.mem_map.mp hmem
      obtain ⟨⟨key, _⟩, before, after, -, hfound, hentries, herase⟩ :=
        List.exists_of_eraseP (p := (·.2 == c)) hentry (by simpa using hvalue)
      rw [beq_iff_eq] at hfound
      subst hfound
      rw [herase, hentries]
      simpa using (.entry before after key : Exchange (some _) none _ _)
    · cases h
  | .expression (.call f) =>
    obtain ⟨e, he, rfl⟩ := Removal.map_eq_removed.mp h
    obtain ⟨f', hf, rfl⟩ := Removal.map_eq_removed.mp he
    -- Only the parameters of `!Sub` can be taken out of a call.
    obtain ⟨format, rfl, rfl⟩ := Call.eq_sub_of_remove hf
    exact .parameters format
  | .expression (.condition condition) =>
    obtain ⟨e, he, rfl⟩ := Removal.map_eq_removed.mp h
    obtain ⟨condition', hcondition, rfl⟩ := Removal.map_eq_removed.mp he
    exact (Condition.remove_ne_removed condition condition' c hcondition).elim

/-- Taking out the node that came to a place gives back what there was before. -/
theorem remove_of_exchange (h : Exchange none (some c) n n') (hc : c ∉ n.children) :
    n'.remove c = .removed n := by
  cases h with
  | @slot d d' before after key hkind hkeyword hslots hslots' =>
    rw [children, Declaration.children, List.mem_append, not_or, hslots] at hc
    have hrequired : ¬ d'.keyword = some c := fun he => hc.1 (by simp [← hkeyword, he])
    have hbefore : c ∉ before.filterMap Slot.value := by
      refine fun hmem => hc.2 ?_
      rw [List.filterMap_append]
      exact List.mem_append_left _ hmem
    have hmem : c ∈ d'.slots.filterMap Slot.value := by simp [hslots']
    have hd : Slot.release c d'.slots = d.slots := by
      rw [hslots', Slot.release_append hbefore, hslots]
    rw [remove, Declaration.remove, if_neg hrequired, if_pos hmem, Removal.map]
    exact congrArg (Removal.removed ∘ declaration) (Declaration.ext' hkind hkeyword hd)
  | element before after =>
    have hbefore : c ∉ before := fun hmem => hc (by simp [children, hmem])
    simp [remove, List.erase_append_right _ hbefore]
  | item before after =>
    have hbefore : c ∉ before := fun hmem => hc (by simp [children, Expression.children, hmem])
    simp [remove, Expression.remove, Removal.map, List.erase_append_right _ hbefore]
  | entry before after key =>
    have hbefore : ∀ entry ∈ before, ¬ (entry.2 == c) = true := by
      intro entry hentry he
      refine hc ?_
      rw [beq_iff_eq] at he
      simp only [children, Expression.children, List.map_append, List.mem_append]
      exact Or.inl (Or.inl (he ▸ List.mem_map_of_mem hentry))
    simp [remove, Expression.remove, Removal.map, List.eraseP_append_right _ hbefore]
  | parameters format =>
    simp [remove, Expression.remove, Call.remove, Removal.map]

end Node

/-! ## Trees -/

namespace Tree

variable {t s u : Tree} {p c : NodeId} {old new : Option NodeId} {n n' : Node}

/-- The tree with the root `new` attached to `p` in the place of its child `old`. If both are given,
one takes the place of the other; if only one is, it is attached or detached. -/
structure Relinks (t u : Tree) (p : NodeId) (old new : Option NodeId) : Prop where
  /-- No node is created or lost. -/
  size : u.size = t.size
  /-- All nodes stay but for the owner. -/
  node : ∀ x, x ≠ p → u.node? x = t.node? x
  /-- The owner changes in one place. -/
  owner : ∃ n n', t.node? p = some n ∧ u.node? p = some n' ∧ n.Exchange old new n'
  /-- What is detached was a child. -/
  child : ∀ c, old = some c → t.parent? c = some p
  /-- What is attached was a root. -/
  root : ∀ c, new = some c → t.parent? c = none
  /-- All owners stay but for those of the nodes that come and go. -/
  parent : ∀ x, u.parent? x
    = if new = some x then some p else if old = some x then none else t.parent? x
  /-- All targets stay. -/
  target : u.target? = t.target?
  /-- All locations stay. -/
  location : u.location? = t.location?
  /-- Edges stay whose references lie outside the subtrees that come and go. -/
  edge : ∀ e : Edge, (∀ c, old = some c ∨ new = some c → ¬ t.Within c e.via) →
    (e ∈ u.graph.edges ↔ e ∈ t.graph.edges)

/-- Where edges are fresh after nodes have come and gone, the other edges have stayed. -/
theorem Updates.relinks (h : t.Updates u) (ht : t.Sound) (hu : u.Sound) (hsize : u.size = t.size)
    (hnode : ∀ x, x ≠ p → u.node? x = t.node? x)
    (howner : ∃ n n', t.node? p = some n ∧ u.node? p = some n' ∧ n.Exchange old new n')
    (hchild : ∀ c, old = some c → t.parent? c = some p)
    (hroot : ∀ c, new = some c → t.parent? c = none)
    (hparent : ∀ x, u.parent? x
      = if new = some x then some p else if old = some x then none else t.parent? x)
    (htarget : u.target? = t.target?) (hlocation : u.location? = t.location?) :
    t.Relinks u p old new := by
  refine ⟨hsize, hnode, howner, hchild, hroot, hparent, htarget, hlocation, fun e houtside => ?_⟩
  have hedge : u.graph.edgeFor? e.via = t.graph.edgeFor? e.via := by
    by_cases hlt : e.via < t.size
    · -- No node above the reference comes or goes.
      refine h.kept e.via hlt ⟨congrFun htarget e.via, fun a ha => ?_⟩
      have hnew : new ≠ some a := fun hnew => houtside a (Or.inr hnew) ha
      have hold : old ≠ some a := fun hold => houtside a (Or.inl hold) ha
      rw [hparent, if_neg hnew, if_neg hold]
    · -- Where there is no node, there is no edge.
      have hnone := target?_eq_none_of_le (Nat.not_lt.mp hlt)
      rw [ht.edge hnone, hu.edge ((congrFun htarget e.via).trans hnone)]
  have hmem {v : Tree} (hv : v.Sound) :
      e ∈ v.graph.edges ↔ v.graph.edgeFor? e.via = some e := by
    rw [hv.sorted.edgeFor?_eq_some]
    simp
  rw [hmem hu, hmem ht, hedge]

/-- Attaching a root. -/
theorem Sound.relinks_move_some (ht : t.Sound) (hp : t.node? p = some n) (hn : n'.Without c n)
    (ha : t.Attachable p c) (hexchange : n.Exchange none (some c) n') :
    t.Relinks (t.move p n' c (some p)) p none (some c) := by
  have hlt := lt_size_of_node? hp
  refine (ht.updates_move_some hp hn ha).relinks ht (ht.move_some hp hn ha) size_move
    (fun x hx => ?_) ⟨n, n', hp, ?_, hexchange⟩ (by simp) (by simpa using ha.root) (fun x => ?_)
    (target?_move hp hn.target.symm) location?_move
  · rw [node?_move hlt, if_neg hx]
  · rw [node?_move hlt, if_pos rfl]
  · rw [parent?_move ha.child]
    simp [eq_comm]

/-- Detaching a child. -/
theorem Sound.relinks_move_none (ht : t.Sound) (hp : t.node? p = some n) (hn : n.Without c n')
    (hc : t.parent? c = some p) (hexchange : n.Exchange (some c) none n') :
    t.Relinks (t.move p n' c none) p (some c) none := by
  have hlt := lt_size_of_node? hp
  refine (ht.updates_move_none hp hn hc).relinks ht (ht.move_none hp hn hc) size_move
    (fun x hx => ?_) ⟨n, n', hp, ?_, hexchange⟩ (by simpa using hc) (by simp) (fun x => ?_)
    (target?_move hp hn.target) location?_move
  · rw [node?_move hlt, if_neg hx]
  · rw [node?_move hlt, if_pos rfl]
  · rw [parent?_move (lt_size_of_parent? hc)]
    simp [eq_comm]

section Rebind

variable {d : Declaration} {key : String} {value : Option NodeId} {x : NodeId}

/-- Binding a key anew changes the one declaration. -/
theorem node?_rebind (hp : t.node? p = some (.declaration d)) :
    ((t.vacate p d key).occupy p d key value).node? x
      = if x = p then some (.declaration (d.withProperty key value)) else t.node? x := by
  have hlt := lt_size_of_node? hp
  have hvacate : (t.vacate p d key).node? x
      = if x = p then some (.declaration (d.withProperty key none)) else t.node? x := by
    by_cases hx : x = p
    · rw [if_pos hx, hx, node?_vacate hp]
    · cases hold : d.property? key with
      | none => rw [vacate_of_none hold, if_neg hx]
      | some old => rw [vacate_of_some hold, node?_move hlt, if_neg hx]
  cases value with
  | none => exact hvacate
  | some v =>
    rw [occupy, node?_move (by simpa using hlt), hvacate]
    split <;> rfl

/-- Binding a key anew changes no target. -/
theorem target?_rebind (hp : t.node? p = some (.declaration d)) :
    ((t.vacate p d key).occupy p d key value).target? = t.target? := by
  have hvacant : (t.vacate p d key).node? p = some (.declaration (d.withProperty key none)) :=
    node?_vacate hp
  cases value with
  | none => exact target?_vacate hp
  | some v =>
    have htarget : (Node.declaration (d.withProperty key (some v))).target
        = (Node.declaration (d.withProperty key none)).target := rfl
    rw [occupy, target?_move hvacant htarget, target?_vacate hp]

/-- Binding a key anew makes the old value a root and the declaration the owner of the new one. -/
theorem Sound.parent?_rebind (ht : t.Sound) (hp : t.node? p = some (.declaration d))
    (hkey : d.hasProperty key = true) (ha : ∀ v, value = some v → t.Attachable p v) :
    ((t.vacate p d key).occupy p d key value).parent? x
      = if value = some x then some p else if d.property? key = some x then none
        else t.parent? x := by
  have hvacate : (t.vacate p d key).parent? x
      = if d.property? key = some x then none else t.parent? x := by
    cases hold : d.property? key with
    | none => simp [vacate_of_none hold]
    | some old =>
      have hlt := lt_size_of_parent? (ht.parent?_property? hp hkey hold)
      rw [vacate_of_some hold, parent?_move hlt]
      simp [eq_comm]
  cases value with
  | none => simpa [Tree.occupy] using hvacate
  | some v =>
    rw [Tree.occupy, parent?_move (by simpa using (ha v rfl).child), hvacate]
    simp [eq_comm]

/-- Binding a key anew. -/
theorem Sound.relinks_rebind (ht : t.Sound) (hp : t.node? p = some (.declaration d))
    (hkey : d.hasProperty key = true) (ha : ∀ v, value = some v → t.Attachable p v) :
    t.Relinks ((t.vacate p d key).occupy p d key value) p (d.property? key) value := by
  refine (ht.updates_rebind hp hkey ha).relinks ht (ht.rebind hp hkey ha) (by simp)
    (fun x hx => ?_) ⟨_, _, hp, ?_, Node.exchange_withProperty value hkey⟩
    (fun c => ht.parent?_property? hp hkey) (fun c hc => (ha c hc).root)
    (fun x => ht.parent?_rebind hp hkey ha) (target?_rebind hp) (by simp)
  · rw [node?_rebind hp, if_neg hx]
  · rw [node?_rebind hp, if_pos rfl]

end Rebind

/-- A node that has been attached is taken out again, and nodes, owners and targets are what they
were. -/
theorem Relinks.detach (h : t.Relinks u p none (some c)) (ht : t.Sound) (hu : u.Sound) :
    ∃ v, TreeM.detach c u = .ok () v ∧ v.node? = t.node? ∧ v.parent? = t.parent? ∧
      v.target? = t.target? ∧ v.location? = t.location? := by
  obtain ⟨n, n', hp, hp', hexchange⟩ := h.owner
  have hroot : t.parent? c = none := h.root c rfl
  have hc : u.parent? c = some p := by rw [h.parent, if_pos rfl]
  -- The owner did not name the node before.
  have hnew : c ∉ n.children := by
    rw [← children_of_node? hp, ht.owner, hroot]
    simp
  have hremove := Node.remove_of_exchange hexchange hnew
  have hrelinks := hu.relinks_move_none hp' (Node.without_of_remove hremove) hc
    (Node.exchange_of_remove hremove)
  refine ⟨_, TreeM.detach_of_removed hc hp' hremove, ?_, ?_, ?_, ?_⟩
  · funext x
    rw [node?_move (lt_size_of_node? hp')]
    split
    · next hx => rw [hx, hp]
    · next hx => exact h.node x hx
  · funext x
    rw [hrelinks.parent, h.parent]
    by_cases hx : x = c
    · simp [hx, hroot]
    · simp [Ne.symm hx]
  · rw [hrelinks.target, h.target]
  · rw [hrelinks.location, h.location]

end Tree

/-! ## Operations -/

namespace TreeM

variable {t u : Tree} {p c : NodeId}

/-- Binding a key puts the new value in the place of the old. -/
theorem relinks_of_setProperty {key : String} {value previous : Option NodeId} (ht : t.Sound)
    (h : setProperty p key value t = .ok previous u) :
    t.Relinks u p previous value ∧ ∃ d, t.node? p = some (.declaration d) ∧
      d.property? key = previous ∧ u.node? p = some (.declaration (d.withProperty key value)) := by
  rcases setProperty_cases t p key value with ⟨d, hp, hkey, ha⟩ | ⟨e, he⟩
  · rw [setProperty_of_attachable ht hp hkey ha] at h
    cases h
    exact ⟨ht.relinks_rebind hp hkey ha, d, hp, rfl, by rw [Tree.node?_rebind hp, if_pos rfl]⟩
  · rw [he] at h
    cases h

/-- Appending attaches the child behind the items. -/
theorem relinks_of_pushChild (ht : t.Sound) (h : pushChild p c t = .ok () u) :
    t.Relinks u p none (some c) ∧
      ∃ items, t.listItems? p = some items ∧ u.listItems? p = some (items ++ [c]) := by
  rcases pushChild_cases t p c with ⟨ha, n, n', hp, hpush⟩ | ⟨e, he⟩
  · rw [pushChild_of_attachable ha hp hpush] at h
    cases h
    have hrelinks := ht.relinks_move_some hp (Node.without_of_push? hpush) ha
      (Node.exchange_of_push? hpush)
    refine ⟨hrelinks, ?_⟩
    have hp' : (t.move p n' c (some p)).node? p = some n' := by
      rw [Tree.node?_move ha.owner, if_pos rfl]
    unfold Node.push? at hpush
    split at hpush
    · next items =>
      cases hpush
      exact ⟨items, by rw [Tree.listItems?, hp], by rw [Tree.listItems?, hp']⟩
    · next items =>
      cases hpush
      exact ⟨items, by rw [Tree.listItems?, hp], by rw [Tree.listItems?, hp']⟩
    · cases hpush
  · rw [he] at h
    cases h

/-- Inserting attaches the value behind the entries, unless the key is there: then nothing
changes. -/
theorem relinks_of_insertEntry {k : Key} {inserted : Bool} (ht : t.Sound)
    (h : insertEntry p k c t = .ok inserted u) : if inserted then
      t.Relinks u p none (some c) ∧ ∃ entries, t.objectEntries? p = some entries ∧
        u.objectEntries? p = some (entries ++ [(k, c)])
      else u = t := by
  rcases insertEntry_cases t p k c with ⟨ha, entries, hp⟩ | ⟨e, he⟩
  · cases hk : entries.contains k.text with
    | true =>
      rw [insertEntry_of_contains ha hp hk] at h
      cases h
      rfl
    | false =>
      rw [insertEntry_of_attachable ha hp hk] at h
      cases h
      have hp' : (t.move p (.expression (.object (entries ++ [(k, c)]))) c (some p)).node? p
          = some (.expression (.object (entries ++ [(k, c)]))) := by
        rw [Tree.node?_move ha.owner, if_pos rfl]
      refine ⟨ht.relinks_move_some hp (Node.without_entry entries k c) ha
        (Node.exchange_append_entry entries k c), entries, ?_, ?_⟩
      · simp [Tree.objectEntries?, Tree.expression?, hp, Node.expression?]
      · simp [Tree.objectEntries?, Tree.expression?, hp', Node.expression?]
  · rw [he] at h
    cases h

/-- Detaching a root changes nothing. -/
theorem relinks_of_detach (ht : t.Sound) (h : detach c t = .ok () u) :
    (t.parent? c).elim (u = t) fun p => t.Relinks u p (some c) none := by
  rcases detach_cases ht c with ⟨p, n, n', hc, hp, hremove⟩ | ⟨-, hc, hok⟩ | ⟨-, he⟩ | ⟨p, -, he⟩
  · rw [detach_of_removed hc hp hremove] at h
    cases h
    rw [hc]
    exact ht.relinks_move_none hp (Node.without_of_remove hremove) hc
      (Node.exchange_of_remove hremove)
  · rw [hok] at h
    cases h
    rw [hc]
    rfl
  · rw [he] at h
    cases h
  · rw [he] at h
    cases h

end TreeM

namespace Tree

/-- Whatever operations build a tree, binding a key, appending a child, adding an entry and
detaching a node do nothing but exchange one node for another in one place of its owner, where
either may be none (`Relinks`): the value of the key for the previous one, the child at the end of
the list, the entry at the end of the object, and nothing for the node that is detached. An entry
whose key is there already and a root that is detached change nothing at all. A root that has been
attached in an empty place can be detached, and then all nodes, owners, targets and locations are
what they were. -/
theorem moves_framed (ops : List Operation) :
    let t := after ops
    (∀ p key value previous u, TreeM.setProperty p key value t = .ok previous u →
      t.Relinks u p previous value ∧ ∃ d, t.node? p = some (.declaration d) ∧
        d.property? key = previous ∧ u.node? p = some (.declaration (d.withProperty key value))) ∧
    (∀ p c u, TreeM.pushChild p c t = .ok () u → t.Relinks u p none (some c) ∧
      ∃ items, t.listItems? p = some items ∧ u.listItems? p = some (items ++ [c])) ∧
    (∀ p k c inserted u, TreeM.insertEntry p k c t = .ok inserted u → if inserted then
        t.Relinks u p none (some c) ∧ ∃ entries, t.objectEntries? p = some entries ∧
          u.objectEntries? p = some (entries ++ [(k, c)])
      else u = t) ∧
    (∀ c u, TreeM.detach c t = .ok () u →
      (t.parent? c).elim (u = t) fun p => t.Relinks u p (some c) none) ∧
    (∀ p c u, TreeM.pushChild p c t = .ok () u ∨
        (∃ k, TreeM.insertEntry p k c t = .ok true u) ∨
        (∃ key, TreeM.setProperty p key (some c) t = .ok none u) →
      ∃ v, TreeM.detach c u = .ok () v ∧ v.node? = t.node? ∧ v.parent? = t.parent? ∧
        v.target? = t.target? ∧ v.location? = t.location?) := by
  intro t
  have ht : t.Sound := sound_after ops
  refine ⟨fun p key value previous u => TreeM.relinks_of_setProperty ht,
    fun p c u => TreeM.relinks_of_pushChild ht,
    fun p k c inserted u => TreeM.relinks_of_insertEntry ht,
    fun c u => TreeM.relinks_of_detach ht, fun p c u hattached => ?_⟩
  -- A tree that an operation leaves is sound as well.
  rcases hattached with h | ⟨k, h⟩ | ⟨key, h⟩
  · have hu := (ht.recorded (.pushChild p c)).sound
    rw [Operation.apply, Operation.perform, h] at hu
    exact (TreeM.relinks_of_pushChild ht h).1.detach ht hu
  · have hu := (ht.recorded (.insertEntry p k c)).sound
    rw [Operation.apply, Operation.perform, final_discard, h] at hu
    exact (TreeM.relinks_of_insertEntry ht h).1.detach ht hu
  · have hu := (ht.recorded (.setProperty p key (some c))).sound
    rw [Operation.apply, Operation.perform, final_discard, h] at hu
    exact (TreeM.relinks_of_setProperty ht h).1.detach ht hu

/-- The variable `1` gets the value `2`, and when that is detached the variable is what it was. -/
theorem moves_framed_of_value :
    let text (s : String) := Operation.add (.expression (.literal (.string s))) default
    let declared := ((Declaration.new? .variable (some 0)).map Node.declaration).toList
    let t := after ([text "Bucket"] ++ declared.map (.add · default) ++ [text "logs"])
    ∃ u, TreeM.setProperty 1 "Value" (some 2) t = .ok none u ∧ t.Relinks u 1 none (some 2) ∧
      u.parent? 2 = some 1 ∧ ∃ v, TreeM.detach 2 u = .ok () v ∧ v.node? = t.node? := by
  intro text declared t
  obtain ⟨u, hok⟩ : ∃ u, TreeM.setProperty 1 "Value" (some 2) t = .ok none u := by
    have hempty : (t.declaration? 1).bind (·.property? "Value") = none := by decide +kernel
    have hroot : t.parent? 2 = none := by decide +kernel
    have hbound : (final (TreeM.setProperty 1 "Value" (some 2) t)).parent? 2 = some 1 := by
      decide +kernel
    rcases TreeM.setProperty_cases t 1 "Value" (some 2) with ⟨d, hp, hkey, ha⟩ | ⟨e, he⟩
    · rw [declaration?, hp] at hempty
      have hnone : d.property? "Value" = none := hempty
      exact ⟨_, hnone ▸ TreeM.setProperty_of_attachable (sound_after _) hp hkey ha⟩
    · rw [he, final, hroot] at hbound
      cases hbound
  obtain ⟨hset, -, -, -, hundo⟩ := moves_framed _
  have hrelinks := (hset 1 "Value" (some 2) none u hok).1
  obtain ⟨v, hv, hnode, -⟩ := hundo 1 2 u (Or.inr (Or.inr ⟨"Value", hok⟩))
  exact ⟨u, hok, hrelinks, by rw [hrelinks.parent, if_pos rfl], v, hv, hnode⟩

end Tree

end InfraModule
