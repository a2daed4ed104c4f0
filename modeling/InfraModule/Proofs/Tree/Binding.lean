import InfraModule.Proofs.Tree.Link
import InfraModule.Proofs.Tree.Scope

/-!
# What linking binds

Linking computes the names of all items first and binds the references afterwards. That is sound
because binding leaves a tree the `SameButTargets`, so that each look-up gives what it would have
given at the start: the reference is bound to what its name is found as (`boundTo?`), whatever it
was bound to before and in whatever order references are bound. Where that is its target already,
nothing happens, not even to edges; so linking again changes nothing.
-/

namespace InfraModule

open Result

namespace Tree

variable {t s u : Tree} {root e x : NodeId} {n : Node}

/-- What linking binds a reference to; one whose name is no literal keeps its old target. -/
def boundTo? (t : Tree) (root e : NodeId) (old : Option NodeId) : Option NodeId :=
  match t.referenceName? e with
  | none => old
  | some name => t.lookUp (t.namedItems root) e name

/-- What linking reports about a reference. -/
def unresolved? (t : Tree) (root e : NodeId) : Option Unresolved :=
  (t.referenceName? e).bind fun name =>
    if t.lookUp (t.namedItems root) e name = none then some { expression := e, name } else none

/-- A reference with a literal name is bound to what the name is found as. -/
theorem boundTo?_of_name {name : String} (h : t.referenceName? e = some name)
    (old : Option NodeId) : t.boundTo? root e old = t.lookUp (t.namedItems root) e name := by
  simp only [boundTo?, h]

/-- A reference without a literal name keeps its target. -/
theorem boundTo?_of_no_name (h : t.referenceName? e = none) (old : Option NodeId) :
    t.boundTo? root e old = old := by
  simp only [boundTo?, h]

/-- A reference that has been bound is bound to the same again. -/
theorem boundTo?_boundTo? (t : Tree) (root e : NodeId) (old : Option NodeId) :
    t.boundTo? root e (t.boundTo? root e old) = t.boundTo? root e old := by
  cases h : t.referenceName? e with
  | none => rw [boundTo?_of_no_name h]
  | some name => rw [boundTo?_of_name h, boundTo?_of_name h]

/-- What is reported about a reference names that reference. -/
theorem unresolved?_expression {found : Unresolved} (h : t.unresolved? root e = some found) :
    found.expression = e := by
  obtain ⟨name, -, hfound⟩ := Option.bind_eq_some_iff.mp h
  split at hfound
  · cases hfound
    rfl
  · cases hfound

/-- What is reported about references is reported in their order. -/
theorem expression_unresolved?_sublist (t : Tree) (root : NodeId) (rs : List NodeId) :
    ((rs.filterMap (t.unresolved? root)).map Unresolved.expression).Sublist rs := by
  induction rs with
  | nil => exact List.Sublist.refl _
  | cons e rs ih =>
    rw [List.filterMap_cons]
    cases he : t.unresolved? root e with
    | none => exact ih.cons e
    | some found =>
      rw [List.map_cons, unresolved?_expression he]
      exact ih.cons_cons e

/-- The references of a subtree are nodes that refer to something. -/
theorem Sound.node?_of_mem_references (ht : t.Sound) (he : e ∈ t.references root) :
    ∃ n, t.node? e = some n ∧ n.isReference = true ∧ (e, n) ∈ t.inspect root := by
  obtain ⟨⟨x, n⟩, hmem, rfl⟩ := List.mem_map.mp he
  obtain ⟨hinspect, href⟩ := List.mem_filter.mp hmem
  exact ⟨n, (ht.mem_inspect.mp hinspect).1, href, hinspect⟩

/-- What a reference is bound to is a declaration. -/
theorem Sound.isSome_kind?_of_lookUp (ht : t.Sound) {name : String} {d : NodeId}
    (h : t.lookUp (t.namedItems root) e name = some d) : (t.kind? d).isSome = true := by
  obtain ⟨j, -, hoffers, -⟩ := lookUp_eq_some_iff.mp h
  exact hoffers.1.isSome_kind? ht

/-- Binding a reference changes nothing but its target. -/
theorem sameButTargets_retarget (he : t.node? e = some n) (href : n.isReference = true)
    (target : Option NodeId) : t.SameButTargets (t.retarget e n target) where
  node := by
    intro x
    obtain ⟨g, hg, -⟩ := t.retarget_eq_withGraph e n target
    rw [target?_retarget he href, hg, node?_withGraph, node?_bindTo (lt_size_of_node? he)]
    by_cases hx : x = e
    · rw [if_pos hx, if_pos hx, hx, he, Option.map_some]
    · rw [if_neg hx, if_neg hx]
      exact (SameButTargets.refl t).node x
  parent := parent?_retarget
  location := by
    obtain ⟨g, hg, -⟩ := t.retarget_eq_withGraph e n target
    rw [hg]
    exact location?_setNode _

/-- In two trees that differ in targets only, a reference with the same target causes the same. -/
theorem SameButTargets.causedEdge?_eq (hts : t.SameButTargets s) (htu : t.SameButTargets u)
    (hx : u.target? x = s.target? x) : u.causedEdge? x = s.causedEdge? x := by
  refine causedEdge?_congr ?_ (fun a _ => isItem_congr ?_) hx
  · rw [htu.ancestors, hts.ancestors]
  · rw [htu.kind?, hts.kind?]

end Tree

namespace TreeM

variable {t s : Tree} {root e : NodeId}

/-- Binding a reference changes nothing but its target, whether or not it is refused. -/
theorem sameButTargets_setReference (t : Tree) (id : NodeId) (target : Option NodeId) :
    t.SameButTargets (final (setReference id target t)) := by
  rcases setReference_cases t id target with ⟨n, hid, href, -, -, hok⟩ | hok | ⟨e, he⟩
  · rw [hok]
    exact Tree.sameButTargets_retarget hid href target
  · rw [hok]
    exact Tree.SameButTargets.refl t
  · rw [he]
    exact Tree.SameButTargets.refl t

/-- A reference of a tree that has only been bound anew since the names were computed is bound to
what its name was found as. -/
theorem link_ok (ht : t.Sound) (hts : t.SameButTargets s) (hs : s.Sound)
    (he : e ∈ t.references root) :
    ∃ u, link (t.namedItems root) e s = .ok (t.unresolved? root e) u ∧ t.SameButTargets u ∧
      u.Sound ∧
      (∀ x, u.target? x = if x = e then t.boundTo? root e (s.target? e) else s.target? x) ∧
      (t.boundTo? root e (s.target? e) = s.target? e → u = s) := by
  obtain ⟨n₀, hn₀, href₀, -⟩ := ht.node?_of_mem_references he
  have hn : s.node? e = some (n₀.withTarget (s.target? e)) := by rw [hts.node e, hn₀]; rfl
  obtain ⟨n, hnode, href⟩ : ∃ n, s.node? e = some n ∧ n.isReference = true :=
    ⟨_, hn, by rwa [Node.isReference_withTarget]⟩
  have happly : link (t.namedItems root) e s = (match t.referenceName? e with
      | none => pure none
      | some name => do
        let target := t.lookUp (t.namedItems root) e name
        setReference e target
        return if target.isNone then some { expression := e, name } else none : TreeM _) s := by
    unfold link
    rewrite [bind_of_ok (get_eq_ok.mpr ⟨rfl, rfl⟩), hts.referenceName?, hts.lookUp]
    cases t.referenceName? e <;> rfl
  rw [happly]
  cases hname : t.referenceName? e with
  | none =>
    refine ⟨s, by rw [Tree.unresolved?, hname]; rfl, hts, hs, fun x => ?_, fun _ => rfl⟩
    rw [Tree.boundTo?_of_no_name hname]
    split
    · next hx => rw [hx]
    · rfl
  | some name =>
    have htarget : ∀ d, t.lookUp (t.namedItems root) e name = some d →
        (s.kind? d).isSome = true := by
      intro d hd
      rw [hts.kind?]
      exact ht.isSome_kind?_of_lookUp hd
    have hset := setReference_apply hnode htarget
    rw [if_pos href] at hset
    have hreport : t.unresolved? root e = if (t.lookUp (t.namedItems root) e name).isNone
        then some { expression := e, name } else none := by
      rw [Tree.unresolved?, hname, Option.bind_some]
      simp
    have hold : s.target? e = n.target := Tree.target?_of_node? hnode
    rw [Tree.boundTo?_of_name hname, hreport, hold]
    -- Only a new target changes anything.
    by_cases hsame : n.target = t.lookUp (t.namedItems root) e name
    · rw [if_pos hsame] at hset
      refine ⟨s, bind_of_ok hset, hts, hs, fun x => ?_, fun _ => rfl⟩
      split
      · next hx => rw [hx, hold, hsame]
      · rfl
    · rw [if_neg hsame] at hset
      refine ⟨_, bind_of_ok hset, hts.trans (Tree.sameButTargets_retarget hnode href _),
        hs.retarget hnode href htarget, fun x => ?_, fun h => (hsame h.symm).elim⟩
      rw [Tree.target?_retarget hnode href]

/-- References are bound one after the other, each to what its name was found as at the start. -/
theorem mapM_link_ok (ht : t.Sound) {rs : List NodeId} (hrs : ∀ e ∈ rs, e ∈ t.references root)
    (hnodup : rs.Nodup) (hts : t.SameButTargets s) (hs : s.Sound) :
    ∃ u, rs.mapM (link (t.namedItems root)) s = .ok (rs.map (t.unresolved? root)) u ∧
      t.SameButTargets u ∧ u.Sound ∧
      (∀ x, u.target? x = if x ∈ rs then t.boundTo? root x (s.target? x) else s.target? x) ∧
      ((∀ e ∈ rs, t.boundTo? root e (s.target? e) = s.target? e) → u = s) := by
  induction rs generalizing s with
  | nil => exact ⟨s, rfl, hts, hs, fun x => by simp, fun _ => rfl⟩
  | cons e rs ih =>
    obtain ⟨he, hnodup⟩ := List.nodup_cons.mp hnodup
    obtain ⟨hmem, hrs⟩ := List.forall_mem_cons.mp hrs
    obtain ⟨v, hlink, htv, hv, htarget, hkept⟩ := link_ok ht hts hs hmem
    obtain ⟨u, hmapM, htu, hu, htargets, hkepts⟩ := ih hrs hnodup htv hv
    -- The references that are left have the targets that they had at the start.
    have hlater (x : NodeId) (hx : x ∈ rs) : v.target? x = s.target? x := by
      rw [htarget, if_neg fun hxe : x = e => he (hxe ▸ hx)]
    refine ⟨u, ?_, htu, hu, fun x => ?_, fun hall => ?_⟩
    · rw [List.mapM_cons, bind_of_ok hlink, bind_of_ok hmapM]
      rfl
    · rw [htargets]
      by_cases hx : x ∈ rs
      · rw [if_pos hx, if_pos (List.mem_cons_of_mem e hx), hlater x hx]
      · rw [if_neg hx, htarget]
        by_cases hxe : x = e
        · rw [hxe, if_pos rfl, if_pos List.mem_cons_self]
        · rw [if_neg hxe, if_neg (List.not_mem_cons_of_ne_of_not_mem hxe hx)]
    · obtain ⟨hfirst, hothers⟩ := List.forall_mem_cons.mp hall
      rw [hkepts fun x hx => by rw [hlater x hx, hothers x hx], hkept hfirst]

/-- Linking binds the references of a subtree as it would have bound those of any tree that differs
in targets only. -/
theorem linkReferences_ok (root : NodeId) (ht : t.Sound) (hts : t.SameButTargets s)
    (hs : s.Sound) :
    ∃ u, linkReferences root s = .ok ((t.references root).filterMap (t.unresolved? root)) u ∧
      t.SameButTargets u ∧ u.Sound ∧
      (∀ x, u.target? x = if x ∈ t.references root then t.boundTo? root x (s.target? x)
        else s.target? x) ∧
      ((∀ e ∈ t.references root, t.boundTo? root e (s.target? e) = s.target? e) → u = s) := by
  obtain ⟨u, hmapM, hrest⟩ := mapM_link_ok ht (fun _ h => h) (ht.nodup_references root) hts hs
  refine ⟨u, ?_, hrest⟩
  unfold linkReferences
  rw [bind_of_ok (get_eq_ok.mpr ⟨rfl, rfl⟩), hts.references, hts.namedItems, bind_of_ok hmapM]
  simp [List.filterMap_map, pure, EStateM.pure]

end TreeM

end InfraModule
