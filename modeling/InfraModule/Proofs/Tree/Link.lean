import InfraModule.Proofs.Tree.Operation
import InfraModule.Tree.Link

/-!
# What linking does

Linking binds the references of a subtree one after the other, each at most once. It moves no node,
so that the edges which are fresh afterwards are those of the references that it has bound anew.
-/

namespace InfraModule

open Result

namespace Tree

variable {t s u : Tree} {r : NodeId} {rs : List NodeId}

/-- A change that binds some of the given references anew, and nothing else. -/
structure Rebinds (t u : Tree) (rs : List NodeId) : Prop where
  /-- The tree stays sound. -/
  sound : u.Sound
  /-- No node is created. -/
  size : u.size = t.size
  /-- No node is moved. -/
  parent : u.parent? = t.parent?
  /-- Other references keep their targets. -/
  target : ∀ x ∉ rs, u.target? x = t.target? x
  /-- The references that are bound anew have fresh edges. -/
  updates : t.Updates u

/-- Where nothing is changed, nothing is bound anew. -/
theorem Rebinds.refl (ht : t.Sound) (rs : List NodeId) : t.Rebinds t rs :=
  ⟨ht, rfl, rfl, fun _ _ => rfl, Updates.refl t⟩

/-- No reference is bound twice. -/
theorem Rebinds.cons (ht : t.Sound) (hts : t.Rebinds s [r]) (hsu : s.Rebinds u rs) (hr : r ∉ rs) :
    t.Rebinds u (r :: rs) where
  sound := hsu.sound
  size := hsu.size.trans hts.size
  parent := hsu.parent.trans hts.parent
  target := by
    intro x hx
    rw [List.mem_cons, not_or] at hx
    rw [hsu.target x hx.2, hts.target x (by simpa using hx.1)]
  updates := by
    refine Updates.trans ht hts.sound hsu.sound hts.updates hsu.updates
      (fun a _ _ => congrFun hts.parent a) (fun x _ hsame => ?_)
    by_cases hx : x = r
    · rw [← hsame, hsu.target x (hx ▸ hr)]
    · exact hts.target x (by simpa using hx)

/-- The references of a subtree are distinct. -/
theorem Sound.nodup_references (h : t.Sound) (root : NodeId) : (t.references root).Nodup := by
  refine ((List.filter_sublist).map Prod.fst).nodup ?_
  by_cases hroot : root < t.size
  · rw [h.inspect_eq_preorder hroot]
    exact h.nodup_preorder (h.fits hroot)
  · rw [inspect_eq_nil (Nat.not_lt.mp hroot)]
    exact List.nodup_nil

end Tree

namespace TreeM

variable {t : Tree}

/-- Binding one reference binds no other. -/
theorem rebinds_setReference (ht : t.Sound) (id : NodeId) (target : Option NodeId) :
    t.Rebinds (final (setReference id target t)) [id] := by
  rcases setReference_cases t id target with ⟨n, hid, href, hne, htarget, hok⟩ | hok | ⟨e, he⟩
  · rw [hok]
    refine ⟨ht.retarget hid href htarget, by simp [final], by simp [final], fun x hx => ?_,
      Tree.updates_retarget hid href hne⟩
    rw [final, Tree.target?_retarget hid href, if_neg (by simpa using hx)]
  · rw [hok]
    exact Tree.Rebinds.refl ht [id]
  · rw [he]
    exact Tree.Rebinds.refl ht [id]

/-- Linking a reference is binding it to what its name is looked up to, if it has one. -/
theorem final_link (t : Tree) (items : List (String × NodeId)) (reference : NodeId) :
    final (link items reference t) = (t.referenceName? reference).elim t fun name =>
      final (setReference reference (t.lookUp items reference name) t) := by
  unfold link
  rw [bind_of_ok (get_eq_ok.mpr ⟨rfl, rfl⟩)]
  cases t.referenceName? reference with
  | none => rfl
  | some name => exact final_bind_pure _ _ _

/-- Linking one reference binds no other. -/
theorem rebinds_link (ht : t.Sound) (items : List (String × NodeId)) (reference : NodeId) :
    t.Rebinds (final (link items reference t)) [reference] := by
  rw [final_link]
  cases t.referenceName? reference with
  | none => exact Tree.Rebinds.refl ht [reference]
  | some name => exact rebinds_setReference ht reference _

/-- Linking leaves the tree that binding the references one by one leaves. -/
theorem final_linkReferences (t : Tree) (root : NodeId) : final (linkReferences root t)
    = final ((t.references root).mapM (link (t.namedItems root)) t) :=
  final_bind_pure _ _ _

/-- Linking binds references of the subtree only, each at most once. -/
theorem rebinds_linkReferences (ht : t.Sound) (root : NodeId) :
    t.Rebinds (final (linkReferences root t)) (t.references root) := by
  -- The references that are left are none of those bound so far.
  have hall (items : List (String × NodeId)) (rs : List NodeId) (hrs : rs.Nodup) (u : Tree)
      (hu : u.Sound) : u.Rebinds (final (rs.mapM (link items) u)) rs := by
    induction rs generalizing u with
    | nil => exact Tree.Rebinds.refl hu []
    | cons r rs ih =>
      obtain ⟨hr, hrs⟩ := List.nodup_cons.mp hrs
      have hfirst := rebinds_link hu items r
      rw [List.mapM_cons]
      cases hlink : link items r u with
      | error e s =>
        rw [bind_of_error hlink]
        rw [hlink] at hfirst
        exact hfirst.cons hu (Tree.Rebinds.refl hfirst.sound rs) hr
      | ok o s =>
        rw [bind_of_ok hlink]
        rw [hlink] at hfirst
        rw [final_bind_pure]
        exact hfirst.cons hu (ih hrs s hfirst.sound) hr
  rw [final_linkReferences]
  exact hall _ _ (ht.nodup_references root) t ht

end TreeM

end InfraModule
