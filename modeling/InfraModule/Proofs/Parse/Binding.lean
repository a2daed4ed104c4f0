import InfraModule.Proofs.Parse.Declaration
import InfraModule.Proofs.Tree.Dormancy

/-!
# Binding references by name

The references of any tree that operations have built are bound to what their names mean where they
stand. Every reference of a declaration that has been read has a name, for its tag demands one.

What a reference is bound to, and what is listed as unbound, is told from the structure and the
names alone. Its edge is not. A copy has no edges until it is attached or its references are bound
anew, and to bind a reference to the target that it has changes nothing. So a reference in a copy
gets an edge by linking only if it came with another target than the one that it is bound to
(`Tree.edges_depend_on_targets`). All other references have the same edges, whatever they were bound
to before.
-/

namespace InfraModule

open ParseM Result

namespace Tree

variable {t u : Tree} {e : NodeId} {n : Node}

/-- The name of a typed reference is a literal. -/
theorem WellTyped.isSome_referenceName? (h : t.WellTyped n) (hn : t.node? e = some n)
    (href : n.isReference = true) : (t.referenceName? e).isSome = true := by
  -- It is the first operand, and a text stands there.
  have hname : ∃ name, n.expression?.bind Expression.referenceName = some name ∧ t.IsText name := by
    cases n with
    | declaration | collection => cases href
    | expression expression =>
      cases expression with
      | literal | list | object => cases href
      | call call =>
        cases call with
        | getAtt name _ _ | ref name _ =>
          cases h with
          | cons hname _ => exact ⟨name, rfl, hname⟩
        | _ => cases href
      | condition condition =>
        cases condition with
        | reference name _ | existence name _ => exact ⟨name, rfl, h⟩
        | _ => cases href
  obtain ⟨name, hname, htext⟩ := hname
  have happly : t.referenceName? e
      = (n.expression?.bind Expression.referenceName).bind t.literalText? := by
    rw [Option.bind_assoc]
    simp [referenceName?, expression?, hn, Option.bind_eq_bind]
  rw [happly, hname]
  exact htext.isSome_literalText?

/-- A node that keeps its target when references are bound anew is the same, and keeps its edge. -/
theorem SameButTargets.kept (ht : t.Sound) (hu : u.Sound) (htu : t.SameButTargets u)
    (h : t.Updates u) {x : NodeId} (hx : u.target? x = t.target? x) :
    u.node? x = t.node? x ∧ u.graph.edgeFor? x = t.graph.edgeFor? x := by
  refine ⟨?_, ?_⟩
  · rw [htu.node x, hx]
    exact ((SameButTargets.refl t).node x).symm
  by_cases hlt : x < t.size
  · exact h.kept x hlt ⟨hx, fun a _ => congrFun htu.parent a⟩
  · have hnone : t.target? x = none := target?_eq_none_of_le (Nat.not_lt.mp hlt)
    rw [ht.edge hnone, hu.edge (hx.trans hnone)]

/-- A reference in a declaration that has been read has a name. -/
theorem isSome_referenceName?_of_read {setting : Setting} {s v : ParseState}
    {type : DeclarationType} {id : NodeId} (hs : s.build.tree.Sound)
    (hread : Parse.declaration type setting s = .ok (some id) v)
    (he : e ∈ v.build.tree.references id) : (v.build.tree.referenceName? e).isSome = true := by
  have hgave := (Parse.yields_valueOf (.declaration type) setting s hs).of_ok hread
  have hmade : s.build.tree.Made v.build.tree [id] := hgave.made
  obtain ⟨n, hn, href, hinspect⟩ := hmade.sound.node?_of_mem_references he
  have hwithin := (hmade.sound.mem_inspect.mp hinspect).2
  have hnew := hmade.size_le_of_within (hmade.new id List.mem_cons_self) hwithin
  exact (hmade.typed e n hnew hn).isSome_referenceName? hn href

/-- Linking a tree that operations have built succeeds. It binds a reference with a literal name to
the item that the innermost scope offers, or unbinds it if no scope offers any, and lists the
references that it has unbound, in the order of the document. Nothing else changes: other nodes stay
and keep their edges. What references are bound to and what is listed depends on structure and names
only, whatever references were bound to before. So do their edges, apart from those of copies that
nothing has disturbed and whose targets linking leaves as they were: these have none. Linking again
changes nothing and lists the same. The names of references in a declaration that has been read are
literals. -/
theorem references_bound (ops : List Operation) (root : NodeId) :
    let t := after ops
    let h := History.after ops
    ∃ unresolved u, TreeM.linkReferences root t = .ok unresolved u ∧
      (∀ e ∈ t.references root, ∀ name, t.referenceName? e = some name →
        (∀ d, u.target? e = some d ↔ t.Settles root e name d) ∧
        (u.target? e = none ↔ ∀ j ≤ (t.scopePath e).length, ∀ d,
          ¬ t.Offers root e name ((t.scopePath e).take j) d)) ∧
      (unresolved = (t.references root).filterMap fun e => (t.referenceName? e).bind fun name =>
        if u.target? e = none then some { expression := e, name } else none) ∧
      (unresolved.map Unresolved.expression).Nodup ∧
      t.SameButTargets u ∧
      (∀ x, x ∉ t.references root ∨ t.referenceName? x = none →
        u.node? x = t.node? x ∧ u.graph.edgeFor? x = t.graph.edgeFor? x) ∧
      (∀ ops', t.SameButTargets (after ops') →
        ∃ u', TreeM.linkReferences root (after ops') = .ok unresolved u' ∧
          ∀ e ∈ t.references root, (t.referenceName? e).isSome = true →
            u'.target? e = u.target? e ∧
            (¬ h.Overlooked u e → ¬ (History.after ops').Overlooked u' e →
              u'.graph.edgeFor? e = u.graph.edgeFor? e)) ∧
      (∀ e ∈ t.references root, h.Overlooked u e → u.graph.edgeFor? e = none) ∧
      TreeM.linkReferences root u = .ok unresolved u ∧
      (∀ setting s type id v, s.build.tree.Reachable →
        Parse.declaration type setting s = .ok (some id) v →
        ∀ e ∈ v.build.tree.references id, (v.build.tree.referenceName? e).isSome = true) := by
  intro t h
  have hexact : h.Exact := History.exact_after ops
  have htree : h.tree = t := History.tree_after ops
  have ht : t.Sound := sound_after ops
  obtain ⟨u, hu, htu, husound, htarget, -⟩ :=
    TreeM.linkReferences_ok root ht (SameButTargets.refl t) ht
  have hupdates := (TreeM.rebinds_linkReferences ht root).updates
  rw [hu] at hupdates
  -- A reference with a name is bound to what the name is found as.
  have hbound {e : NodeId} (he : e ∈ t.references root) {name : String}
      (hname : t.referenceName? e = some name) :
      u.target? e = t.lookUp (t.namedItems root) e name := by
    rw [htarget, if_pos he, boundTo?_of_name hname]
  have hkept {x : NodeId} (hx : x ∉ t.references root ∨ t.referenceName? x = none) :
      u.target? x = t.target? x := by
    rw [htarget]
    split
    · next hmem => exact boundTo?_of_no_name (hx.resolve_left (not_not.mpr hmem)) _
    · rfl
  have hlt {e : NodeId} (he : e ∈ t.references root) : e < t.size := by
    obtain ⟨n, hn, -⟩ := ht.node?_of_mem_references he
    exact lt_size_of_node? hn
  have hedge {e : NodeId} (he : e ∈ t.references root) :=
    History.edgeFor?_of_linked (htree ▸ hu) hexact (htree ▸ htu) (htree ▸ hlt he)
  refine ⟨(t.references root).filterMap (t.unresolved? root), u, hu, ?named, ?listed, ?nodup, htu,
    ?kept, ?other, fun e he => (hedge he).1, ?again, ?read⟩
  case named =>
    intro e he name hname
    rw [hbound he hname]
    exact ⟨fun d => lookUp_eq_some_iff, lookUp_eq_none_iff⟩
  case listed =>
    refine List.filterMap_congr fun e he => ?_
    unfold unresolved?
    cases hname : t.referenceName? e with
    | none => rfl
    | some name => rw [Option.bind_some, Option.bind_some, hbound he hname]
  case nodup =>
    exact (t.expression_unresolved?_sublist root _).nodup (ht.nodup_references root)
  case kept => exact fun x hx => htu.kept ht husound hupdates (hkept hx)
  case other =>
    intro ops' hsame
    obtain ⟨u', hu', htu', -, htarget', -⟩ :=
      TreeM.linkReferences_ok root ht hsame (sound_after ops')
    have htree' : (History.after ops').tree = after ops' := History.tree_after ops'
    refine ⟨u', hu', fun e he hname => ?_⟩
    obtain ⟨name, hname⟩ := Option.isSome_iff_exists.mp hname
    have hsametarget : u'.target? e = u.target? e := by
      rw [htarget', if_pos he, boundTo?_of_name hname, hbound he hname]
    refine ⟨hsametarget, fun hseen hseen' => ?_⟩
    -- Both references have the edges that they cause, and these are the same.
    have hlt' : e < (after ops').size := hsame.size.symm ▸ hlt he
    have hedge' := History.edgeFor?_of_linked (htree' ▸ hu') (History.exact_after ops')
      (htree' ▸ hsame.symm.trans htu') (htree' ▸ hlt')
    rw [(hedge he).2 hseen, hedge'.2 hseen', htu.causedEdge?_eq htu' hsametarget]
  case again =>
    obtain ⟨v, hv, -, -, -, hfixed⟩ := TreeM.linkReferences_ok root ht htu husound
    rw [hv, hfixed fun e he => ?_]
    rw [htarget, if_pos he, boundTo?_boundTo?]
  case read =>
    exact fun setting s type id v hs hread e he => isSome_referenceName?_of_read hs.sound hread he

/-- The edges that linking leaves depend on what references were bound to before. The copy `11` of a
list holds the variable `1` and, in another variable `10`, a copied reference `9` to `1`. Linking
leaves the reference bound as it is and so without an edge; but if it is unbound first, linking
binds it again and records the edge. -/
theorem edges_depend_on_targets :
    let l : Location := default
    let text (s : String) := Operation.add (.expression (.literal (.string s))) l
    let declare (keyword : NodeId) :=
      ((Declaration.new? .variable (some keyword)).map Node.declaration).toList.map (.add · l)
    let ops := [text "Bucket"] ++ declare 0 ++ [text "Name"] ++ declare 2 ++ [text "Bucket",
      .add (.expression (.call (.ref 4 (some 1)))) l, .setProperty 3 "Value" (some 5),
      .add (.collection [3]) l, .copySubtree 6, .pushChild 11 1]
    let ops' := ops ++ [.setReference 9 none]
    (after ops).SameButTargets (after ops') ∧ 9 ∈ (after ops).references 11 ∧
      (after ops).referenceName? 9 = some "Bucket" ∧
      ∃ u u', TreeM.linkReferences 11 (after ops) = .ok [] u ∧
        TreeM.linkReferences 11 (after ops') = .ok [] u' ∧
        u.graph.edges = [⟨3, 1, 5⟩] ∧ u'.graph.edges = [⟨3, 1, 5⟩, ⟨10, 1, 9⟩] := by
  intro l text declare ops ops'
  have hsame : (after ops).SameButTargets (after ops') := by
    rw [after_concat ops]
    exact TreeM.sameButTargets_setReference _ 9 none
  have hreferences : (after ops).references 11 = [9] := by decide +kernel
  have hresolved : (after ops).unresolved? 11 9 = none := by decide +kernel
  have hlisted : ((after ops).references 11).filterMap ((after ops).unresolved? 11) = [] := by
    rw [hreferences, List.filterMap_cons_none hresolved, List.filterMap_nil]
  have ht : (after ops).Sound := sound_after ops
  obtain ⟨u, hu, -⟩ := TreeM.linkReferences_ok 11 ht (SameButTargets.refl _) ht
  obtain ⟨u', hu', -⟩ := TreeM.linkReferences_ok 11 ht hsame (sound_after ops')
  rw [hlisted] at hu hu'
  have hfinal : u = final (TreeM.linkReferences 11 (after ops)) := by rw [hu, final]
  have hfinal' : u' = final (TreeM.linkReferences 11 (after ops')) := by rw [hu', final]
  refine ⟨hsame, ?_, ?_, u, u', hu, hu', ?_, ?_⟩
  · rw [hreferences]
    exact List.mem_cons_self
  · decide +kernel
  · rw [hfinal]
    decide +kernel
  · rw [hfinal']
    decide +kernel

end Tree

end InfraModule
