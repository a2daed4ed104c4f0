import InfraModule.Tree.Dependency

/-!
# Order of the edges

The edges of a graph are kept in increasing order of their references. Recording an edge and
forgetting one keep this order, and in such a graph an edge is found by its reference.
-/

namespace InfraModule.DependencyGraph

variable {g : DependencyGraph} {e : Edge} {via : NodeId}

/-- The edges stand in increasing order of their references, each of which has at most one. -/
def Sorted (g : DependencyGraph) : Prop :=
  g.edges.Pairwise fun e f => e.via < f.via

/-- After an edge is put in, an edge is that one or was there before. -/
theorem mem_insertEdge {es : List Edge} {f : Edge} (h : f ∈ insertEdge e es) : f = e ∨ f ∈ es := by
  induction es with
  | nil => simpa [insertEdge] using h
  | cons d es ih =>
    unfold insertEdge at h
    split at h
    · simpa using h
    · split at h
      · exact (List.mem_cons.mp h).imp_right (List.mem_cons_of_mem d)
      · rcases List.mem_cons.mp h with rfl | h
        · exact Or.inr List.mem_cons_self
        · exact (ih h).imp_right (List.mem_cons_of_mem d)

/-- Recording an edge keeps the order. -/
theorem Sorted.insert (h : g.Sorted) (e : Edge) : (g.insert e).Sorted := by
  obtain ⟨es⟩ := g
  simp only [Sorted, DependencyGraph.insert] at h ⊢
  induction es with
  | nil => simp [insertEdge]
  | cons d es ih =>
    obtain ⟨hd, hes⟩ := List.pairwise_cons.mp h
    unfold insertEdge
    split
    · next hlt =>
      refine List.pairwise_cons.mpr ⟨fun f hf => ?_, h⟩
      rcases List.mem_cons.mp hf with rfl | hf
      · exact hlt
      · exact Nat.lt_trans hlt (hd f hf)
    · split
      · next heq => exact List.pairwise_cons.mpr ⟨fun f hf => heq ▸ hd f hf, hes⟩
      · next hge hne =>
        refine List.pairwise_cons.mpr ⟨fun f hf => ?_, ih hes⟩
        rcases mem_insertEdge hf with rfl | hf
        · exact Nat.lt_of_le_of_ne (Nat.not_lt.mp hge) (Ne.symm hne)
        · exact hd f hf

/-- Forgetting an edge keeps the order. -/
theorem Sorted.erase (h : g.Sorted) (via : NodeId) : (g.erase via).Sorted :=
  List.Pairwise.filter _ h

/-- A reference has no edge but its own. -/
theorem Sorted.edgeFor?_eq_some (h : g.Sorted) :
    g.edgeFor? via = some e ↔ e ∈ g.edges ∧ e.via = via := by
  obtain ⟨es⟩ := g
  simp only [Sorted, edgeFor?] at h ⊢
  induction es with
  | nil => simp
  | cons d es ih =>
    obtain ⟨hd, hes⟩ := List.pairwise_cons.mp h
    rw [List.find?_cons, List.mem_cons]
    -- Every later edge belongs to a greater reference.
    by_cases hvia : d.via = via
    · simp only [hvia, beq_self_eq_true, Option.some.injEq]
      constructor
      · rintro rfl
        exact ⟨Or.inl rfl, hvia⟩
      · rintro ⟨rfl | he, hev⟩
        · rfl
        · exact absurd (hvia.trans hev.symm) (Nat.ne_of_lt (hd e he))
    · simp only [beq_eq_false_iff_ne.mpr hvia, ih hes]
      constructor
      · exact fun hmem => ⟨Or.inr hmem.1, hmem.2⟩
      · rintro ⟨rfl | he, hev⟩
        · exact (hvia hev).elim
        · exact ⟨he, hev⟩

end InfraModule.DependencyGraph
