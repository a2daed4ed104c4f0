import Mathlib.Data.List.Chain
import InfraModule.Event.Skip
import InfraModule.Proofs.Tree.Span

/-!
# Events in order

The marks of a list of events never go back (`Event.Ordered`) when a scalar or the end of a
container starts no later than it stops and stops no later than the next event starts, and the start
of a container is no later than the next event. Where the start of a container stops is the start of
its end, so it says nothing about the event that comes next. Nothing is said about the frame of a
document, which no value reaches across.
-/

namespace InfraModule.Event

variable {e : Event} {es es' : List Event} {mark : Mark}

/-- The mark that no later event starts before: where a scalar or the end of a container stops, or
where a container starts. -/
def reach (e : Event) : Mark :=
  match e.kind.role with
  | .opening => e.start
  | _ => e.stop

/-- A scalar reaches to where it stops. -/
theorem reach_of_leaf (e : Event) (he : e.kind.role = .leaf) : e.reach = e.stop := by
  rw [reach, he]

/-- The end of a container reaches to where it stops. -/
theorem reach_of_closing (e : Event) (he : e.kind.role = .closing) : e.reach = e.stop := by
  rw [reach, he]

/-- The start of a container reaches to where it starts. -/
theorem reach_of_opening (e : Event) (he : e.kind.role = .opening) : e.reach = e.start := by
  rw [reach, he]

/-- The marks of the events never go back. -/
structure Ordered (es : List Event) : Prop where
  /-- No scalar and no end of a container stops before it starts. -/
  forward : ∀ e ∈ es, e.kind.role ≠ .framing → e.start ≤ e.reach
  /-- The next event starts no earlier. -/
  next : es.IsChain fun e e' => e.kind.role ≠ .framing → e.reach ≤ e'.start

/-- The marks never go back, and the first of them is no earlier than this one. -/
structure From (mark : Mark) (es : List Event) : Prop extends Ordered es where
  /-- The first event starts no earlier. -/
  first : ∀ e ∈ es.head?, mark ≤ e.start

/-- Behind the first event the marks do not go back either. -/
theorem Ordered.tail (h : Ordered (e :: es)) : Ordered es where
  forward := fun d hd => h.forward d (List.mem_cons_of_mem e hd)
  next := h.next.tail

/-- In the end of a list the marks do not go back either. -/
theorem Ordered.suffix (h : Ordered es) (hes : es' <:+ es) : Ordered es' where
  forward := fun d hd => h.forward d (hes.subset hd)
  next := h.next.suffix hes

/-- Events in order start from some mark. -/
theorem Ordered.exists_from (h : Ordered es) : ∃ mark, From mark es := by
  cases es with
  | nil => exact ⟨default, h, by simp⟩
  | cons e es => exact ⟨e.start, h, by simp⟩

/-- The first event starts no earlier than the mark. -/
theorem From.le_start (h : From mark (e :: es)) : mark ≤ e.start :=
  h.first e rfl

/-- A scalar stops no earlier than it starts. -/
theorem From.le_stop (h : From mark (e :: es)) (he : e.kind.role = .leaf) : e.start ≤ e.stop :=
  e.reach_of_leaf he ▸ h.forward e List.mem_cons_self (by simp [he])

/-- Once an event is taken the marks are behind what it reaches. -/
theorem From.tail (h : From mark (e :: es)) (he : e.kind.role ≠ .framing) :
    From e.reach es ∧ mark ≤ e.reach := by
  refine ⟨⟨h.toOrdered.tail, fun d hd => ?_⟩, h.le_start.trans (h.forward e List.mem_cons_self he)⟩
  obtain ⟨ds, rfl⟩ := List.head?_eq_some_iff.mp hd
  exact (List.isChain_cons_cons.mp h.next).1 he

/-! ## Skipping -/

/-- Behind what is skipped the marks go on. -/
theorem From.skipOpen {depth : Nat} (h : From mark es) (hskip : skipOpen depth es = .ok es') :
    ∃ stop, mark ≤ stop ∧ From stop es' := by
  induction es generalizing depth mark with
  | nil =>
    cases depth with
    | zero =>
      cases hskip
      exact ⟨mark, le_refl mark, h⟩
    | succ depth => cases hskip
  | cons e es ih =>
    cases depth with
    | zero =>
      cases hskip
      exact ⟨mark, le_refl mark, h⟩
    | succ depth =>
      have htake (he : e.kind.role ≠ .framing) {depth : Nat}
          (hskip : Event.skipOpen depth es = .ok es') : ∃ stop, mark ≤ stop ∧ From stop es' := by
        obtain ⟨htail, hle⟩ := h.tail he
        obtain ⟨stop, hstop, hfrom⟩ := ih htail hskip
        exact ⟨stop, hle.trans hstop, hfrom⟩
      cases hrole : e.kind.role with
      | leaf | opening | closing =>
        simp only [Event.skipOpen, hrole] at hskip
        exact htake (by simp [hrole]) hskip
      | framing =>
        simp only [Event.skipOpen, hrole] at hskip
        cases hskip

/-- Behind a value that is skipped the marks go on. -/
theorem From.skipValue (h : From mark es) (hskip : skipValue es = .ok es') :
    ∃ stop, mark ≤ stop ∧ From stop es' := by
  cases es with
  | nil => cases hskip
  | cons e es =>
    cases hrole : e.kind.role with
    | leaf =>
      simp only [Event.skipValue, hrole] at hskip
      cases hskip
      obtain ⟨htail, hle⟩ := h.tail (by simp [hrole])
      exact ⟨e.reach, hle, htail⟩
    | opening =>
      simp only [Event.skipValue, hrole] at hskip
      obtain ⟨htail, hle⟩ := h.tail (by simp [hrole])
      obtain ⟨stop, hstop, hfrom⟩ := htail.skipOpen hskip
      exact ⟨stop, hle.trans hstop, hfrom⟩
    | closing | framing =>
      simp only [Event.skipValue, hrole] at hskip
      cases hskip
      exact ⟨mark, le_refl mark, h⟩

end InfraModule.Event
