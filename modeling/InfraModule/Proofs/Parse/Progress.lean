import InfraModule.Parse.Declaration
import InfraModule.Proofs.Parse.Cursor

/-!
# Progress

No reader goes back (`ParseM.Recedes`), and one that starts at a value takes at least one event even
if it fails (`ParseM.Consumes`). That a turn of a loop takes an event is not seen from what the turn
does, since skipping stays in place at the end of a container and at the frame of a document; there
the loop has already ended or failed (`atValue_of_atClose`). So the turns that a loop is given never
run out, and it is the loop that does not count them (`foldUntilClose_eq`).
-/

namespace InfraModule

open ParseM

/-! ## Skipping -/

/-- Where a value starts, skipping takes an event even if it fails. -/
theorem Event.length_lt_of_skip {e : Event} {es es' : List Event}
    (h : skipValue (e :: es) = .ok es' ∨ skipValue (e :: es) = .error es')
    (he : e.kind.role = .leaf ∨ e.kind.role = .opening) : es'.length < (e :: es).length := by
  rcases he with hrole | hrole
  · simp only [skipValue_cons_leaf hrole, reduceCtorEq, or_false, Except.ok.injEq] at h
    simp [h]
  · rw [skipValue_cons_opening hrole] at h
    have hle := (suffix_of_skipOpen h).length_le
    rw [List.length_cons]
    omega

/-! ## Events taken -/

namespace ParseState

variable {m n : Nat} {s u v : ParseState} {e : Event} {es : List Event}

/-- A value at the cursor offers one event; nothing need be offered. -/
def Offers (s : ParseState) (n : Nat) : Prop :=
  n = 0 ∨ (n = 1 ∧ AtValue s)

/-- At least so many events have been taken off the front, and no more or less is open. -/
structure Consumes (s : ParseState) (n : Nat) (u : ParseState) : Prop where
  /-- What is left is the end of what there was. -/
  suffix : u.events <:+ s.events
  /-- So many events are gone. -/
  length : u.events.length + n ≤ s.events.length
  /-- What is open is as deep as before. -/
  depth : u.depth = s.depth

/-- Nothing is always offered. -/
theorem offers_zero (s : ParseState) : s.Offers 0 := Or.inl rfl

/-- A value at the cursor offers an event. -/
theorem offers_one (h : AtValue s) : s.Offers 1 := Or.inr ⟨rfl, h⟩

/-- No more than one event is offered. -/
theorem Offers.le_one (h : s.Offers n) : n ≤ 1 := by
  rcases h with rfl | ⟨rfl, -⟩ <;> omega

/-- Where no event is left, none is offered. -/
theorem Offers.eq_zero (h : s.Offers n) (hs : s.events = []) : n = 0 := by
  rcases h with rfl | ⟨-, e, es, hevents, -⟩
  · rfl
  · simp [hs] at hevents

/-- Without a move no event is taken. -/
theorem Consumes.refl (s : ParseState) : s.Consumes 0 s :=
  ⟨List.suffix_rfl, Nat.le_refl _, rfl⟩

/-- Where no event is left, none is taken. -/
theorem Offers.consumes_self (h : s.Offers n) (hs : s.events = []) : s.Consumes n s := by
  rw [h.eq_zero hs]
  exact ParseState.Consumes.refl s

/-- What is taken in two moves adds up. -/
theorem Consumes.trans (h : s.Consumes m u) (h' : u.Consumes n v) : s.Consumes (m + n) v where
  suffix := h'.suffix.trans h.suffix
  length := by
    have hfirst := h.length
    have hsecond := h'.length
    omega
  depth := h'.depth.trans h.depth

/-- The event at the cursor is what was offered. -/
theorem Offers.consumes_tail (h : s.Offers n) (hs : s.events = e :: es) :
    s.Consumes n { s with events := s.events.tail } where
  suffix := List.tail_suffix _
  length := by
    have hn := h.le_one
    simp only [hs, List.tail_cons, List.length_cons]
    omega
  depth := rfl

end ParseState

namespace ParseM

open ParseState

variable {α β : Type} {n : Nat} {setting : Setting} {s : ParseState}

/-- Whatever comes of the reader, `P` holds of the state that it leaves. -/
abbrev Ends (m : ParseM α) (setting : Setting) (s : ParseState) (P : ParseState → Prop) : Prop :=
  Post m setting s (fun _ u => P u) fun _ u => P u

/-- The reader does not go back. -/
def Recedes (m : ParseM α) : Prop :=
  ∀ setting s, Ends m setting s (s.Consumes 0)

/-- The reader does not go back, and at a value it takes an event even if it fails. -/
def Consumes (m : ParseM α) : Prop :=
  ∀ n setting s, s.Offers n → Ends m setting s (s.Consumes n)

namespace Recedes

/-- To return a value does not go back. -/
theorem pure (a : α) : Recedes (Pure.pure a : ParseM α) := fun _ s => ParseState.Consumes.refl s

/-- What does not go back keeps what has been taken. -/
theorem after {m : ParseM α} (hm : Recedes m) {u : ParseState} (h : s.Consumes n u) :
    Ends m setting u (s.Consumes n) :=
  (hm setting u).mono (fun _ _ hv => h.trans hv) fun _ _ hv => h.trans hv

/-- Two readers in a row that do not go back do not go back together. -/
theorem bind {m : ParseM α} {f : α → ParseM β} (hm : Recedes m) (hf : ∀ a, Recedes (f a)) :
    Recedes (m >>= f) := fun setting s =>
  Post.bind (hm setting s) fun a _ hu => (hf a).after hu

/-- What a function makes of the result does not move the cursor. -/
theorem map {m : ParseM α} (f : α → β) (hm : Recedes m) : Recedes (f <$> m) :=
  fun setting s => post_map.mpr (hm setting s)

/-- To build does not move the cursor. -/
theorem build (step : BuildM α) : Recedes (build step) := by
  intro setting s
  rw [Ends, post_build]
  -- Whatever is built, the cursor is not touched.
  unfold Result.Post
  split
  · exact ⟨List.suffix_rfl, Nat.le_refl _, rfl⟩
  · exact ⟨List.suffix_rfl, Nat.le_refl _, rfl⟩

/-- To look at the state does not move the cursor. -/
theorem get : Recedes (MonadState.get : ParseM ParseState) := fun _ s => ParseState.Consumes.refl s

/-- To look at the setting does not move the cursor. -/
theorem read : Recedes (MonadReader.read : ParseM Setting) := fun _ s => ParseState.Consumes.refl s

/-- To look at the event at the cursor does not move it. -/
theorem current : Recedes current := by
  intro setting s
  rcases s.nil_or_cons with hs | ⟨e, es, hs⟩
  · exact (post_current_of_nil hs).mpr (ParseState.Consumes.refl s)
  · exact (post_current hs).mpr (ParseState.Consumes.refl s)

/-- To tell the place does not move the cursor. -/
theorem here : Recedes here :=
  current.bind fun _ => read.bind fun _ => pure _

/-- To move on does not go back. -/
theorem advance : Recedes advance := fun _ s =>
  ⟨List.tail_suffix _, by simp, rfl⟩

/-- To expect an event does not go back. -/
theorem expect (kind : EventKind) : Recedes (expect kind) := by
  refine current.bind fun e => ?_
  dsimp only
  split
  · exact advance
  · exact fun _ s => ParseState.Consumes.refl s

/-- To take the end of a container does not go back. -/
theorem closeFrom (start : Location) : Recedes (closeFrom start) :=
  here.bind fun _ => advance.bind fun _ => pure _

/-- A reader for each element of a list does not go back if none of them does. -/
theorem forM {f : α → ParseM PUnit} (hf : ∀ a, Recedes (f a)) (xs : List α) :
    Recedes (xs.forM f) := by
  induction xs with
  | nil => exact pure PUnit.unit
  | cons x xs ih => exact (hf x).bind fun _ => ih

end Recedes

namespace Consumes

/-- A reader that takes an event does not go back. -/
theorem recedes {m : ParseM α} (hm : Consumes m) : Recedes m := fun setting s =>
  hm 0 setting s (offers_zero s)

/-- The event that is taken at a value stays taken. -/
theorem bind_recedes {m : ParseM α} {f : α → ParseM β} (hm : Consumes m)
    (hf : ∀ a, Recedes (f a)) : Consumes (m >>= f) := fun n setting s hs =>
  Post.bind (hm n setting s hs) fun a _ hu => (hf a).after hu

/-- Skipping takes an event of a value. -/
theorem skip : Consumes skip := by
  intro n setting s hs
  -- What is left is the same whether or not skipping fails.
  have hconsumes {es : List Event} (h : Event.skipValue s.events = .ok es ∨
      Event.skipValue s.events = .error es) : s.Consumes n { s with events := es } := by
    refine ⟨Event.suffix_of_skipValue h, ?_, rfl⟩
    rcases hs with rfl | ⟨rfl, e, es', hevents, he⟩
    · exact (Event.suffix_of_skipValue h).length_le
    · rw [hevents] at h ⊢
      exact Event.length_lt_of_skip h he
  rw [Ends, post_skip]
  split
  · next es h => exact hconsumes (Or.inl h)
  · next es h => exact hconsumes (Or.inr h)

/-- A report before a reader that takes an event changes nothing of that. -/
theorem report {f : Unit → ParseM α} (message : String) (l : Location) (hf : Consumes (f ())) :
    Consumes (report message l >>= f) := by
  intro n setting s hs
  rw [Ends, post_bind, post_report]
  have hreported := hf n setting
    { s with build.diagnostics := s.build.diagnostics.error message l } hs
  exact hreported.mono (fun _ _ hu => ⟨hu.suffix, hu.length, hu.depth⟩)
    fun _ _ hu => ⟨hu.suffix, hu.length, hu.depth⟩

/-- Taking note of the place before a reader that takes an event changes nothing of that. -/
theorem here {f : Location → ParseM α} (hf : ∀ l, Consumes (f l)) : Consumes (here >>= f) :=
  fun n setting s hs =>
    post_bind_here (fun hnil => hs.consumes_self hnil) fun _ _ _ => hf _ n setting s hs

/-- To refuse a value takes an event of it. -/
theorem refuse (message : String) : Consumes (refuse message : ParseM (Option α)) :=
  here fun l => report message l (skip.bind_recedes fun _ => Recedes.pure none)

/-- To pass over a value that is too deep takes an event of it. -/
theorem tooDeep : Consumes (tooDeep : ParseM (Option α)) :=
  refuse _

end Consumes

end ParseM

/-! ## Readers without loops -/

namespace Parse

/-- A reader of scalars takes an event of any value. -/
theorem consumes_scalar (message : String) (convert : String → Option Literal) :
    Consumes (scalar message convert) := by
  intro n setting s hs
  unfold scalar
  refine post_bind_current (fun hnil => hs.consumes_self hnil) fun e es hevents => ?_
  dsimp only
  split
  · next literal hliteral =>
    refine post_bind_here (fun hnil => hs.consumes_self hnil) fun _ _ _ => ?_
    rw [post_bind, post_advance]
    exact ((Recedes.build _).map some).after (hs.consumes_tail hevents)
  · exact Consumes.refuse message n setting s hs

/-- A reader of keys takes an event of any value. -/
theorem consumes_key : Consumes key := by
  intro n setting s hs
  unfold key
  refine post_bind_current (fun hnil => hs.consumes_self hnil) fun e es hevents => ?_
  have hskip : Consumes (do
      report "expected a literal key" (← here)
      skip
      skip
      return (none : Option Key)) :=
    Consumes.here fun l => Consumes.report _ l (Consumes.skip.bind_recedes fun _ =>
      Consumes.skip.recedes.bind fun _ => Recedes.pure none)
  split
  · refine post_bind_here (fun hnil => hs.consumes_self hnil) fun _ _ _ => ?_
    exact hs.consumes_tail hevents
  · exact hskip n setting s hs

/-- To report missing keys does not go back. -/
theorem recedes_reportMissing (keys : List String) (l : Location) :
    Recedes (reportMissing keys l) := by
  unfold reportMissing
  split
  · exact Recedes.pure _
  · exact Recedes.build _

/-- To begin a declaration does not go back. -/
theorem recedes_emptyDraft (type : DeclarationType) (start : Location) :
    Recedes (emptyDraft type start) := by
  unfold emptyDraft
  split
  · split
    · exact Recedes.pure _
    · exact (recedes_reportMissing _ start).bind fun _ => Recedes.pure _
  · exact (Recedes.build _).bind fun _ => Recedes.pure _

/-- To bind properties does not go back. -/
theorem recedes_bindAll (id : NodeId) (values : List (String × NodeId)) :
    Recedes (bindAll id values) :=
  Recedes.forM (fun _ => (Recedes.build _).map _) values

/-- To complete a declaration does not go back. -/
theorem recedes_finish (draft : Draft) (start l : Location) :
    Recedes (finish draft start l) := by
  refine (recedes_reportMissing _ start).bind fun _ => ?_
  split
  · exact Recedes.pure none
  · refine (Recedes.build _).bind fun id => (recedes_bindAll id _).bind fun _ => ?_
    refine Recedes.bind ?_ fun _ => Recedes.pure _
    unfold addDefaultVersion
    split
    · exact Recedes.read.bind fun _ => (Recedes.build _).bind fun _ => recedes_bindAll id _
    · exact Recedes.pure _

/-- What is done for an element that has been read takes nothing. -/
theorem recedes_element (id : Option NodeId) (items : Items) :
    Recedes (element (pure id) items) := by
  unfold element
  refine (Recedes.pure id).bind fun id => ?_
  cases id with
  | none => exact Recedes.pure _
  | some id =>
    have hname : Recedes (uniqueName? id) := by
      unfold uniqueName?
      refine Recedes.get.bind fun _ => Recedes.read.bind fun _ => ?_
      split
      · exact Recedes.pure _
      · exact Recedes.pure _
    refine hname.bind fun name => ?_
    cases name with
    | none => exact Recedes.pure _
    | some name =>
      dsimp only
      split
      · exact Recedes.get.bind fun _ => (Recedes.build _).bind fun _ => Recedes.pure _
      · exact Recedes.pure _

end Parse

/-! ## Loops -/

namespace ParseM

variable {α σ : Type} {setting : Setting} {s u : ParseState} {container : Container}
  {step : σ → ParseM (Option σ)}

/-- A loop goes on only where a value stands. -/
theorem atValue_of_atClose (h : atClose container setting s = .ok false u) :
    u = s ∧ AtValue s := by
  have hpost : Post (atClose container) setting s
      (fun closed u => u = s ∧ (closed = false → AtValue s)) fun _ _ => True :=
    post_atClose (fun _ => ⟨rfl, by simp⟩) (fun hvalue => ⟨rfl, fun _ => hvalue⟩)
      fun _ _ _ _ _ => trivial
  obtain ⟨hu, hvalue⟩ := hpost.of_ok h
  exact ⟨hu, hvalue rfl⟩

/-- At its end the container ends, and nothing is taken. -/
theorem atClose_of_close (h : AtClose container s) : atClose container setting s = .ok true s := by
  have hpost : Post (atClose container) setting s (fun closed u => closed = true ∧ u = s)
      fun _ _ => False := by
    obtain ⟨e, es, hevents, hkind⟩ := h
    unfold atClose
    rw [post_bind, post_current hevents, hkind, role_close]
    simp
  obtain ⟨_, _, hok, rfl, rfl⟩ := hpost.exists_ok fun _ _ h => h
  exact hok

/-- At a value the container does not end, and nothing is taken. -/
theorem atClose_of_value (h : AtValue s) : atClose container setting s = .ok false s := by
  have hpost : Post (atClose container) setting s (fun closed u => closed = false ∧ u = s)
      fun _ _ => False := by
    obtain ⟨e, es, hevents, hrole⟩ := h
    unfold atClose
    rw [post_bind, post_current hevents]
    rcases hrole with hrole | hrole
    · simp [hrole]
    · simp [hrole]
  obtain ⟨_, _, hok, rfl, rfl⟩ := hpost.exists_ok fun _ _ h => h
  exact hok

/-- Where no event is left, a loop fails, whether or not it has turns left. -/
theorem foldWithin_of_nil (hs : s.events = []) (turns : List Event) (acc : σ) :
    foldWithin container step turns acc setting s = .error .unexpectedEnd s := by
  cases turns with
  | nil => rfl
  | cons turn turns =>
    have hpost : Post (foldWithin container step (turn :: turns) acc) setting s
        (fun _ _ => False) fun e u => e = .unexpectedEnd ∧ u = s := by
      unfold foldWithin atClose
      rw [post_bind, post_bind, post_current_of_nil hs]
      exact ⟨rfl, rfl⟩
    cases h : foldWithin container step (turn :: turns) acc setting s with
    | ok answer u => exact (hpost.of_ok h).elim
    | error e u =>
      obtain ⟨rfl, rfl⟩ := hpost.of_error h
      rfl

section Turns

variable (hstep : ∀ acc s, AtValue s →
  (Result.final (step acc setting s)).events.length < s.events.length)

include hstep

/-- A turn that succeeds at a value leaves fewer events. -/
theorem length_lt_of_step {acc : σ} {answer : Option σ} (hs : AtValue s)
    (h : step acc setting s = .ok answer u) : u.events.length < s.events.length := by
  have hturn := hstep acc s hs
  rw [h] at hturn
  exact hturn

/-- As each turn takes an event, turns beyond the number of events are not used. -/
theorem foldWithin_of_le (turns turns' : List Event) (acc : σ)
    (hturns : s.events.length ≤ turns.length) (hturns' : s.events.length ≤ turns'.length) :
    foldWithin container step turns acc setting s
      = foldWithin container step turns' acc setting s := by
  induction turns generalizing turns' acc s with
  | nil =>
    have hnil : s.events = [] := List.eq_nil_of_length_eq_zero (Nat.le_zero.mp hturns)
    rw [foldWithin_of_nil hnil, foldWithin_of_nil hnil]
  | cons turn turns ih =>
    cases turns' with
    | nil =>
      have hnil : s.events = [] := List.eq_nil_of_length_eq_zero (Nat.le_zero.mp hturns')
      rw [foldWithin_of_nil hnil, foldWithin_of_nil hnil]
    | cons turn' turns' =>
      unfold foldWithin
      refine Result.bind_congr_of_ok fun closed u hu => ?_
      cases closed with
      | true => rfl
      | false =>
        obtain ⟨rfl, hvalue⟩ := atValue_of_atClose hu
        refine Result.bind_congr_of_ok fun answer v hv => ?_
        have hlt := length_lt_of_step hstep hvalue hv
        cases answer with
        | none => rfl
        | some acc =>
          rw [List.length_cons] at hturns hturns'
          exact ih turns' acc (by omega) (by omega)

/-- A loop does not come to its end for lack of turns: it is the loop that has no count of them. -/
theorem foldUntilClose_eq (acc : σ) (s : ParseState) :
    foldUntilClose container step acc setting s = (do
      if ← atClose container then
        return some acc
      match ← step acc with
      | some acc => foldUntilClose container step acc
      | none => return none : ParseM (Option σ)) setting s := by
  change foldWithin container step s.events acc setting s = _
  rw [foldWithin_of_le hstep s.events (default :: s.events) acc (Nat.le_refl _) (by simp)]
  refine Result.bind_congr_of_ok fun closed u hu => ?_
  cases closed with
  | true => rfl
  | false =>
    obtain ⟨rfl, hvalue⟩ := atValue_of_atClose hu
    refine Result.bind_congr_of_ok fun answer v hv => ?_
    have hlt := length_lt_of_step hstep hvalue hv
    cases answer with
    | none => rfl
    | some acc => exact foldWithin_of_le hstep _ _ acc (Nat.le_of_lt hlt) (Nat.le_refl _)

/-- At the end of the container the loop stops. -/
theorem foldUntilClose_of_close (hs : AtClose container s) (acc : σ) :
    foldUntilClose container step acc setting s = .ok (some acc) s := by
  rw [foldUntilClose_eq hstep]
  exact Result.bind_of_ok (atClose_of_close hs)

/-- A step that goes on is the first of the loop. -/
theorem foldUntilClose_of_some {acc acc' : σ} (hs : AtValue s)
    (h : step acc setting s = .ok (some acc') u) :
    foldUntilClose container step acc setting s = foldUntilClose container step acc' setting u := by
  rw [foldUntilClose_eq hstep acc s]
  exact (Result.bind_of_ok (atClose_of_value hs)).trans (Result.bind_of_ok h)

/-- A step that gives up is the last of the loop. -/
theorem foldUntilClose_of_none {acc : σ} (hs : AtValue s)
    (h : step acc setting s = .ok none u) :
    foldUntilClose container step acc setting s = .ok none u := by
  rw [foldUntilClose_eq hstep acc s]
  exact (Result.bind_of_ok (atClose_of_value hs)).trans (Result.bind_of_ok h)

end Turns

/-- What a container holds is read where the event that starts it is gone. -/
theorem nested_congr {body body' : ParseM α} (hs : s.events ≠ [])
    (h : ∀ u, u.events.length < s.events.length → body setting u = body' setting u) :
    nested body setting s = nested body' setting s := by
  have hlt : s.events.tail.length < s.events.length := by
    rw [List.length_tail]
    have hpos := List.length_pos_iff.mpr hs
    omega
  change (body setting >>= _) { s with events := s.events.tail, depth := s.depth + 1 }
    = (body' setting >>= _) _
  exact Result.bind_congr (h { s with events := s.events.tail, depth := s.depth + 1 } hlt)

end ParseM

end InfraModule
