import InfraModule.Proofs.Event.Skip
import InfraModule.Proofs.Parse.Basic

/-!
# Ways to move the cursor

What is taken of a document is told by the events that are left. A value is taken as skipping takes
it (`Takes`). In a container it is one element, or one key and its value, at a time (`Turns`), so
that what is open around the cursor stays open (`Passes`); the loop over the container then comes to
the end that matches its start (`Closes`).

At a well-formed value a reader can fail for two reasons only: the tree is misused, or the events
come to their end before the value does. So the stream is followed by what it may have lost, and an
error is `Excused` by a loss.
-/

namespace InfraModule

/-! ## Contents of containers -/

/-- Events of this kind start the container, with or without a tag. -/
def Container.Starts (container : Container) (kind : EventKind) : Prop :=
  match container with
  | .mapping => ∃ tag, kind = .mappingStart tag
  | .sequence => ∃ tag, kind = .sequenceStart tag

/-- What starts a container plays the part of a start. -/
theorem Container.Starts.role {container : Container} {kind : EventKind}
    (h : container.Starts kind) : kind.role = .opening := by
  cases container <;> obtain ⟨tag, rfl⟩ := h <;> rfl

/-- The plain start of a container starts it. -/
theorem Container.starts_plainStart (container : Container) :
    container.Starts container.plainStart := by
  cases container <;> exact ⟨none, rfl⟩

namespace Event

variable {container : Container} {e c : Event} {es rest : List Event}

/-- An element of a container stands at the head of the events, and `rest` follows it: a value, or a
key and its value. -/
def Element (container : Container) (es rest : List Event) : Prop :=
  match container with
  | .mapping => ∃ es', Value es es' ∧ Value es' rest
  | .sequence => Value es rest

/-- The elements of a container stand at the head of the events, and `rest` follows them. -/
def Contents (container : Container) (es rest : List Event) : Prop :=
  match container with
  | .mapping => Entries es rest
  | .sequence => Values es rest

/-- Every element starts with a value. -/
theorem Element.exists_value (h : Element container es rest) : ∃ es', Value es es' := by
  cases container with
  | mapping => exact h.imp fun _ h => h.1
  | sequence => exact ⟨rest, h⟩

/-- The contents of a container are used up or go on with an element. -/
theorem Contents.cases (h : Contents container es rest) :
    es = rest ∨ ∃ es', Element container es es' ∧ Contents container es' rest := by
  cases container with
  | mapping =>
    cases h with
    | nil => exact Or.inl rfl
    | cons hkey hvalue hs => exact Or.inr ⟨_, ⟨_, hkey, hvalue⟩, hs⟩
  | sequence =>
    cases h with
    | nil => exact Or.inl rfl
    | cons h hs => exact Or.inr ⟨_, h, hs⟩

/-- A value that starts as a container has contents and an end. -/
theorem Value.contents (h : Value (e :: es) rest) (he : container.Starts e.kind) :
    ∃ c, c.kind = container.close ∧ Contents container es (c :: rest) := by
  cases container with
  | mapping =>
    obtain ⟨tag, he⟩ := he
    cases h with
    | scalar h => simp [he, EventKind.role] at h
    | sequence he' => simp [he] at he'
    | mapping _ hes hc => exact ⟨_, hc, hes⟩
  | sequence =>
    obtain ⟨tag, he⟩ := he
    cases h with
    | scalar h => simp [he, EventKind.role] at h
    | sequence _ hes hc => exact ⟨_, hc, hes⟩
    | mapping he' => simp [he] at he'

end Event

/-- The error tells of a misuse of the tree, or of events that came to their end although `lost`
should follow them. -/
def ParseError.Excused (lost : List Event) (e : ParseError) : Prop :=
  (∃ te, e = .tree te) ∨ (e = .unexpectedEnd ∧ lost ≠ [])

/-! ## Ways to move the cursor -/

namespace ParseState

variable {s u v : ParseState} {e : Event} {es lost rest : List Event} {error : ParseError}
  {container : Container}

/-- The events have come to their end or there is one at the cursor. -/
theorem nil_or_cons (s : ParseState) : s.events = [] ∨ ∃ e es, s.events = e :: es := by
  cases s.events <;> simp

/-- The cursor has not moved. -/
structure Stays (s u : ParseState) : Prop where
  /-- The same events are left. -/
  events : u.events = s.events
  /-- The same containers are open. -/
  depth : u.depth = s.depth

/-- The cursor has moved over the value at which it stood. -/
structure Takes (s u : ParseState) : Prop where
  /-- What was taken is what skipping takes. -/
  events : Event.skipValue s.events = .ok u.events
  /-- No more is open than was. -/
  depth : u.depth = s.depth

/-- The cursor has moved over an element of a container. -/
def Turns (container : Container) (s u : ParseState) : Prop :=
  match container with
  | .mapping => ∃ v, s.Takes v ∧ v.Takes u
  | .sequence => s.Takes u

/-- The cursor has moved over elements of a container, if it has moved. -/
structure Passes (container : Container) (s u : ParseState) : Prop where
  /-- What was open is still open. -/
  events : ∀ d, Event.skipOpen (d + 1) u.events = Event.skipOpen (d + 1) s.events
  /-- Readers have closed what they opened. -/
  depth : u.depth = s.depth
  /-- Well-formed contents go on being well-formed. -/
  contents : ∀ lost c rest, c.kind = container.close →
    Event.Contents container (s.events ++ lost) (c :: rest) →
    Event.Contents container (u.events ++ lost) (c :: rest)

/-- The cursor has moved over elements and then over the end of their container. -/
structure Closes (s u : ParseState) : Prop where
  /-- What was taken is what skipping the rest of the innermost container takes. -/
  events : Event.skipOpen 1 s.events = .ok u.events
  /-- Readers have closed what they opened. -/
  depth : u.depth = s.depth

/-- The error is excused if the value at the cursor is well-formed. -/
def Excuses (s : ParseState) (error : ParseError) : Prop :=
  ∀ lost rest, Event.Value (s.events ++ lost) rest → error.Excused lost

/-- The error is excused if the element at the cursor is well-formed. -/
def ExcusesElement (container : Container) (s : ParseState) (error : ParseError) : Prop :=
  ∀ lost rest, Event.Element container (s.events ++ lost) rest → error.Excused lost

/-- The error is excused if the contents of the container around the cursor are well-formed. -/
def ExcusesContents (container : Container) (s : ParseState) (error : ParseError) : Prop :=
  ∀ lost c rest, c.kind = container.close →
    Event.Contents container (s.events ++ lost) (c :: rest) → error.Excused lost

/-- What was taken of a well-formed value is the value, even if the events end behind it. -/
theorem Takes.append_eq (h : s.Takes u) (hvalue : Event.Value (s.events ++ lost) rest) :
    u.events ++ lost = rest := by
  have hskip := hvalue.skipValue
  rwa [Event.skipValue_append h.events, Except.ok.injEq] at hskip

/-- Taking a value leaves no more events than there were. -/
theorem Takes.length_le (h : s.Takes u) : u.events.length ≤ s.events.length :=
  Event.length_le_of_skipValue h.events

/-- Taking a value takes an event. -/
theorem Takes.length_lt (h : s.Takes u) (hs : ParseM.AtValue s) :
    u.events.length < s.events.length := by
  obtain ⟨e, es, hevents, he⟩ := hs
  have htakes := h.events
  rw [hevents] at htakes ⊢
  exact Event.length_lt_of_skipValue htakes he

/-- A cursor that does not move stays. -/
theorem Stays.refl (s : ParseState) : s.Stays s :=
  ⟨rfl, rfl⟩

/-- Staying twice is staying. -/
theorem Stays.trans (hsu : s.Stays u) (huv : u.Stays v) : s.Stays v :=
  ⟨huv.events.trans hsu.events, huv.depth.trans hsu.depth⟩

/-- A value is taken if it is taken first and the cursor stays after it. -/
theorem Takes.trans_stays (hsu : s.Takes u) (huv : u.Stays v) : s.Takes v :=
  ⟨by rw [hsu.events, huv.events], huv.depth.trans hsu.depth⟩

/-- A value is taken if the cursor stays first and then takes it. -/
theorem Stays.trans_takes (hsu : s.Stays u) (huv : u.Takes v) : s.Takes v :=
  ⟨by rw [← hsu.events, huv.events], huv.depth.trans hsu.depth⟩

/-- Contents are closed if they are closed first and the cursor stays after it. -/
theorem Closes.trans_stays (hsu : s.Closes u) (huv : u.Stays v) : s.Closes v :=
  ⟨by rw [hsu.events, huv.events], huv.depth.trans hsu.depth⟩

/-! ### Elements -/

/-- What was taken of a well-formed element is the element. -/
theorem Turns.append_eq (h : s.Turns container u)
    (helement : Event.Element container (s.events ++ lost) rest) : u.events ++ lost = rest := by
  cases container with
  | mapping =>
    obtain ⟨v, hsv, hvu⟩ := h
    obtain ⟨es, hkey, hvalue⟩ := helement
    rw [← hsv.append_eq hkey] at hvalue
    exact hvu.append_eq hvalue
  | sequence => exact Takes.append_eq h helement

/-- Over an element, what closes the containers around it stays the same. -/
theorem Turns.skipOpen (h : s.Turns container u) (d : Nat) :
    Event.skipOpen (d + 1) u.events = Event.skipOpen (d + 1) s.events := by
  cases container with
  | mapping =>
    obtain ⟨v, hsv, hvu⟩ := h
    rw [Event.skipOpen_of_skipValue d hvu.events, Event.skipOpen_of_skipValue d hsv.events]
  | sequence => exact Event.skipOpen_of_skipValue d h.events

/-- Over an element the depth stays the same. -/
theorem Turns.depth (h : s.Turns container u) : u.depth = s.depth := by
  cases container with
  | mapping =>
    obtain ⟨v, hsv, hvu⟩ := h
    exact hvu.depth.trans hsv.depth
  | sequence => exact Takes.depth h

/-- An element that starts with a value takes at least one event. -/
theorem Turns.length_lt (h : s.Turns container u) (hs : ParseM.AtValue s) :
    u.events.length < s.events.length := by
  cases container with
  | mapping =>
    obtain ⟨v, hsv, hvu⟩ := h
    exact Nat.lt_of_le_of_lt hvu.length_le (hsv.length_lt hs)
  | sequence => exact Takes.length_lt h hs

/-- Where a value stands, well-formed contents go on with an element. -/
theorem exists_element {c : Event} (hs : ParseM.AtValue s) (hc : c.kind = container.close)
    (h : Event.Contents container (s.events ++ lost) (c :: rest)) :
    ∃ es, Event.Element container (s.events ++ lost) es ∧
      Event.Contents container es (c :: rest) := by
  -- The end of the container is no value, so the contents are not used up.
  refine h.cases.resolve_left fun heq => ?_
  obtain ⟨e, es, hevents, he⟩ := hs
  rw [hevents, List.cons_append, List.cons.injEq] at heq
  have hrole := ParseM.role_close container
  rw [← hc, ← heq.1] at hrole
  simp [hrole] at he

/-- An element is passed like a run of one element. -/
theorem Turns.passes (h : s.Turns container u) (hs : ParseM.AtValue s) :
    s.Passes container u where
  events := h.skipOpen
  depth := h.depth
  contents := by
    intro lost c rest hc hcontents
    obtain ⟨es, helement, hrest⟩ := exists_element hs hc hcontents
    rwa [h.append_eq helement]

/-- Nothing is a run of no elements. -/
theorem Passes.refl (container : Container) (s : ParseState) : s.Passes container s :=
  ⟨fun _ => rfl, rfl, fun _ _ _ _ h => h⟩

/-- Two runs of elements make one. -/
theorem Passes.trans (hsu : s.Passes container u) (huv : u.Passes container v) :
    s.Passes container v where
  events := fun d => (huv.events d).trans (hsu.events d)
  depth := huv.depth.trans hsu.depth
  contents := fun lost c rest hc h => huv.contents lost c rest hc (hsu.contents lost c rest hc h)

/-- Passing elements up to the end of their container and taking the end closes the container. -/
theorem Passes.closes (h : s.Passes container u) (hclose : u.events = e :: es)
    (he : e.kind = container.close) : s.Closes { u with events := es } where
  events := by
    rw [← h.events 0, hclose, Event.skipOpen_cons_closing 0 (he ▸ ParseM.role_close container),
      Event.skipOpen_zero]
  depth := h.depth

/-- Taking the start of a container and closing it takes a value. -/
theorem Closes.takes (hs : s.events = e :: es) (he : e.kind.role = .opening)
    (h : Closes { s with events := s.events.tail, depth := s.depth + 1 } u) :
    s.Takes { u with depth := u.depth - 1 } where
  events := by
    have hevents := h.events
    rw [hs, List.tail_cons] at hevents
    rw [hs, Event.skipValue_cons_opening he]
    exact hevents
  depth := by
    -- One level has been opened and is given back.
    have hdepth := h.depth
    simp only at hdepth ⊢
    omega

/-! ### Excuses -/

/-- A misuse of the tree is always an excuse. -/
theorem excuses_of_tree (h : ∃ te, error = .tree te) : s.Excuses error :=
  fun _ _ _ => Or.inl h

/-- Where no event is left, something was lost. -/
theorem excuses_of_nil (hs : s.events = []) : s.Excuses .unexpectedEnd := by
  intro lost rest hvalue
  refine Or.inr ⟨rfl, ?_⟩
  obtain ⟨e, es, heq, -⟩ := hvalue.exists_cons
  rw [hs, List.nil_append] at heq
  simp [heq]

/-- An excuse after staying is an excuse before it. -/
theorem Stays.excuses (h : s.Stays u) (he : u.Excuses error) : s.Excuses error := by
  unfold Excuses at he ⊢
  rwa [h.events] at he

/-- A failure at the key of a pair is one at the pair. -/
theorem Excuses.key (h : s.Excuses error) : s.ExcusesElement .mapping error := by
  rintro lost rest ⟨es, hkey, -⟩
  exact h lost es hkey

/-- A failure at the value of a pair is one at the pair. -/
theorem Excuses.value (h : u.Excuses error) (hsu : s.Takes u) :
    s.ExcusesElement .mapping error := by
  rintro lost rest ⟨es, hkey, hvalue⟩
  rw [← hsu.append_eq hkey] at hvalue
  exact h lost rest hvalue

/-- A failure at an element is one at the contents of its container. -/
theorem ExcusesElement.contents (h : u.ExcusesElement container error) (hu : ParseM.AtValue u)
    (hsu : s.Passes container u) : s.ExcusesContents container error := by
  intro lost c rest hc hcontents
  obtain ⟨es, helement, -⟩ := exists_element hu hc (hsu.contents lost c rest hc hcontents)
  exact h lost es helement

/-- An excuse for the rest of the contents is one for all of them. -/
theorem ExcusesContents.passes (h : u.ExcusesContents container error)
    (hsu : s.Passes container u) : s.ExcusesContents container error :=
  fun lost c rest hc hcontents => h lost c rest hc (hsu.contents lost c rest hc hcontents)

/-- Where neither a value nor the end of the container stands, well-formed contents were cut off. -/
theorem excusesContents_of_stuck (hclose : ¬ ParseM.AtClose container s)
    (hvalue : ¬ ParseM.AtValue s) (hnil : s.events = [] → error = .unexpectedEnd) :
    s.ExcusesContents container error := by
  intro lost c rest hc hcontents
  -- Either no event is left, or the one that is left can neither end nor continue the contents.
  rcases s.nil_or_cons with hs | ⟨e, es, hs⟩
  · refine Or.inr ⟨hnil hs, ?_⟩
    rintro rfl
    rw [hs, List.append_nil] at hcontents
    rcases hcontents.cases with heq | ⟨es, helement, -⟩
    · simp at heq
    · obtain ⟨es', hvalue'⟩ := helement.exists_value
      obtain ⟨e, es, heq, -⟩ := hvalue'.exists_cons
      simp at heq
  · rcases hcontents.cases with heq | ⟨es', helement, -⟩
    · rw [hs, List.cons_append, List.cons.injEq] at heq
      exact (hclose ⟨e, es, hs, heq.1 ▸ hc⟩).elim
    · obtain ⟨es', hvalue'⟩ := helement.exists_value
      obtain ⟨d, ds, heq, hd⟩ := hvalue'.exists_cons
      rw [hs, List.cons_append, List.cons.injEq] at heq
      exact (hvalue ⟨e, es, hs, heq.1 ▸ hd⟩).elim

/-- A failure inside a container is one at the value that the container is. -/
theorem ExcusesContents.excuses (hs : s.events = e :: es) (he : container.Starts e.kind)
    (h : ExcusesContents container { s with events := s.events.tail, depth := s.depth + 1 } error) :
    s.Excuses error := by
  intro lost rest hvalue
  rw [hs, List.cons_append] at hvalue
  obtain ⟨c, hc, hcontents⟩ := hvalue.contents he
  refine h lost c rest hc ?_
  rw [hs]
  exact hcontents

end ParseState

end InfraModule
