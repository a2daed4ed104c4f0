import InfraModule.Proofs.Event.Skip

/-!
# Documents as trees

What a document holds before it is laid out as events: a scalar, a sequence, or a mapping of pairs
of any values, each with the spans of its events (`Source`). The events of a value are well-formed
(`Source.value`), and the value can be told from them whatever follows
(`Source.events_append_inj`).
-/

namespace InfraModule

/-- From where to where an event stands. -/
structure Span where
  /-- Where the event starts. -/
  start : Mark
  /-- Where the event stops. -/
  stop : Mark

/-- An event that stands on a span. -/
def Event.over (span : Span) (kind : EventKind) : Event :=
  ⟨kind, span.start, span.stop⟩

/-- Every event stands on some span. -/
theorem Event.exists_over (e : Event) : ∃ span, e = .over span e.kind :=
  ⟨⟨e.start, e.stop⟩, rfl⟩

/-- An event is told by its span and its kind. -/
@[simp] theorem Event.over_inj {span span' : Span} {kind kind' : EventKind} :
    Event.over span kind = .over span' kind' ↔ span = span' ∧ kind = kind' := by
  obtain ⟨start, stop⟩ := span
  obtain ⟨start', stop'⟩ := span'
  simp only [Event.over, Event.mk.injEq, Span.mk.injEq]
  exact and_comm

/-- An event over a span is of its kind. -/
@[simp] theorem Event.kind_over (span : Span) (kind : EventKind) :
    (Event.over span kind).kind = kind := rfl

/-- A value of a document. -/
inductive Source where
  /-- A scalar. -/
  | scalar (span : Span) (tag : Option String) (text : String)
  /-- A sequence, with the spans of its start and its end. -/
  | sequence (first last : Span) (tag : Option String) (items : List Source)
  /-- A mapping, with the spans of its start and its end. Keys may be any values. -/
  | mapping (first last : Span) (tag : Option String) (entries : List (Source × Source))

namespace Source

variable {a b part : Source} {items items' : List Source}
  {entries entries' : List (Source × Source)} {es es' : List Event}

/-- What holds of a value once it holds of the values directly in it holds of all values. -/
theorem induction {P : Source → Prop} (scalar : ∀ span tag text, P (.scalar span tag text))
    (sequence : ∀ first last tag items, (∀ a ∈ items, P a) → P (.sequence first last tag items))
    (mapping : ∀ first last tag entries, (∀ entry ∈ entries, P entry.1 ∧ P entry.2) →
      P (.mapping first last tag entries)) : ∀ a, P a
  | .scalar span tag text => scalar span tag text
  | .sequence first last tag items =>
    sequence first last tag items fun a _ => induction scalar sequence mapping a
  | .mapping first last tag entries =>
    mapping first last tag entries fun (key, value) _ =>
      ⟨induction scalar sequence mapping key, induction scalar sequence mapping value⟩
termination_by a => sizeOf a
decreasing_by
  · have := List.sizeOf_lt_of_mem ‹a ∈ items›
    simp only [Source.sequence.sizeOf_spec]
    omega
  all_goals
    have := List.sizeOf_lt_of_mem ‹_ ∈ entries›
    simp only [Source.mapping.sizeOf_spec, Prod.mk.sizeOf_spec] at this ⊢
    omega

/-! ## Events -/

mutual

/-- The events of a value. -/
def events : Source → List Event
  | .scalar span tag text => [.over span (.scalar text tag)]
  | .sequence first last tag items =>
    .over first (.sequenceStart tag) :: (itemEvents items ++ [.over last .sequenceEnd])
  | .mapping first last tag entries =>
    .over first (.mappingStart tag) :: (entryEvents entries ++ [.over last .mappingEnd])
termination_by structural a => a

/-- The events of values one after the other. -/
def itemEvents : List Source → List Event
  | [] => []
  | item :: items => item.events ++ itemEvents items
termination_by structural items => items

/-- The events of keys and values one after the other. -/
def entryEvents : List (Source × Source) → List Event
  | [] => []
  | (key, value) :: entries => key.events ++ (value.events ++ entryEvents entries)
termination_by structural entries => entries

end

/-- The events of items are those of one part after the other. -/
theorem itemEvents_append :
    itemEvents (items ++ items') = itemEvents items ++ itemEvents items' := by
  induction items with
  | nil => rfl
  | cons item items ih => rw [List.cons_append, itemEvents, itemEvents, ih, List.append_assoc]

/-- The events of entries are those of one part after the other. -/
theorem entryEvents_append :
    entryEvents (entries ++ entries') = entryEvents entries ++ entryEvents entries' := by
  induction entries with
  | nil => rfl
  | cons entry entries ih =>
    rw [List.cons_append, entryEvents, entryEvents, ih, List.append_assoc, List.append_assoc]

/-- The events of values are well-formed if those of each are. -/
theorem values_itemEvents (h : ∀ a ∈ items, ∀ rest, Event.Value (a.events ++ rest) rest)
    (rest : List Event) : Event.Values (itemEvents items ++ rest) rest := by
  induction items with
  | nil => exact .nil
  | cons item items ih =>
    obtain ⟨hitem, hitems⟩ := List.forall_mem_cons.mp h
    rw [itemEvents, List.append_assoc]
    exact .cons (hitem _) (ih hitems)

/-- The events of keys and values are well-formed if those of each are. -/
theorem entries_entryEvents (h : ∀ entry ∈ entries,
      (∀ rest, Event.Value (entry.1.events ++ rest) rest) ∧
        ∀ rest, Event.Value (entry.2.events ++ rest) rest) (rest : List Event) :
    Event.Entries (entryEvents entries ++ rest) rest := by
  induction entries with
  | nil => exact .nil
  | cons entry entries ih =>
    obtain ⟨⟨hkey, hvalue⟩, hentries⟩ := List.forall_mem_cons.mp h
    rw [entryEvents, List.append_assoc, List.append_assoc]
    exact .cons (hkey _) (hvalue _) (ih hentries)

/-- The events of a value are well-formed. -/
theorem value (a : Source) (rest : List Event) : Event.Value (a.events ++ rest) rest := by
  induction a using Source.induction generalizing rest with
  | scalar span tag text => exact .scalar rfl
  | sequence first last tag items ih =>
    rw [events, List.cons_append, List.append_assoc]
    exact .sequence rfl (values_itemEvents ih _) rfl
  | mapping first last tag entries ih =>
    rw [events, List.cons_append, List.append_assoc]
    exact .mapping rfl (entries_entryEvents ih _) rfl

/-! ## What events tell -/

/-- Every value has events. -/
theorem events_ne_nil (a : Source) : a.events ≠ [] := by
  cases a <;> simp [events]

/-- Where the events of a value end does not depend on which value they are read as. -/
theorem append_inj (h : a.events ++ es = b.events ++ es') : a.events = b.events ∧ es = es' := by
  have hskip := (a.value es).skipValue
  rw [h, (b.value es').skipValue, Except.ok.injEq] at hskip
  subst hskip
  exact ⟨List.append_cancel_right h, rfl⟩

/-- Items can be told from their events if each of them can. -/
theorem itemEvents_inj (h : ∀ a ∈ items, ∀ b, a.events = b.events → a = b)
    (heq : itemEvents items = itemEvents items') : items = items' := by
  induction items generalizing items' with
  | nil =>
    cases items' with
    | nil => rfl
    | cons b items' => simp [itemEvents, b.events_ne_nil] at heq
  | cons a items ih =>
    obtain ⟨ha, hitems⟩ := List.forall_mem_cons.mp h
    cases items' with
    | nil => simp [itemEvents, a.events_ne_nil] at heq
    | cons b items' =>
      obtain ⟨hevents, hrest⟩ := append_inj heq
      rw [ha b hevents, ih hitems hrest]

/-- Entries can be told from their events if each key and each value can. -/
theorem entryEvents_inj (h : ∀ entry ∈ entries, (∀ b, entry.1.events = b.events → entry.1 = b) ∧
      ∀ b, entry.2.events = b.events → entry.2 = b)
    (heq : entryEvents entries = entryEvents entries') : entries = entries' := by
  induction entries generalizing entries' with
  | nil =>
    cases entries' with
    | nil => rfl
    | cons b entries' => simp [entryEvents, b.1.events_ne_nil] at heq
  | cons entry entries ih =>
    obtain ⟨⟨hkey, hvalue⟩, hentries⟩ := List.forall_mem_cons.mp h
    cases entries' with
    | nil => simp [entryEvents, entry.1.events_ne_nil] at heq
    | cons b entries' =>
      obtain ⟨hkeyEvents, hrest⟩ := append_inj heq
      obtain ⟨hvalueEvents, hrest⟩ := append_inj hrest
      rw [Prod.ext (hkey _ hkeyEvents) (hvalue _ hvalueEvents), ih hentries hrest]

/-- The events of a value tell which value it is. -/
theorem events_inj (h : a.events = b.events) : a = b := by
  -- The first event tells the case and the tag, and what is in a container stands before its last.
  induction a using Source.induction generalizing b with
  | scalar span tag text =>
    cases b with
    | scalar => simpa [events, and_comm] using h
    | sequence | mapping => simp [events] at h
  | sequence first last tag items ih =>
    cases b with
    | scalar | mapping => simp [events] at h
    | sequence first' last' =>
      simp only [events, List.cons.injEq, Event.over_inj, EventKind.sequenceStart.injEq] at h
      obtain ⟨hitems, hlast⟩ := List.append_inj' h.2 rfl
      have hlast : last = last' := by simpa using hlast
      rw [h.1.1, h.1.2, hlast, itemEvents_inj (fun a ha _ => ih a ha) hitems]
  | mapping first last tag entries ih =>
    cases b with
    | scalar | sequence => simp [events] at h
    | mapping first' last' =>
      simp only [events, List.cons.injEq, Event.over_inj, EventKind.mappingStart.injEq] at h
      obtain ⟨hentries, hlast⟩ := List.append_inj' h.2 rfl
      have hlast : last = last' := by simpa using hlast
      have hentries := entryEvents_inj
        (fun entry hentry => ⟨fun _ => (ih entry hentry).1, fun _ => (ih entry hentry).2⟩) hentries
      rw [h.1.1, h.1.2, hlast, hentries]

/-- The events of a value tell it from any other, whatever follows. -/
theorem events_append_inj (h : a.events ++ es = b.events ++ es') : a = b ∧ es = es' := by
  obtain ⟨hevents, hrest⟩ := append_inj h
  exact ⟨events_inj hevents, hrest⟩

/-- Items between the start and the end of a sequence are those of the sequence. -/
theorem exists_sequence {e c : Event} {tag : Option String} (he : e.kind = .sequenceStart tag)
    (hc : c.kind = .sequenceEnd) (items : List Source) (rest : List Event) : ∃ first last,
      e :: (itemEvents items ++ c :: rest) = (sequence first last tag items).events ++ rest := by
  obtain ⟨first, hfirst⟩ := e.exists_over
  obtain ⟨last, hlast⟩ := c.exists_over
  exact ⟨first, last, by rw [hfirst, hlast, he, hc, events]; simp⟩

/-- Entries between the start and the end of a mapping are those of the mapping. -/
theorem exists_mapping {e c : Event} {tag : Option String} (he : e.kind = .mappingStart tag)
    (hc : c.kind = .mappingEnd) (entries : List (Source × Source)) (rest : List Event) :
    ∃ first last,
      e :: (entryEvents entries ++ c :: rest)
        = (mapping first last tag entries).events ++ rest := by
  obtain ⟨first, hfirst⟩ := e.exists_over
  obtain ⟨last, hlast⟩ := c.exists_over
  exact ⟨first, last, by rw [hfirst, hlast, he, hc, events]; simp⟩

/-- An event that is a scalar is the only one of the scalar. -/
theorem exists_scalar {e : Event} {text : String} {tag : Option String}
    (he : e.kind = .scalar text tag) (rest : List Event) :
    ∃ span, e :: rest = (scalar span tag text).events ++ rest := by
  obtain ⟨span, hspan⟩ := e.exists_over
  exact ⟨span, by rw [hspan, he, events]; simp⟩

/-! ## Documents -/

/-- The events are those of a stream of one document, which holds the value. -/
def IsDocument (a : Source) (es : List Event) : Prop :=
  ∃ first start stop last : Span, es = .over first .streamStart :: .over start .documentStart ::
    (a.events ++ [.over stop .documentEnd, .over last .streamEnd])

/-- A value stands in another, keys apart. -/
inductive HasPart : Source → Source → Prop
  /-- A value stands in itself. -/
  | refl (a : Source) : a.HasPart a
  /-- What stands in an item of a sequence stands in the sequence. -/
  | item {first last : Span} {tag : Option String} {items : List Source} {item part : Source}
    (hitem : item ∈ items) (hpart : item.HasPart part) :
    (Source.sequence first last tag items).HasPart part
  /-- What stands in the value of a key stands in the mapping. -/
  | value {first last : Span} {tag : Option String} {entries : List (Source × Source)}
    {entry : Source × Source} {part : Source} (hentry : entry ∈ entries)
    (hpart : entry.2.HasPart part) : (Source.mapping first last tag entries).HasPart part

end Source

end InfraModule
