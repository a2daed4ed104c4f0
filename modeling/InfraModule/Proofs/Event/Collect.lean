import InfraModule.Event.Collect
import InfraModule.Proofs.Event.Balance

/-!
# Spans of collected events

When the start of a collection is delivered, its span is not known yet: it is amended when the next
event comes and when the collection's end does. What becomes of the events so far therefore depends
on the events still to come (`Collector.settled`), and in the end each event has the span that the
events after it give it (`Event.spanned`). So spans can be told from the events as they were
delivered (`Event.collect_eq`): a collection stops where the event is that closes it, containers
being matched by count, and starts at its own place or at that of the next event, whichever comes
first (`Event.collect_spans`).
-/

namespace InfraModule

open Yaml
open EventRole (Closes openAfter)

namespace Event

variable {d : Event} {ds : List Event} {e : RawEvent} {raw : List RawEvent} {kind : EventKind}
  {source : List Char}

/-! ## Events as they are delivered -/

/-- What an event is by itself. The start of a collection is at one place. -/
def delivered? (source : List Char) (e : RawEvent) : Option Event :=
  (kindOf? e.kind).map fun kind => ⟨kind, e.place.mark, stopOf (suffixes source) e⟩

/-- Events as they are delivered, in order, without those that report nothing. -/
def delivered (source : List Char) (raw : List RawEvent) : List Event :=
  raw.filterMap (delivered? source)

/-- Only references back to anchors and events for nothing report nothing. -/
theorem kindOf?_eq_none_iff {k : RawEventKind} :
    kindOf? k = none ↔ k = .nothing ∨ ∃ name, k = .alias name := by
  unfold kindOf?
  split <;> simp

/-! ## Ends of collections -/

/-- The event that closes the outermost of the `depth` innermost containers that are open. -/
def closer? : Nat → List Event → Option Event
  | _, [] => none
  | depth, e :: es =>
    if openAfter depth e.kind.role = 0 then some e
    else closer? (openAfter depth e.kind.role) es

/-- Going through the events finds the one that closes so many containers for the first time. -/
theorem closer?_eq_some_iff {depth : Nat} {c : Event} : closer? (depth + 1) ds = some c ↔
    ∃ inner rest, ds = inner ++ c :: rest ∧ Closes (depth + 1) (roles (inner ++ [c])) := by
  -- By induction on the events; after each of them as many containers are open as `openAfter` says.
  induction ds generalizing depth with
  | nil => simp [closer?]
  | cons d ds ih =>
    rw [closer?]
    cases hopen : openAfter (depth + 1) d.kind.role with
    | zero =>
      -- The first event closes what is open, and a longer run does not close it again.
      have hcloses (run : List Event) : Closes (depth + 1) (roles (d :: run)) ↔ run = [] := by
        rw [roles_cons, EventRole.closes_cons, hopen, EventRole.closes_zero, roles,
          List.map_eq_nil_iff]
      rw [if_pos rfl, Option.some.injEq]
      constructor
      · rintro rfl
        exact ⟨[], ds, rfl, (hcloses []).mpr rfl⟩
      · rintro ⟨inner, rest, hds, hrun⟩
        rcases List.cons_eq_append_iff.mp hds with ⟨rfl, h⟩ | ⟨inner, rfl, -⟩
        · exact (List.cons.inj h).1.symm
        · simpa using (hcloses (inner ++ [c])).mp hrun
    | succ depth' =>
      have hcloses (run : List Event) :
          Closes (depth + 1) (roles (d :: run)) ↔ Closes (depth' + 1) (roles run) := by
        rw [roles_cons, EventRole.closes_cons, hopen]
      rw [if_neg (by omega), ih]
      constructor
      · rintro ⟨inner, rest, rfl, hrun⟩
        exact ⟨d :: inner, rest, rfl, (hcloses _).mpr hrun⟩
      · rintro ⟨inner, rest, hds, hrun⟩
        rcases List.cons_eq_append_iff.mp hds with ⟨rfl, h⟩ | ⟨inner, rfl, h⟩
        · obtain ⟨rfl, -⟩ := List.cons.inj h
          exact absurd ((hcloses []).mp hrun) EventRole.not_closes_nil
        · exact ⟨inner, rest, h, (hcloses _).mp hrun⟩

/-- The event moved back to the place of the next one, if that is earlier. -/
def pulledBack (ds : List Event) (d : Event) : Event :=
  ds.head?.elim d fun next => Collector.pullBack next.start d

/-- The event up to where the outermost of so many containers is closed, if it is. -/
def closedAt (depth : Nat) (ds : List Event) (d : Event) : Event :=
  (closer? depth ds).elim d fun c => { d with stop := c.start }

/-- An event with the span that the events after it give it. -/
def spanned (ds : List Event) (d : Event) : Event :=
  if d.kind.role = .opening then closedAt 1 ds (pulledBack ds d) else d

/-- Events with the spans that the events after them give them. -/
def spans : List Event → List Event
  | [] => []
  | d :: ds => spanned ds d :: spans ds

/-- The next event closes a container, or the container is closed later, with one more or less
open. -/
theorem closedAt_cons (depth : Nat) (d x : Event) (ds : List Event) : closedAt depth (d :: ds) x =
    if openAfter depth d.kind.role = 0 then { x with stop := d.start }
    else closedAt (openAfter depth d.kind.role) ds x := by
  rw [closedAt, closer?]
  split
  · rfl
  · rfl

end Event

namespace Event.Collector

variable {c : Collector} {d x : Event} {ds : List Event} {e : RawEvent} {raw : List RawEvent}
  {j : Nat} {source : List Char}

/-! ## One event -/

/-- What becomes of the event at a place when the next one is delivered. -/
def touched (c : Collector) (d : Event) (j : Nat) (x : Event) : Event :=
  let x := if c.unfilled = some j then pullBack d.start x else x
  if d.kind.role = .closing ∧ c.openings.head? = some j then { x with stop := d.start } else x

/-- An event that reports nothing is left out. -/
theorem add_of_none (h : delivered? source e = none) : add (suffixes source) c e = c := by
  have hkind : kindOf? e.kind = none := Option.map_eq_none_iff.mp h
  rw [add, hkind]

/-- The start and the end of a collection stop where they start. -/
theorem stopOf_eq {kind : EventKind} (h : kindOf? e.kind = some kind)
    (hrole : kind.role = .opening ∨ kind.role = .closing) :
    stopOf (suffixes source) e = e.place.mark := by
  -- Only scalars stop elsewhere, and they neither start nor end a collection.
  unfold kindOf? at h
  split at h <;> cases h <;> simp_all [EventKind.role, stopOf]

/-- What adding an event does, by the part that the event plays. -/
theorem add_of_some (h : delivered? source e = some d) :
    let events := amend c.events c.unfilled (pullBack d.start)
    add (suffixes source) c e = match d.kind.role with
      | .opening => ⟨events.push d, events.size :: c.openings, some events.size⟩
      | .closing => ⟨(amend events c.openings.head? ({ · with stop := d.start })).push d,
          c.openings.tail, none⟩
      | _ => ⟨events.push d, c.openings, none⟩ := by
  obtain ⟨kind, hkind, rfl⟩ := Option.map_eq_some_iff.mp h
  rw [add, hkind]
  cases hrole : kind.role with
  | opening => simp only [hrole, stopOf_eq hkind (Or.inl hrole)]
  | closing => simp only [hrole, stopOf_eq hkind (Or.inr hrole)]
  | leaf | framing => simp only [hrole]

/-- Changing an event in place adds none. -/
@[simp] theorem size_amend (events : Array Event) (place : Option Nat) (change : Event → Event) :
    (amend events place change).size = events.size := by
  cases place with
  | none => rfl
  | some place => exact Array.size_modify

/-- An event is changed where the change is made, and nowhere else. -/
theorem getElem?_amend (events : Array Event) (place : Option Nat) (change : Event → Event) :
    (amend events place change)[j]? =
      events[j]?.map fun x => if place = some j then change x else x := by
  cases place with
  | none => simp [amend]
  | some place =>
    by_cases hj : place = j <;> simp [amend, Array.getElem?_modify, hj]

/-- The events after adding one: those before it are touched, and it comes last. -/
theorem getElem?_events_add (h : delivered? source e = some d) :
    (add (suffixes source) c e).events[j]? =
      if j = c.events.size then some d else c.events[j]?.map (c.touched d j) := by
  rw [add_of_some h]
  cases hrole : d.kind.role with
  | closing =>
    simp only [Array.getElem?_push, size_amend, getElem?_amend, Option.map_map]
    congr 2
    funext x
    simp [touched, hrole]
  | opening | leaf | framing =>
    simp only [Array.getElem?_push, size_amend, getElem?_amend]
    congr 2
    funext x
    simp [touched, hrole]

/-- One event more is kept. -/
theorem size_events_add (h : delivered? source e = some d) :
    (add (suffixes source) c e).events.size = c.events.size + 1 := by
  rw [add_of_some h]
  cases d.kind.role <;> simp

/-- The start of a collection opens it, and an end closes the innermost one. -/
theorem openings_add (h : delivered? source e = some d) : (add (suffixes source) c e).openings =
    match d.kind.role with
    | .opening => c.events.size :: c.openings
    | .closing => c.openings.tail
    | _ => c.openings := by
  rw [add_of_some h]
  cases d.kind.role <;> simp

/-- Only the start of a collection waits for the event that comes next. -/
theorem unfilled_add (h : delivered? source e = some d) : (add (suffixes source) c e).unfilled =
    if d.kind.role = .opening then some c.events.size else none := by
  rw [add_of_some h]
  cases d.kind.role <;> simp

/-! ## All events -/

/-- The starts of collections that are open stand among the events, each at a place of its own. -/
structure Valid (c : Collector) : Prop where
  /-- What is open stands among the events. -/
  lt_size : ∀ j ∈ c.openings, j < c.events.size
  /-- Nothing is open twice. -/
  nodup : c.openings.Nodup

/-- After an event the open collections stand among the events as well. -/
theorem Valid.add (hc : c.Valid) (h : delivered? source e = some d) :
    (add (suffixes source) c e).Valid := by
  refine ⟨fun j hj => ?_, ?_⟩
  · rw [openings_add h] at hj
    rw [size_events_add h]
    have hold : j ∈ c.openings → j < c.events.size + 1 :=
      fun hmem => Nat.lt_succ_of_lt (hc.lt_size j hmem)
    cases hrole : d.kind.role with
    | opening =>
      rw [hrole] at hj
      rcases List.mem_cons.mp hj with rfl | hmem
      · exact Nat.lt_succ_self _
      · exact hold hmem
    | closing =>
      rw [hrole] at hj
      exact hold (List.mem_of_mem_tail hj)
    | leaf | framing =>
      rw [hrole] at hj
      exact hold hj
  · rw [openings_add h]
    cases d.kind.role with
    | opening =>
      refine List.nodup_cons.mpr ⟨fun hmem => ?_, hc.nodup⟩
      exact absurd (hc.lt_size _ hmem) (Nat.lt_irrefl _)
    | closing => exact hc.nodup.sublist (List.tail_sublist _)
    | leaf | framing => exact hc.nodup

/-- What becomes of the event at a place when all events to come are delivered. -/
def settled (c : Collector) (ds : List Event) (j : Nat) (x : Event) : Event :=
  let x := if c.unfilled = some j then pulledBack ds x else x
  (c.openings.idxOf? j).elim x fun k => closedAt (k + 1) ds x

/-- An event that is touched by the next one is settled by those after it. -/
theorem settled_touched (hc : c.Valid) (h : delivered? source e = some d)
    (hj : j < c.events.size) :
    (add (suffixes source) c e).settled ds j (c.touched d j x) = c.settled (d :: ds) j x := by
  have hne : c.events.size ≠ j := by omega
  have hunfilled : (add (suffixes source) c e).unfilled ≠ some j := by
    rw [unfilled_add h]
    split <;> simp [hne]
  rw [settled, if_neg hunfilled, settled, touched, openings_add h]
  -- What waits for its first event is pulled back by `d` in both.
  have hpulled : pulledBack (d :: ds) x = pullBack d.start x := rfl
  rw [hpulled]
  generalize (if c.unfilled = some j then pullBack d.start x else x) = y
  have hclosed (k : Nat) := closedAt_cons (k + 1) d y ds
  cases hrole : d.kind.role with
  | opening =>
    -- There is one more collection inside of those that are open.
    have hidx : (c.events.size :: c.openings).idxOf? j
        = (c.openings.idxOf? j).map (· + 1) := by
      rw [List.idxOf?_cons, if_neg (by simpa using hne)]
    simp only [hrole, EventRole.openAfter] at hclosed
    simp [hidx, hclosed, Option.elim_map, Function.comp_def]
  | closing =>
    simp only [hrole, EventRole.openAfter] at hclosed
    cases hopen : c.openings with
    | nil => simp
    | cons i openings =>
      have hnodup := hc.nodup
      rw [hopen, List.nodup_cons] at hnodup
      by_cases hi : i = j
      · -- The innermost collection is closed by `d`, and no other event is.
        subst hi
        have hidx : openings.idxOf? i = none := List.idxOf?_eq_none_iff.mpr hnodup.1
        simp [hidx, hclosed, List.idxOf?_cons]
      · have hidx : (i :: openings).idxOf? j = (openings.idxOf? j).map (· + 1) := by
          rw [List.idxOf?_cons, if_neg (by simpa using hi)]
        simp [hidx, hclosed, hi, Option.elim_map, Function.comp_def]
  | leaf | framing =>
    simp only [hrole, EventRole.openAfter] at hclosed
    simp [hclosed]

/-- An event that comes last is settled by those after it. -/
theorem settled_self (hc : c.Valid) (h : delivered? source e = some d) :
    (add (suffixes source) c e).settled ds c.events.size d = spanned ds d := by
  have hfresh : c.events.size ∉ c.openings := fun hmem => absurd (hc.lt_size _ hmem) (by omega)
  have hold : c.openings.idxOf? c.events.size = none := List.idxOf?_eq_none_iff.mpr hfresh
  have htail : c.openings.tail.idxOf? c.events.size = none :=
    List.idxOf?_eq_none_iff.mpr fun hmem => hfresh (List.mem_of_mem_tail hmem)
  rw [settled, unfilled_add h, openings_add h, spanned]
  cases hrole : d.kind.role with
  | opening => simp [List.idxOf?_cons]
  | closing => simp [htail]
  | leaf | framing => simp [hold]

/-- Once all events are delivered, those from before are settled and the others have their spans. -/
theorem getElem?_events_foldl_add (hc : c.Valid) (source : List Char) (raw : List RawEvent)
    (j : Nat) :
    (raw.foldl (add (suffixes source)) c).events[j]? =
      if j < c.events.size then c.events[j]?.map (c.settled (delivered source raw) j)
      else (spans (delivered source raw))[j - c.events.size]? := by
  induction raw generalizing c with
  | nil =>
    have hsettled : c.settled [] j = id := by
      funext x
      cases hidx : c.openings.idxOf? j <;> simp [settled, hidx, pulledBack, closedAt, closer?]
    have hnil : delivered source [] = [] := rfl
    rw [List.foldl_nil, hnil, hsettled, Option.map_id_fun, id_eq]
    split
    · rfl
    · next hj => simpa [spans] using Nat.not_lt.mp hj
  | cons e raw ih =>
    rw [List.foldl_cons]
    cases h : delivered? source e with
    | none =>
      have hraw : delivered source (e :: raw) = delivered source raw :=
        List.filterMap_cons_none h
      rw [add_of_none h, ih hc, hraw]
    | some d =>
      have hraw : delivered source (e :: raw) = d :: delivered source raw :=
        List.filterMap_cons_some h
      rw [ih (hc.add h), size_events_add h, getElem?_events_add h, hraw, spans]
      rcases Nat.lt_trichotomy j c.events.size with hj | rfl | hj
      · rw [if_pos (by omega), if_neg (by omega), if_pos hj, Option.map_map]
        congr 1
        funext x
        exact settled_touched hc h hj
      · rw [if_pos (by omega), if_pos rfl, if_neg (by omega), Nat.sub_self, Option.map_some,
          settled_self hc h]
        rfl
      · have hnext : j - c.events.size = j - (c.events.size + 1) + 1 := by omega
        rw [if_neg (by omega), if_neg (by omega), hnext, List.getElem?_cons_succ]

end Event.Collector

namespace Event

variable {d : Event} {ds before after : List Event} {raw : List RawEvent} {source : List Char}
  {mark : Mark}

/-- The span of each event is told by the events that are delivered after it. -/
theorem collect_eq (source : List Char) (raw : List RawEvent) :
    collect source raw = spans (delivered source raw) := by
  have hempty : ({} : Collector).Valid := ⟨by simp, by simp⟩
  refine List.ext_getElem? fun j => ?_
  have hall := Collector.getElem?_events_foldl_add hempty source raw j
  rw [collect, Array.getElem?_toList, hall]
  simp

/-- The span of an event is the one that the events after it give it. -/
theorem getElem?_spans (before after : List Event) (d : Event) :
    (spans (before ++ d :: after))[before.length]? = some (spanned after d) := by
  induction before with
  | nil => rfl
  | cons b before ih => simpa [spans] using ih

/-- What is no start of a collection keeps its span. -/
theorem spanned_of_ne (h : d.kind.role ≠ .opening) (ds : List Event) : spanned ds d = d :=
  if_neg h

/-- A collection starts at its own place or at that of the next event, whichever comes first. It
stops where it is closed, and if it never is where its start does. -/
theorem spanned_of_opening (h : d.kind.role = .opening) (ds : List Event) : spanned ds d =
    { kind := d.kind
      start := ds.head?.elim d.start fun next =>
        if next.start < d.start then next.start else d.start
      stop := (closer? 1 ds).elim d.stop Event.start } := by
  have hpulled : pulledBack ds d =
      { d with start := ds.head?.elim d.start fun next =>
          if next.start < d.start then next.start else d.start } := by
    unfold pulledBack Collector.pullBack
    cases ds.head? with
    | none => rfl
    | some next =>
      dsimp only [Option.elim]
      split <;> rfl
  rw [spanned, if_pos h, closedAt, hpulled]
  cases closer? 1 ds <;> rfl

/-- Spans do not matter to what events are. -/
theorem map_kind_spans (ds : List Event) : (spans ds).map Event.kind = ds.map Event.kind := by
  have hkind (d : Event) (ds : List Event) : (spanned ds d).kind = d.kind := by
    by_cases h : d.kind.role = .opening
    · rw [spanned_of_opening h]
    · rw [spanned_of_ne h]
  induction ds with
  | nil => rfl
  | cons d ds ih => rw [spans, List.map_cons, hkind, ih, List.map_cons]

/-- Where nothing closes what is open, no run of events does. -/
theorem closer?_eq_none {depth : Nat}
    (h : ∀ run, run <+: ds → ¬ Closes (depth + 1) (roles run)) : closer? (depth + 1) ds = none := by
  cases hc : closer? (depth + 1) ds with
  | none => rfl
  | some c =>
    obtain ⟨inner, rest, rfl, hrun⟩ := closer?_eq_some_iff.mp hc
    exact absurd hrun (h _ ⟨rest, by simp⟩)

/-- The start of a collection is delivered as if it stopped where it starts. -/
theorem stop_of_mem_delivered (hd : d ∈ delivered source raw) (h : d.kind.role = .opening) :
    d.stop = d.start := by
  obtain ⟨e, -, he⟩ := List.mem_filterMap.mp hd
  obtain ⟨kind, hkind, rfl⟩ := Option.map_eq_some_iff.mp he
  exact Collector.stopOf_eq hkind (Or.inl h)

/-- No reference is found if there is none, and else the first of all. -/
theorem firstAlias?_eq (raw : List RawEvent) :
    (firstAlias? raw = none ↔ ∀ e ∈ raw, ∀ name, e.kind ≠ .alias name) ∧
    ∀ mark, firstAlias? raw = some mark ↔ ∃ before name place after,
      raw = before ++ ⟨.alias name, place⟩ :: after ∧
        (∀ e ∈ before, ∀ name, e.kind ≠ .alias name) ∧ mark = place.mark := by
  obtain ⟨mark?, hmark?, hnone, hsome⟩ : ∃ mark? : RawEvent → Option Mark,
      firstAlias? raw = raw.findSome? mark? ∧
      (∀ e, mark? e = none ↔ ∀ name, e.kind ≠ .alias name) ∧
      ∀ e mark, mark? e = some mark ↔ ∃ name, e.kind = .alias name ∧ mark = e.place.mark := by
    refine ⟨_, rfl, fun e => ?_, fun e mark => ?_⟩
    · split <;> simp_all
    · split <;> simp_all [eq_comm]
  refine ⟨?_, fun mark => ?_⟩
  · rw [hmark?, List.findSome?_eq_none_iff]
    exact forall₂_congr fun e _ => hnone e
  · rw [hmark?, List.findSome?_eq_some_iff]
    constructor
    · rintro ⟨before, ⟨kind, place⟩, after, rfl, hfound, hbefore⟩
      obtain ⟨name, rfl, hmark⟩ := (hsome _ mark).mp hfound
      exact ⟨before, name, place, after, rfl, fun e he => (hnone e).mp (hbefore e he), hmark⟩
    · rintro ⟨before, name, place, after, rfl, hbefore, hmark⟩
      exact ⟨before, _, after, rfl, (hsome _ mark).mpr ⟨name, rfl, hmark⟩,
        fun e he => (hnone e).mpr (hbefore e he)⟩

/-- Whatever events are delivered, those that are kept are all but the references back to anchors
and the events for nothing, in order. The start of a collection starts at its own place or at that
of the next event, whichever comes first, and stops where the event is with which, for the first
time, one container more has ended than started after it; if there is none it stops where it is.
Every other event is as it was delivered. The events are refused exactly if there is a reference
back to an anchor, at the first of them. -/
theorem collect_spans (source : List Char) (raw : List RawEvent) :
    (collect source raw).map Event.kind = raw.filterMap (fun e => kindOf? e.kind) ∧
    (∀ kind, kindOf? kind = none ↔ kind = .nothing ∨ ∃ name, kind = .alias name) ∧
    (∀ before d after, delivered source raw = before ++ d :: after → ∃ e,
      (collect source raw)[before.length]? = some e ∧ e.kind = d.kind ∧
      (d.kind.role ≠ .opening → e = d) ∧
      (d.kind.role = .opening →
        e.start = (after.head?.elim d.start fun next =>
          if next.start < d.start then next.start else d.start) ∧
        (∀ inner close rest, after = inner ++ close :: rest →
          Closes 1 (roles (inner ++ [close])) → e.stop = close.start) ∧
        ((∀ run, run <+: after → ¬ Closes 1 (roles run)) → e.stop = d.start))) ∧
    (∀ error, ofRaw source raw = .error error ↔ ∃ before name place after,
      raw = before ++ ⟨.alias name, place⟩ :: after ∧
        (∀ e ∈ before, ∀ name, e.kind ≠ .alias name) ∧ error = .unsupportedAlias place.mark) ∧
    ∀ es, ofRaw source raw = .ok es ↔
      (∀ e ∈ raw, ∀ name, e.kind ≠ .alias name) ∧ es = collect source raw := by
  obtain ⟨hnone, hsome⟩ := firstAlias?_eq raw
  refine ⟨?kinds, fun kind => kindOf?_eq_none_iff, fun before d after hraw => ?spans,
    fun error => ?refused, fun es => ?kept⟩
  case kinds =>
    rw [collect_eq, map_kind_spans, delivered, List.map_filterMap]
    congr 1
    funext e
    simp [delivered?, Function.comp_def]
  case spans =>
    have hd : d ∈ delivered source raw := hraw ▸ by simp
    refine ⟨spanned after d, ?_, ?_,
      fun h => spanned_of_ne h after, ?_⟩
    · rw [collect_eq, hraw, getElem?_spans]
    · by_cases h : d.kind.role = .opening
      · rw [spanned_of_opening h]
      · rw [spanned_of_ne h]
    · intro h
      rw [spanned_of_opening h]
      refine ⟨rfl, fun inner close rest hafter hrun => ?_, fun hnone => ?_⟩
      · rw [closer?_eq_some_iff.mpr ⟨inner, rest, hafter, hrun⟩]
        rfl
      · rw [closer?_eq_none hnone]
        exact stop_of_mem_delivered hd h
  case refused =>
    have hrefused : ofRaw source raw = .error error ↔
        ∃ mark, firstAlias? raw = some mark ∧ error = .unsupportedAlias mark := by
      unfold ofRaw
      cases firstAlias? raw <;> simp [eq_comm]
    rw [hrefused]
    constructor
    · rintro ⟨mark, hmark, rfl⟩
      obtain ⟨before, name, place, after, hraw, hbefore, rfl⟩ := (hsome mark).mp hmark
      exact ⟨before, name, place, after, hraw, hbefore, rfl⟩
    · rintro ⟨before, name, place, after, hraw, hbefore, rfl⟩
      exact ⟨_, (hsome _).mpr ⟨before, name, place, after, hraw, hbefore, rfl⟩, rfl⟩
  case kept =>
    rw [← hnone]
    unfold ofRaw
    cases firstAlias? raw <;> simp [eq_comm]

end Event

end InfraModule
