import Mathlib.Order.WellFounded
import InfraModule.Proofs.Event.Skip
import InfraModule.Proofs.Parse.Basic

/-!
# Balanced runs of events

Skipping does not look at what containers are; it counts how many start and how many end. So what it
takes can be said by counting alone. A run of events closes so many containers
(`EventRole.Closes`) if its last event, and none before, brings the ends level with the starts and
the containers that were open before. Skipping takes exactly the run that closes what is open
(`Event.skipOpen_eq_ok_iff`), and where there is none it stops before the next framing
(`Event.eq_dropWhile_of_skipOpen`). For a whole value that is the shortest run of scalars, starts
and ends in which as many containers end as start, and skipping fails only where there is no such
run (`Event.skipValue_eq_error_iff`, `ParseM.skip_shortest`).
-/

namespace InfraModule

/-! ## Counting starts and ends -/

namespace EventRole

variable {depth : Nat} {role : EventRole} {run part : List EventRole}

/-- With the last event of the run, and not before, as many containers have ended as started in it
or were open before it, which `depth` were. -/
structure Closes (depth : Nat) (run : List EventRole) : Prop where
  /-- In the end the ends are level with the starts. -/
  level : run.count .opening + depth = run.count .closing
  /-- They were not before. -/
  first : ∀ part, part <+: run → part.count .opening + depth = part.count .closing → part = run

/-- Where nothing is open nothing is left to be closed. -/
@[simp] theorem closes_zero : Closes 0 run ↔ run = [] := by
  refine ⟨fun h => ?_, ?_⟩
  · have hnil : [] = run := h.first [] List.nil_prefix (by simp)
    exact hnil.symm
  · rintro rfl
    exact ⟨by simp, fun part hpart _ => List.prefix_nil.mp hpart⟩

/-- What is open cannot be closed without an event. -/
@[simp] theorem not_closes_nil : ¬ Closes (depth + 1) [] := by
  intro h
  have hlevel := h.level
  simp at hlevel

/-- How many containers are open after an event, if `depth` were before it. -/
def openAfter (depth : Nat) : EventRole → Nat
  | .opening => depth + 1
  | .closing => depth - 1
  | .leaf | .framing => depth

/-- What is open after an event is accounted for by what starts and ends with it. -/
theorem count_cons (depth : Nat) (role : EventRole) (run : List EventRole) :
    (role :: run).count .opening + (depth + 1) + run.count .closing
      = run.count .opening + openAfter (depth + 1) role + (role :: run).count .closing := by
  cases role with
  | opening =>
    rw [List.count_cons_self, List.count_cons_of_ne (by decide), openAfter]
    omega
  | closing =>
    rw [List.count_cons_self, List.count_cons_of_ne (by decide), openAfter]
    omega
  | leaf | framing =>
    rw [List.count_cons_of_ne (by decide), List.count_cons_of_ne (by decide), openAfter]

/-- After an event the rest of a run closes as many containers as are open then. -/
theorem closes_cons :
    Closes (depth + 1) (role :: run) ↔ Closes (openAfter (depth + 1) role) run := by
  have hlevel (part : List EventRole) :
      (role :: part).count .opening + (depth + 1) = (role :: part).count .closing ↔
        part.count .opening + openAfter (depth + 1) role = part.count .closing := by
    have hcount := count_cons depth role part
    omega
  constructor
  · intro hrun
    refine ⟨(hlevel run).mp hrun.level, fun part hpart hpartLevel => ?_⟩
    have hcons : role :: part = role :: run :=
      hrun.first _ ((List.prefix_cons_inj role).mpr hpart) ((hlevel part).mpr hpartLevel)
    exact (List.cons.inj hcons).2
  · intro hrun
    refine ⟨(hlevel run).mpr hrun.level, fun part hpart hpartLevel => ?_⟩
    rcases List.prefix_cons_iff.mp hpart with rfl | ⟨rest, rfl, hrest⟩
    · -- Without an event the containers that were open still are.
      simp at hpartLevel
    · rw [hrun.first rest hrest ((hlevel rest).mp hpartLevel)]

end EventRole

namespace Event

variable {e : Event} {es rest run : List Event} {d : Nat}

open EventRole (Closes)

/-- The parts that events play, in order. -/
def roles (es : List Event) : List EventRole :=
  es.map fun e => e.kind.role

/-- No events play no parts. -/
@[simp] theorem roles_nil : roles [] = [] := rfl

/-- Each event plays its part in order. -/
@[simp] theorem roles_cons : roles (e :: es) = e.kind.role :: roles es := rfl

/-- No event of the run is the frame of a document or of the stream. -/
def Unframed (run : List Event) : Prop :=
  ∀ e ∈ run, e.kind.role ≠ .framing

/-- A run without events is without frames. -/
@[simp] theorem unframed_nil : Unframed [] := by
  simp [Unframed]

/-- A run is without frames if each of its events is. -/
@[simp] theorem unframed_cons : Unframed (e :: run) ↔ e.kind.role ≠ .framing ∧ Unframed run := by
  simp [Unframed]

/-- A run of scalars, starts and ends in which as many containers end as start. -/
structure Balanced (run : List Event) : Prop where
  /-- There is an event at all. -/
  ne_nil : run ≠ []
  /-- No framing is among the events. -/
  unframed : Unframed run
  /-- As many containers end as start. -/
  level : (roles run).count .opening = (roles run).count .closing

/-- The events start with the run, it is balanced, and no shorter one that they start with is. -/
structure ShortestBalanced (run es : List Event) : Prop where
  /-- The events start with the run. -/
  begins : run <+: es
  /-- The run is balanced. -/
  balanced : Balanced run
  /-- No shorter run is. -/
  least : ∀ other, other <+: es → Balanced other → run.length ≤ other.length

/-- A run that stays inside of what is open around it: no framing is among its events, and nowhere
in it have more containers ended than started in it or were open before it, which `depth` were. -/
structure Inside (depth : Nat) (run : List Event) : Prop where
  /-- No framing is among the events. -/
  unframed : Unframed run
  /-- What is open is not closed more than once. -/
  level : ∀ part, part <+: run →
    (roles part).count .closing ≤ (roles part).count .opening + depth

/-- No event at all stays inside of what is open. -/
theorem inside_nil : Inside d [] where
  unframed := unframed_nil
  level := fun part hpart => by
    rw [List.prefix_nil.mp hpart]
    simp

/-- An event that closes nothing around what is open may come first. -/
theorem Inside.cons {d' : Nat} (h : Inside d' run) (hrole : e.kind.role ≠ .framing)
    (hlevel : ∀ part, (roles (e :: part)).count .closing + (roles part).count .opening + d'
      ≤ (roles (e :: part)).count .opening + d + (roles part).count .closing) :
    Inside d (e :: run) where
  unframed := unframed_cons.mpr ⟨hrole, h.unframed⟩
  level := fun part hpart => by
    rcases List.prefix_cons_iff.mp hpart with rfl | ⟨more, rfl, hmore⟩
    · simp
    · have hbefore := h.level more hmore
      have hafter := hlevel more
      omega

/-! ## What skipping takes -/

/-- Skipping what is open goes on behind an event with what is open then. -/
theorem skipOpen_cons (d : Nat) (h : e.kind.role ≠ .framing) :
    skipOpen (d + 1) (e :: es) = skipOpen (EventRole.openAfter (d + 1) e.kind.role) es := by
  cases hrole : e.kind.role with
  | leaf | opening | closing => simp only [skipOpen, hrole, EventRole.openAfter, Nat.add_sub_cancel]
  | framing => exact absurd hrole h

/-- While something is open, framing is an error, and it is left in the stream. -/
theorem skipOpen_cons_framing (d : Nat) (h : e.kind.role = .framing) :
    skipOpen (d + 1) (e :: es) = .error (e :: es) := by
  simp only [skipOpen, h]

/-- Skipping takes the run that closes what is open, if there is one without framing. -/
theorem skipOpen_eq_ok_iff : skipOpen d es = .ok rest ↔
    ∃ run, es = run ++ rest ∧ Unframed run ∧ Closes d (roles run) := by
  -- By induction on the events; what is still open is counted by the part of the run that is left.
  induction es generalizing d with
  | nil =>
    cases d with
    | zero =>
      rw [skipOpen_zero, Except.ok.injEq]
      constructor
      · rintro rfl
        exact ⟨[], by simp⟩
      · rintro ⟨run, hrun, -⟩
        exact (List.nil_eq_append_iff.mp hrun).2.symm
    | succ d =>
      refine ⟨fun h => by simp [skipOpen] at h, ?_⟩
      rintro ⟨run, hrun, -, hcloses⟩
      rw [(List.nil_eq_append_iff.mp hrun).1] at hcloses
      exact absurd hcloses EventRole.not_closes_nil
  | cons e es ih =>
    cases d with
    | zero =>
      rw [skipOpen_zero, Except.ok.injEq]
      constructor
      · rintro rfl
        exact ⟨[], by simp⟩
      · rintro ⟨run, hrun, -, hcloses⟩
        have hnil : run = [] := List.map_eq_nil_iff.mp (EventRole.closes_zero.mp hcloses)
        rw [hrun, hnil, List.nil_append]
    | succ d =>
      by_cases hrole : e.kind.role = .framing
      · -- Framing is at the cursor, so that a run without framing closes nothing.
        rw [skipOpen_cons_framing d hrole]
        refine ⟨fun h => by simp at h, ?_⟩
        rintro ⟨run, hrun, hunframed, hcloses⟩
        rcases List.cons_eq_append_iff.mp hrun with ⟨rfl, -⟩ | ⟨run, rfl, -⟩
        · exact absurd hcloses EventRole.not_closes_nil
        · exact absurd hrole (unframed_cons.mp hunframed).1
      · rw [skipOpen_cons d hrole, ih]
        constructor
        · rintro ⟨run, rfl, hunframed, hcloses⟩
          refine ⟨e :: run, rfl, unframed_cons.mpr ⟨hrole, hunframed⟩, ?_⟩
          exact EventRole.closes_cons.mpr hcloses
        · rintro ⟨run, hrun, hunframed, hcloses⟩
          rcases List.cons_eq_append_iff.mp hrun with ⟨rfl, -⟩ | ⟨run, rfl, hes⟩
          · exact absurd hcloses EventRole.not_closes_nil
          · exact ⟨run, hes, (unframed_cons.mp hunframed).2, EventRole.closes_cons.mp hcloses⟩

/-- Where skipping fails it has taken all up to the next framing, or to the end of the events. -/
theorem eq_dropWhile_of_skipOpen (h : skipOpen d es = .error rest) :
    rest = es.dropWhile (·.kind.role ≠ .framing) := by
  induction es generalizing d with
  | nil =>
    cases d with
    | zero => simp [skipOpen] at h
    | succ d => simpa [skipOpen] using h.symm
  | cons e es ih =>
    cases d with
    | zero => simp [skipOpen] at h
    | succ d =>
      by_cases hrole : e.kind.role = .framing
      · rw [skipOpen_cons_framing d hrole, Except.error.injEq] at h
        rw [List.dropWhile_cons_of_neg (by simpa using hrole), h]
      · rw [skipOpen_cons d hrole] at h
        rw [List.dropWhile_cons_of_pos (by simpa using hrole)]
        exact ih h

/-- What is taken stays inside of what is open, whether or not skipping fails. -/
theorem inside_of_skipOpen (h : skipOpen d es = .ok rest ∨ skipOpen d es = .error rest) :
    ∃ taken, es = taken ++ rest ∧ Inside d taken := by
  induction es generalizing d with
  | nil => exact ⟨[], by cases d <;> simpa [skipOpen] using h, inside_nil⟩
  | cons e es ih =>
    cases d with
    | zero => exact ⟨[], by simpa [skipOpen_zero] using h, inside_nil⟩
    | succ d =>
      by_cases hrole : e.kind.role = .framing
      · exact ⟨[], by simpa [skipOpen_cons_framing d hrole] using h, inside_nil⟩
      · rw [skipOpen_cons d hrole] at h
        obtain ⟨taken, rfl, hinside⟩ := ih h
        refine ⟨e :: taken, rfl, hinside.cons hrole fun part => ?_⟩
        have hcount := EventRole.count_cons d e.kind.role (roles part)
        rw [roles_cons]
        omega

/-- Skipping stays inside of what is open around the cursor, whether or not it fails. -/
theorem inside_of_skipValue (h : skipValue es = .ok rest ∨ skipValue es = .error rest) :
    ∃ taken, es = taken ++ rest ∧ Inside 0 taken := by
  cases es with
  | nil => exact ⟨[], by simpa [skipValue] using h, inside_nil⟩
  | cons e es =>
    cases hrole : e.kind.role with
    | leaf =>
      have hrest : es = rest := by simpa [skipValue_cons_leaf hrole] using h
      have hnil : Inside 0 [] := inside_nil
      refine ⟨[e], by rw [hrest]; rfl, hnil.cons (by simp [hrole]) fun part => ?_⟩
      rw [roles_cons, hrole, List.count_cons_of_ne (by decide), List.count_cons_of_ne (by decide)]
      omega
    | opening =>
      rw [skipValue_cons_opening hrole] at h
      obtain ⟨taken, rfl, hinside⟩ := inside_of_skipOpen h
      refine ⟨e :: taken, rfl, hinside.cons (by simp [hrole]) fun part => ?_⟩
      rw [roles_cons, hrole, List.count_cons_self, List.count_cons_of_ne (by decide)]
      omega
    | closing | framing => exact ⟨[], by simpa [skipValue, hrole] using h, inside_nil⟩

/-! ## Whole values -/

/-- Of the balanced runs that events start with one is the shortest. -/
theorem exists_shortestBalanced (h : ∃ run, run <+: es ∧ Balanced run) :
    ∃ run, ShortestBalanced run es := by
  obtain ⟨run, ⟨hbegins, hbalanced⟩, hleast⟩ :=
    (measure List.length).wf.has_min { run | run <+: es ∧ Balanced run } h
  refine ⟨run, hbegins, hbalanced, fun other hother hbal => ?_⟩
  exact Nat.le_of_not_lt (hleast other ⟨hother, hbal⟩)

/-- A scalar is the shortest balanced run by itself. -/
theorem shortestBalanced_leaf (h : e.kind.role = .leaf) :
    ShortestBalanced run (e :: es) ↔ run = [e] := by
  have hbegins : [e] <+: e :: es := by simp
  have hself : Balanced [e] := ⟨by simp, by simp [h], by simp [h]⟩
  constructor
  · intro hrun
    have hle : run.length ≤ [e].length := hrun.least [e] hbegins hself
    have hpos : 0 < run.length := List.length_pos_iff.mpr hrun.balanced.ne_nil
    have hpart : run <+: [e] := List.prefix_of_prefix_length_le hrun.begins hbegins hle
    exact hpart.eq_of_length_le hpos
  · rintro rfl
    exact ⟨hbegins, hself, fun other _ hother => List.length_pos_iff.mpr hother.ne_nil⟩

/-- Behind the start of a container the run is balanced where the container is closed. -/
theorem balanced_cons_opening (h : e.kind.role = .opening) :
    Balanced (e :: run) ↔
      Unframed run ∧ (roles run).count .opening + 1 = (roles run).count .closing := by
  have hframe : e.kind.role ≠ .framing := by simp [h]
  have hcount : (roles (e :: run)).count .opening = (roles (e :: run)).count .closing ↔
      (roles run).count .opening + 1 = (roles run).count .closing := by
    rw [roles_cons, h, List.count_cons_self, List.count_cons_of_ne (by decide)]
  constructor
  · intro hrun
    exact ⟨(unframed_cons.mp hrun.unframed).2, hcount.mp hrun.level⟩
  · rintro ⟨hunframed, hlevel⟩
    exact ⟨by simp, unframed_cons.mpr ⟨hframe, hunframed⟩, hcount.mpr hlevel⟩

/-- The shortest balanced run from the start of a container on goes up to the event that closes it.
-/
theorem shortestBalanced_opening (h : e.kind.role = .opening) : ShortestBalanced (e :: run) (e :: es)
    ↔ run <+: es ∧ Unframed run ∧ Closes 1 (roles run) := by
  constructor
  · intro hrun
    have hbegins : run <+: es := (List.prefix_cons_inj e).mp hrun.begins
    obtain ⟨hunframed, hlevel⟩ := (balanced_cons_opening h).mp hrun.balanced
    refine ⟨hbegins, hunframed, hlevel, fun part hpart hpartLevel => ?_⟩
    obtain ⟨other, hother, rfl⟩ := List.prefix_map_iff.mp hpart
    have hbalanced : Balanced (e :: other) := (balanced_cons_opening h).mpr
      ⟨fun d hd => hunframed d (hother.subset hd), hpartLevel⟩
    have hle : (e :: run).length ≤ (e :: other).length :=
      hrun.least _ ((List.prefix_cons_inj e).mpr (hother.trans hbegins)) hbalanced
    rw [hother.eq_of_length_le (Nat.le_of_succ_le_succ hle), roles]
  · rintro ⟨hbegins, hunframed, hcloses⟩
    refine ⟨(List.prefix_cons_inj e).mpr hbegins,
      (balanced_cons_opening h).mpr ⟨hunframed, hcloses.level⟩, fun other hother hbalanced => ?_⟩
    -- Of two runs that the events start with one is the beginning of the other.
    rcases List.prefix_cons_iff.mp hother with rfl | ⟨inner, rfl, hinner⟩
    · exact absurd rfl hbalanced.ne_nil
    · obtain ⟨-, hlevel⟩ := (balanced_cons_opening h).mp hbalanced
      rcases List.prefix_or_prefix_of_prefix hinner hbegins with hle | hle
      · have hsame : roles inner = roles run := hcloses.first _ (hle.map _) hlevel
        have hlen : inner.length = run.length := by simpa [roles] using congrArg List.length hsame
        simp [hlen]
      · exact Nat.succ_le_succ hle.length_le

variable (hhead : ∀ e ∈ es.head?, e.kind.role = .leaf ∨ e.kind.role = .opening)

include hhead

/-- Where a value may stand, skipping takes the shortest balanced run. -/
theorem skipValue_eq_ok_iff :
    skipValue es = .ok rest ↔ ∃ run, es = run ++ rest ∧ ShortestBalanced run es := by
  cases es with
  | nil =>
    refine ⟨fun h => by simp [skipValue] at h, ?_⟩
    rintro ⟨run, hrun, hshortest⟩
    exact absurd (List.nil_eq_append_iff.mp hrun).1 hshortest.balanced.ne_nil
  | cons e es =>
    rcases hhead e (by simp) with hrole | hrole
    · rw [skipValue_cons_leaf hrole, Except.ok.injEq]
      simp [shortestBalanced_leaf hrole]
    · rw [skipValue_cons_opening hrole, skipOpen_eq_ok_iff]
      constructor
      · rintro ⟨run, rfl, hrun⟩
        exact ⟨e :: run, rfl, (shortestBalanced_opening hrole).mpr ⟨List.prefix_append _ _, hrun⟩⟩
      · rintro ⟨run, hrun, hshortest⟩
        rcases List.cons_eq_append_iff.mp hrun with ⟨rfl, -⟩ | ⟨run, rfl, hes⟩
        · exact absurd rfl hshortest.balanced.ne_nil
        · exact ⟨run, hes, ((shortestBalanced_opening hrole).mp hshortest).2⟩

/-- Where a value may stand, skipping fails if no run is balanced, and then before the next framing
or at the end of the events. -/
theorem skipValue_eq_error_iff : skipValue es = .error rest ↔
    (∀ run, run <+: es → ¬ Balanced run) ∧ rest = es.dropWhile (·.kind.role ≠ .framing) := by
  have hrest {rest : List Event} (h : skipValue es = .error rest) :
      rest = es.dropWhile (·.kind.role ≠ .framing) := by
    cases es with
    | nil => simpa [skipValue] using h.symm
    | cons e es =>
      rcases hhead e (by simp) with hrole | hrole
      · simp [skipValue_cons_leaf hrole] at h
      · rw [skipValue_cons_opening hrole] at h
        rw [List.dropWhile_cons_of_pos (by simp [hrole])]
        exact eq_dropWhile_of_skipOpen h
  constructor
  · intro h
    refine ⟨fun run hbegins hbalanced => ?_, hrest h⟩
    obtain ⟨run, hshortest⟩ := exists_shortestBalanced ⟨run, hbegins, hbalanced⟩
    obtain ⟨after, rfl⟩ := hshortest.begins
    rw [(skipValue_eq_ok_iff hhead).mpr ⟨run, rfl, hshortest⟩] at h
    simp at h
  · rintro ⟨hnone, rfl⟩
    cases hskip : skipValue es with
    | ok rest =>
      obtain ⟨run, hrun, hshortest⟩ := (skipValue_eq_ok_iff hhead).mp hskip
      exact absurd hshortest.balanced (hnone run hshortest.begins)
    | error rest => rw [hrest hskip]

end Event

namespace ParseM

open Event Result

variable {setting : Setting} {s : ParseState} {es : List Event}

/-- Skipping succeeds as skipping in the stream does, and changes nothing but the events. -/
theorem skip_eq_ok_iff {u : ParseState} : skip setting s = .ok () u ↔
    ∃ rest, skipValue s.events = .ok rest ∧ u = { s with events := rest } := by
  rw [skip_eq]
  cases skipValue s.events <;> simp [eq_comm]

/-- Skipping fails as skipping in the stream does, with the one error that the events came to their
end. -/
theorem skip_eq_error_iff {e : ParseError} {u : ParseState} : skip setting s = .error e u ↔
    ∃ rest, skipValue s.events = .error rest ∧ e = .unexpectedEnd ∧
      u = { s with events := rest } := by
  rw [skip_eq]
  cases skipValue s.events <;> simp [eq_comm]

/-- Skipping stays in place before the end of a container and before framing. Elsewhere it takes the
shortest run of scalars, starts and ends in which as many containers end as start; if there is no
such run it fails, since the events end too early, before the next framing or at the end. So it
takes no framing, and no end of a container that is open around the cursor. -/
theorem skip_shortest (setting : Setting) (s : ParseState) :
    (∀ e es, s.events = e :: es → e.kind.role = .closing ∨ e.kind.role = .framing →
      skip setting s = .ok () s) ∧
    ((∀ e ∈ s.events.head?, e.kind.role = .leaf ∨ e.kind.role = .opening) →
      ((∃ u, skip setting s = .ok () u) ↔ ∃ run, run <+: s.events ∧ Balanced run) ∧
      (∀ u, skip setting s = .ok () u ↔ ∃ run rest, s.events = run ++ rest ∧
        ShortestBalanced run s.events ∧ u = { s with events := rest }) ∧
      (∀ e u, skip setting s = .error e u ↔ (∀ run, run <+: s.events → ¬ Balanced run) ∧
        e = .unexpectedEnd ∧
        u = { s with events := s.events.dropWhile (·.kind.role ≠ .framing) })) ∧
    ∃ taken, s.events = taken ++ (final (skip setting s)).events ∧ Inside 0 taken := by
  refine ⟨fun e es hs hrole => ?stays, fun hhead => ?takes, ?spares⟩
  case stays =>
    have hvalue : skipValue s.events = .ok s.events := by
      rw [hs, skipValue]
      rcases hrole with hrole | hrole <;> rw [hrole]
    exact skip_of_skipValue hvalue
  case takes =>
    have hok (u : ParseState) : skip setting s = .ok () u ↔ ∃ run rest, s.events = run ++ rest ∧
        ShortestBalanced run s.events ∧ u = { s with events := rest } := by
      simp only [skip_eq_ok_iff, skipValue_eq_ok_iff hhead]
      constructor
      · rintro ⟨rest, ⟨run, hrun, hshortest⟩, hu⟩
        exact ⟨run, rest, hrun, hshortest, hu⟩
      · rintro ⟨run, rest, hrun, hshortest, hu⟩
        exact ⟨rest, ⟨run, hrun, hshortest⟩, hu⟩
    refine ⟨⟨?_, fun hsome => ?_⟩, hok, fun e u => ?_⟩
    · rintro ⟨u, hu⟩
      obtain ⟨run, rest, -, hshortest, -⟩ := (hok u).mp hu
      exact ⟨run, hshortest.begins, hshortest.balanced⟩
    · obtain ⟨run, hshortest⟩ := exists_shortestBalanced hsome
      obtain ⟨rest, hrest⟩ := hshortest.begins
      exact ⟨_, (hok _).mpr ⟨run, rest, hrest.symm, hshortest, rfl⟩⟩
    · simp only [skip_eq_error_iff, skipValue_eq_error_iff hhead]
      constructor
      · rintro ⟨rest, ⟨hnone, rfl⟩, he, hu⟩
        exact ⟨hnone, he, hu⟩
      · rintro ⟨hnone, he, hu⟩
        exact ⟨_, ⟨hnone, rfl⟩, he, hu⟩
  case spares =>
    apply inside_of_skipValue
    rw [skip_eq]
    cases skipValue s.events with
    | ok rest => exact Or.inl rfl
    | error rest => exact Or.inr rfl

end ParseM

end InfraModule
