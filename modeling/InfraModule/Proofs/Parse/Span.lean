import InfraModule.Proofs.Event.Order
import InfraModule.Proofs.Parse.Depth
import InfraModule.Proofs.Parse.Progress
import InfraModule.Proofs.Resolve.Span

/-!
# The spans of what is read

Where the marks of the events never go back, the spans of all nodes nest. A mark goes with the
cursor: no event that is left starts before it, and what a reader makes lies between the mark at
which it starts and the mark at which it stops (`ParseM.Spans`). A container is made when its end
has been taken, so its span goes from its start, which is behind the first mark, to the last mark,
and all that was read in between lies within it. What is reported and skipped moves the mark and
makes nothing. A failure leaves events in order and spans nested, so that a session can go on.
-/

namespace InfraModule

open Result

/-! ## Marks at the cursor -/

namespace ParseState

variable {s u v : ParseState} {mark mid stop : Mark}

/-- What is left to read starts no earlier than the mark, and the spans of what has been built
nest. -/
structure Ready (s : ParseState) (mark : Mark) : Prop where
  /-- The events are in order and start no earlier. -/
  events : Event.From mark s.events
  /-- The spans nest. -/
  tree : s.build.tree.Nested

/-- From one mark on it was read up to another, and the spans still nest. -/
structure Moves (s : ParseState) (mark : Mark) (u : ParseState) (stop : Mark) : Prop where
  /-- The mark has not gone back. -/
  le : mark ≤ stop
  /-- The events that are left start no earlier. -/
  events : Event.From stop u.events
  /-- The spans nest, and those of old nodes are the same. -/
  tree : s.build.tree.Nests u.build.tree

/-- Reading has stopped somewhere, and the spans still nest. -/
structure Halts (s u : ParseState) : Prop where
  /-- The events that are left are in order. -/
  events : Event.Ordered u.events
  /-- The spans nest, and those of old nodes are the same. -/
  tree : s.build.tree.Nests u.build.tree

/-- No event that is left starts before the mark. -/
theorem Ready.from_cons {e : Event} {es : List Event} (h : s.Ready mark)
    (hs : s.events = e :: es) : Event.From mark (e :: es) :=
  hs ▸ h.events

/-- Without a move the mark stays. -/
theorem Ready.moves (h : s.Ready mark) : s.Moves mark s mark :=
  ⟨le_refl mark, h.events, .refl h.tree⟩

/-- What is ready to go on may as well stop. -/
theorem Ready.halts (h : s.Ready mark) : s.Halts s :=
  ⟨h.events.toOrdered, .refl h.tree⟩

/-- After a move, reading can go on from the new mark. -/
theorem Moves.ready (h : s.Moves mark u stop) : u.Ready stop :=
  ⟨h.events, h.tree.toNested⟩

/-- Two moves make one. -/
theorem Moves.trans (h : s.Moves mark u mid) (h' : u.Moves mid v stop) : s.Moves mark v stop :=
  ⟨h.le.trans h'.le, h'.events, h.tree.trans h'.tree⟩

/-- A move may stop where it ends. -/
theorem Moves.halts (h : s.Moves mark u stop) : s.Halts u :=
  ⟨h.events.toOrdered, h.tree⟩

/-- What stops after a move has stopped after all. -/
theorem Halts.after (h : u.Halts v) (hs : s.Moves mark u stop) : s.Halts v :=
  ⟨h.events, hs.tree.trans h.tree⟩

end ParseState

namespace ParseM

variable {α β σ : Type} {setting : Setting} {s : ParseState} {mark : Mark} {e : Event}
  {es : List Event} {container : Container}

/-- Started at a mark, the reader moves on to another, so that `P` holds of it if it succeeds. -/
def Spans (mark : Mark) (m : ParseM α) (setting : Setting) (s : ParseState)
    (P : ParseState → Mark → α → Prop) : Prop :=
  Post m setting s (fun a u => ∃ stop, s.Moves mark u stop ∧ P u stop a) fun _ u => s.Halts u

section Spans

variable {P P' : ParseState → Mark → α → Prop} {R : ParseState → Mark → β → Prop} {m : ParseM α}

/-- What holds of the mark that is moved to can be replaced by something weaker. -/
theorem Spans.mono (h : Spans mark m setting s P) (hP : ∀ u stop a, P u stop a → P' u stop a) :
    Spans mark m setting s P' :=
  Result.Post.mono h (fun _ _ ⟨stop, hu, h⟩ => ⟨stop, hu, hP _ _ _ h⟩) fun _ _ h => h

/-- To return a value moves no mark. -/
theorem Spans.pure {a : α} (hs : s.Ready mark) (hP : P s mark a) :
    Spans mark (Pure.pure a) setting s P :=
  ⟨mark, hs.moves, hP⟩

/-- Of two readers in a row the second starts at the mark that the first has reached. -/
theorem Spans.bind {f : α → ParseM β} (hm : Spans mark m setting s P)
    (hf : ∀ a u stop, s.Moves mark u stop → P u stop a → Spans stop (f a) setting u R) :
    Spans mark (m >>= f) setting s R := by
  refine Post.bind hm fun a u ⟨stop, hu, hP⟩ => ?_
  exact Result.Post.mono (hf a u stop hu hP) (fun _ _ ⟨stop', hv, hR⟩ => ⟨stop', hu.trans hv, hR⟩)
    fun _ _ hv => hv.after hu

/-- What a function makes of the result moves no mark. -/
theorem Spans.map {f : α → β} (hm : Spans mark m setting s fun u stop a => R u stop (f a)) :
    Spans mark (f <$> m) setting s R :=
  post_map.mpr hm

/-! ## Single steps -/

/-- A reader that begins by looking at the event goes on where there is one. -/
theorem spans_current {f : Event → ParseM β} (hs : s.Ready mark)
    (hf : ∀ e es, s.events = e :: es → Spans mark (f e) setting s R) :
    Spans mark (current >>= f) setting s R :=
  post_bind_current (fun _ => hs.halts) hf

/-- A reader that begins by taking note of the place goes on where there is an event. -/
theorem spans_here {f : Location → ParseM β} (hs : s.Ready mark)
    (hf : ∀ e es, s.events = e :: es → Spans mark (f (e.location setting.file)) setting s R) :
    Spans mark (here >>= f) setting s R :=
  post_bind_here (fun _ => hs.halts) hf

/-- Where the event at the cursor is known, it is the one that is looked at. -/
theorem spans_current_of_cons {f : Event → ParseM β} (h : s.events = e :: es)
    (hf : Spans mark (f e) setting s R) : Spans mark (current >>= f) setting s R :=
  post_bind.mpr ((post_current h).mpr hf)

/-- A reader that begins by taking note of the place goes on with that of a known event. -/
theorem spans_here_of_cons {f : Location → ParseM β} (h : s.events = e :: es)
    (hf : Spans mark (f (e.location setting.file)) setting s R) :
    Spans mark (here >>= f) setting s R :=
  post_bind.mpr ((post_here h).mpr hf)

/-- To look at the state moves no mark. -/
theorem spans_get {f : ParseState → ParseM β} (h : Spans mark (f s) setting s R) :
    Spans mark (get >>= f) setting s R :=
  h

/-- To look at the setting moves no mark. -/
theorem spans_read {f : Setting → ParseM β} (h : Spans mark (f setting) setting s R) :
    Spans mark (read >>= f) setting s R :=
  h

/-- To report moves no mark. -/
theorem spans_report (hs : s.Ready mark) (message : String) (l : Location) :
    Spans mark (report message l) setting s fun _ _ _ => True :=
  ⟨mark, ⟨le_refl mark, hs.events, .refl hs.tree⟩, trivial⟩

/-- Taking an event moves the mark to what the event reaches. -/
theorem spans_advance (hs : s.Ready mark) (h : s.events = e :: es)
    (he : e.kind.role ≠ .framing) :
    Spans mark advance setting s fun u stop _ => u.events = es ∧ stop = e.reach := by
  have hevents := hs.from_cons h
  obtain ⟨htail, hle⟩ := hevents.tail he
  refine ⟨e.reach, ⟨hle, ?_, .refl hs.tree⟩, ?_, rfl⟩
  · simpa [h] using htail
  · simp [h]

/-- Skipping moves the mark to the end of the value and makes nothing. -/
theorem spans_skip (hs : s.Ready mark) : Spans mark skip setting s fun _ _ _ => True := by
  unfold Spans
  rw [post_skip]
  cases hskip : Event.skipValue s.events with
  | ok es =>
    obtain ⟨stop, hle, hfrom⟩ := hs.events.skipValue hskip
    exact ⟨stop, ⟨hle, hfrom, .refl hs.tree⟩, trivial⟩
  | error es =>
    exact ⟨hs.events.toOrdered.suffix (Event.suffix_of_skipValue (Or.inr hskip)), .refl hs.tree⟩

/-- What is reported and skipped moves the mark and makes nothing. -/
theorem spans_reportSkip {a : α} (hs : s.Ready mark) (message : String) (l : Location)
    (ha : ∀ u stop, s.Moves mark u stop → P u stop a) :
    Spans mark (do report message l; skip; return a) setting s P :=
  (spans_report hs message l).bind fun _ _ _ hu _ =>
    (spans_skip hu.ready).bind fun _ v stop hv _ => .pure hv.ready (ha v stop (hu.trans hv))

/-- To refuse a value moves the mark over it and makes nothing. -/
theorem spans_refuse {P : ParseState → Mark → Option α → Prop} (hs : s.Ready mark)
    (message : String) (hP : ∀ u stop, P u stop none) : Spans mark (refuse message) setting s P :=
  spans_here hs fun e _ _ => spans_reportSkip hs message (e.location setting.file)
    fun u stop _ => hP u stop

/-- To build moves no mark, and the spans nest if the building step keeps them nested. -/
theorem spans_build {step : BuildM α} {Q : Tree → α → Prop} (hs : s.Ready mark)
    (h : Tree.Situates Build.tree step s.build Q) :
    Spans mark (build step) setting s fun u stop a => Q u.build.tree a ∧ stop = mark :=
  post_build.mpr (Result.Post.mono h
    (fun _ _ ⟨hu, hQ⟩ => ⟨mark, ⟨le_refl mark, hs.events, hu⟩, hQ, rfl⟩)
    fun _ _ hu => ⟨hs.events.toOrdered, hu⟩)

/-- A node is added over children that lie within its span. -/
theorem spans_add {n : Node} {l : Location} (hs : s.Ready mark) (hl : l.start ≤ l.stop)
    (hchildren : ∀ c ∈ n.children, s.build.tree.Lies l.start l.stop c) :
    Spans mark (add n l) setting s
      fun u stop id => u.build.tree.location? id = some l ∧ stop = mark :=
  spans_build hs (BuildM.situates_onTree (Tree.situates_add hs.tree hl hchildren))

/-- What follows the start of a container is read from there. -/
theorem spans_nested {body : ParseM α} (hs : s.Ready mark) (h : s.events = e :: es)
    (he : e.kind.role = .opening)
    (hbody : ∀ u, u.Ready e.start → Spans e.start body setting u fun v stop a =>
      P { v with depth := v.depth - 1 } stop a) : Spans mark (nested body) setting s P := by
  have hevents := hs.from_cons h
  obtain ⟨htail, hle⟩ := hevents.tail (by simp [he])
  rw [e.reach_of_opening he] at htail hle
  let u : ParseState := { s with events := s.events.tail, depth := s.depth + 1 }
  have hu : u.Ready e.start := ⟨by simpa [u, h] using htail, hs.tree⟩
  refine post_nested.mpr (Result.Post.mono (hbody u hu) ?_ fun _ _ hv => ⟨hv.events, hv.tree⟩)
  rintro a v ⟨stop, hv, hP⟩
  exact ⟨stop, ⟨hle.trans hv.le, hv.events, hv.tree⟩, hP⟩

/-! ## Containers -/

/-- A loop moves the mark as its steps do. If none gives up, it stops at the end of its
container. -/
theorem spans_foldUntilClose {step : σ → ParseM (Option σ)}
    {P : ParseState → Mark → Option σ → Prop}
    (hstep : ∀ acc u mid, s.Moves mark u mid → P u mid (some acc) →
      Spans mid (step acc) setting u P)
    (hs : s.Ready mark) {acc : σ} (hP : P s mark (some acc)) :
    Spans mark (foldUntilClose container step acc) setting s fun u stop acc =>
      P u stop acc ∧ (acc ≠ none → AtClose container u) := by
  let I (acc : Option σ) (u : ParseState) : Prop := ∃ stop, s.Moves mark u stop ∧ P u stop acc
  have hturn (acc : σ) (u : ParseState) (hacc : I (some acc) u) :
      Post (step acc) setting u I fun _ v => s.Halts v := by
    obtain ⟨mid, hu, hP⟩ := hacc
    exact Result.Post.mono (hstep acc u mid hu hP)
      (fun _ _ ⟨stop, hv, hR⟩ => ⟨stop, hu.trans hv, hR⟩) fun _ _ hv => hv.after hu
  have hstuck (acc : σ) (u : ParseState) (hacc : I (some acc) u) (_ : ParseError) : s.Halts u := by
    obtain ⟨mid, hu, -⟩ := hacc
    exact hu.halts
  exact Result.Post.mono (post_foldWithin_of_invariant hturn hstuck s.events ⟨mark, hs.moves, hP⟩)
    (fun _ _ ⟨⟨stop, hu, hP⟩, hclose⟩ => ⟨stop, hu, hP, hclose⟩) fun _ _ h => h

/-- A loop whose steps never give up comes to the end of its container. -/
theorem spans_foldUntilClose_some {step : σ → ParseM (Option σ)} {P : ParseState → Mark → σ → Prop}
    (hstep : ∀ acc u mid, s.Moves mark u mid → P u mid acc →
      Spans mid (step acc) setting u fun v stop given => ∃ acc, given = some acc ∧ P v stop acc)
    (hs : s.Ready mark) {acc : σ} (hP : P s mark acc) :
    Spans mark (foldUntilClose container step acc) setting s fun u stop given =>
      ∃ acc, given = some acc ∧ P u stop acc ∧ AtClose container u := by
  refine (spans_foldUntilClose (P := fun u stop given => ∃ acc, given = some acc ∧ P u stop acc)
    (fun acc u mid hu hacc => ?_) hs ⟨acc, rfl, hP⟩).mono fun u stop given h => ?_
  · obtain ⟨acc', hsome, hP⟩ := hacc
    exact hstep acc u mid hu (Option.some.inj hsome ▸ hP)
  · obtain ⟨⟨acc, hacc, hP⟩, hclose⟩ := h
    exact ⟨acc, hacc, hP, hclose (by simp [hacc])⟩

/-- The end of a container is taken, and with it the mark moves to where the container stops. -/
theorem spans_closeFrom (hs : s.Ready mark) (hclose : AtClose container s) (start : Location) :
    Spans mark (closeFrom start) setting s fun _ stop l =>
      l.start = start.start ∧ l.stop = stop := by
  obtain ⟨e, es, h, he⟩ := hclose
  have hrole : e.kind.role = .closing := by rw [he, role_close]
  refine spans_here_of_cons h ((spans_advance hs h (by simp [hrole])).bind
    fun _ u stop hu hstop => .pure hu.ready ?_)
  exact ⟨rfl, (hstop.2.trans (e.reach_of_closing hrole)).symm⟩

end Spans

/-! ## Readers that give something between marks -/

/-- What is between two marks is between marks that are further apart, whatever else is built. -/
def Widens (Q : Tree → Mark → Mark → α → Prop) : Prop :=
  ∀ ⦃t u start start' stop stop' a⦄, t.Nests u → start' ≤ start → stop ≤ stop' → Q t start stop a →
    Q u start' stop' a

/-- A node between two marks is between marks that are further apart. -/
theorem widens_lies : Widens Tree.Lies :=
  fun _ _ _ _ _ _ _ hu hstart hstop h => (hu.lies h).mono hstart hstop

/-- What the reader gives is between the mark where it starts and the mark where it stops. -/
def Locates (Q : Tree → Mark → Mark → α → Prop) (m : ParseM (Option α)) : Prop :=
  ∀ ⦃setting s mark⦄, s.Ready mark →
    Spans mark m setting s fun u stop given => ∀ a ∈ given, Q u.build.tree mark stop a

section Locates

variable {Q : Tree → Mark → Mark → α → Prop}

/-- To refuse a value gives nothing. -/
theorem locates_refuse (message : String) : Locates Q (refuse message) :=
  fun _ _ _ hs => spans_refuse hs message fun _ _ => by simp

/-- What is collected in a container is between the marks where that starts and where it stops. -/
theorem spans_collect {item : ParseM (Option α)} (hQ : Widens Q) (hitem : Locates Q item)
    (hs : s.Ready mark) : Spans mark (collect container item) setting s fun u stop items =>
      (∀ a ∈ items, Q u.build.tree mark stop a) ∧ AtClose container u := by
  refine (spans_foldUntilClose_some
    (P := fun u stop items => ∀ a ∈ items, Q u.build.tree mark stop a)
    (fun items u mid hu hitems => ?_) hs (by simp)).bind fun given u stop hu hgiven => ?_
  · refine (hitem hu.ready).bind fun given v stop hv hgiven => .pure hv.ready ⟨_, rfl, ?_⟩
    refine List.forall_mem_append.mpr ⟨fun a ha => ?_, fun a ha => ?_⟩
    · exact hQ hv.tree (le_refl mark) hv.le (hitems a ha)
    · exact hQ (.refl hv.tree.toNested) hu.le (le_refl stop) (hgiven a (Option.mem_toList.mp ha))
  · obtain ⟨items, rfl, hitems, hclose⟩ := hgiven
    exact .pure hu.ready ⟨hitems, hclose⟩

end Locates

end ParseM

namespace Parse

open ParseM

variable {setting : Setting} {s : ParseState} {mark : Mark} {levels : Nat} {container : Container}
  {draft : Draft} {value : ValueReader} {type : DeclarationType} {l : Location} {start : Mark}

/-! ## Uninterpreted values -/

/-- The spans of a value nest, and it lies between two marks. -/
structure RawLies (_ : Tree) (start stop : Mark) (r : RawValue) : Prop where
  /-- The spans nest. -/
  nested : r.Nested
  /-- The value's own span is between the marks. -/
  between : r.location.Between start stop

/-- An uninterpreted value between two marks is between marks that are further apart. -/
theorem widens_rawLies : Widens RawLies :=
  fun _ _ _ _ _ _ _ _ hstart hstop h => ⟨h.nested, h.between.mono hstart hstop⟩

/-- A key moves the mark over itself and makes nothing. -/
theorem spans_key (hs : s.Ready mark) : Spans mark key setting s fun _ _ _ => True := by
  refine spans_current hs fun e es h => ?_
  split
  · next text tag hkind =>
    refine spans_here hs fun _ _ _ => ?_
    exact (spans_advance hs h (by simp [hkind, EventKind.role])).bind fun _ u _ hu _ =>
      .pure hu.ready trivial
  · refine spans_here hs fun _ _ _ => (spans_report hs _ _).bind fun _ u _ hu _ => ?_
    exact (spans_skip hu.ready).bind fun _ v _ hv _ => (spans_skip hv.ready).bind
      fun _ w _ hw _ => .pure hw.ready trivial

/-- The entries of a mapping lie between the marks where that starts and where it stops. -/
theorem spans_rawEntry {value : ParseM (Option RawValue)} (hvalue : Locates RawLies value)
    {entries : List (Key × RawValue)} (hs : s.Ready mark) (hstart : start ≤ mark)
    (hentries : ∀ entry ∈ entries, RawLies s.build.tree start mark entry.2) :
    Spans mark (rawEntry value entries) setting s fun u stop given => ∃ entries,
      given = some entries ∧ ∀ entry ∈ entries, RawLies u.build.tree start stop entry.2 := by
  refine (spans_key hs).bind fun key u mid hu _ => ?_
  have hold {v : ParseState} {stop : Mark} (hv : s.Moves mark v stop) :
      ∀ entry ∈ entries, RawLies v.build.tree start stop entry.2 := fun entry hentry =>
    widens_rawLies hv.tree (le_refl start) hv.le (hentries entry hentry)
  cases key with
  | none => exact .pure hu.ready ⟨entries, rfl, hold hu⟩
  | some key =>
    refine (hvalue hu.ready).bind fun given v stop hv hgiven => ?_
    cases given with
    | none => exact .pure hv.ready ⟨entries, rfl, hold (hu.trans hv)⟩
    | some r =>
      refine .pure hv.ready ⟨_, rfl, List.forall_mem_append.mpr ⟨hold (hu.trans hv), ?_⟩⟩
      have hr := widens_rawLies (.refl hv.tree.toNested) (hstart.trans hu.le) (le_refl stop)
        (hgiven r rfl)
      simpa using hr

section Containers

variable {value : ParseM (Option RawValue)} (hvalue : Locates RawLies value) (tag : Option String)
  (hs : s.Ready mark) (hl : l.start = mark)

include hvalue hs hl

/-- A sequence goes from its start to where its end stops, around its items. -/
theorem spans_rawSequence :
    Spans mark (do
      let items ← collect .sequence value
      return some (.sequence tag (← closeFrom l) items)) setting s
        fun u stop given => ∀ r ∈ given, RawLies u.build.tree mark stop r := by
  refine (spans_collect widens_rawLies hvalue hs).bind fun items u mid hu hitems => ?_
  refine (spans_closeFrom hu.ready hitems.2 l).bind fun whole v stop hv hwhole => .pure hv.ready ?_
  obtain ⟨hstart, rfl⟩ := hwhole
  rw [hl] at hstart
  subst hstart
  have hitem : ∀ r ∈ items, RawLies v.build.tree whole.start whole.stop r := fun r hr =>
    widens_rawLies hv.tree (le_refl _) hv.le (hitems.1 r hr)
  rintro _ ⟨⟩
  exact ⟨.sequence (hu.le.trans hv.le) (fun r hr => (hitem r hr).between)
    fun r hr => (hitem r hr).nested, whole.inside_refl⟩

/-- A mapping goes from its start to where its end stops, around its values. -/
theorem spans_rawMapping :
    Spans mark (do
      let entries ← foldUntilClose .mapping (rawEntry value) []
      return some (.mapping tag (← closeFrom l) (entries.getD []))) setting s
        fun u stop given => ∀ r ∈ given, RawLies u.build.tree mark stop r := by
  refine (spans_foldUntilClose_some
    (P := fun u stop entries => ∀ entry ∈ entries, RawLies u.build.tree mark stop entry.2)
    (fun entries u mid hu => spans_rawEntry hvalue hu.ready hu.le) hs (by simp)).bind
    fun given u mid hu hgiven => ?_
  obtain ⟨entries, rfl, hentries, hclose⟩ := hgiven
  refine (spans_closeFrom hu.ready hclose l).bind fun whole v stop hv hwhole => .pure hv.ready ?_
  obtain ⟨hstart, rfl⟩ := hwhole
  rw [hl] at hstart
  subst hstart
  have hentry : ∀ entry ∈ entries, RawLies v.build.tree whole.start whole.stop entry.2 :=
    fun entry hentry => widens_rawLies hv.tree (le_refl _) hv.le (hentries entry hentry)
  rintro _ ⟨⟩
  exact ⟨.mapping (hu.le.trans hv.le) (fun entry h => (hentry entry h).between)
    fun entry h => (hentry entry h).nested, whole.inside_refl⟩

end Containers

/-- The spans of an uninterpreted value nest: it starts at its first event and stops with its
last. -/
theorem locates_rawValueWithin (levels : Nat) : Locates RawLies (rawValueWithin levels) := by
  induction levels using Nat.strongRecOn with
  | _ levels ih =>
    intro setting s mark hs
    unfold rawValueWithin
    refine spans_here hs fun e es h => spans_current_of_cons h ?_
    have hevents := hs.from_cons h
    -- What lies behind the start of the value lies behind the mark.
    have hwiden (u : ParseState) (stop : Mark) (given : Option RawValue)
        (hgiven : ∀ r ∈ given, RawLies u.build.tree e.start stop r) :
        ∀ r ∈ given, RawLies u.build.tree mark stop r := fun r hr =>
      ⟨(hgiven r hr).nested, (hgiven r hr).between.mono hevents.le_start (le_refl stop)⟩
    split
    · next text tag hkind =>
      have hrole : e.kind.role = .leaf := by rw [hkind]; rfl
      refine (spans_advance hs h (by simp [hrole])).bind fun _ u stop hu hstop => .pure hu.ready ?_
      rintro _ ⟨⟩
      exact ⟨.scalar (hevents.le_stop hrole), hevents.le_start,
        (hstop.2.trans (e.reach_of_leaf hrole)).ge⟩
    · next tag hkind =>
      cases levels with
      | zero => exact locates_refuse _ hs
      | succ levels =>
        have hitem := ih levels (Nat.lt_succ_self levels)
        refine (spans_nested hs h (by simp [hkind, EventKind.role]) fun u hu => ?_).mono hwiden
        exact (spans_rawSequence hitem tag hu rfl).mono fun _ _ _ hgiven => hgiven
    · next tag hkind =>
      cases levels with
      | zero => exact locates_refuse _ hs
      | succ levels =>
        have hitem := ih levels (Nat.lt_succ_self levels)
        refine (spans_nested hs h (by simp [hkind, EventKind.role]) fun u hu => ?_).mono hwiden
        exact (spans_rawMapping hitem tag hu rfl).mono fun _ _ _ hgiven => hgiven
    · exact locates_refuse _ hs

/-! ## Values -/

/-- A scalar gives a node between the marks around it. -/
theorem locates_scalar (message : String) (convert : String → Option Literal) :
    Locates Tree.Lies (scalar message convert) := by
  intro setting s mark hs
  refine spans_current hs fun e es h => ?_
  have hevents := hs.from_cons h
  dsimp only
  split
  · next literal hliteral =>
    have hrole : e.kind.role = .leaf := by
      split at hliteral
      · next text hkind => rw [hkind]; rfl
      · cases hliteral
    refine spans_here_of_cons h ((spans_advance hs h (by simp [hrole])).bind
      fun _ u mid hu hmid => ?_)
    refine .map ((spans_add (n := .expression (.literal literal)) (l := e.location setting.file)
      hu.ready (hevents.le_stop hrole) (by simp [Node.children, Expression.children])).mono
        fun v stop id hid => ?_)
    rintro _ ⟨⟩
    refine ⟨_, hid.1, hevents.le_start, ?_⟩
    exact (hid.2.trans (hmid.2.trans (e.reach_of_leaf hrole))).ge
  · exact locates_refuse _ hs

/-- What is given a meaning lies where it was read. -/
theorem locates_meaning {step : RawValue → BuildM (Option NodeId)}
    (hstep : ∀ r : RawValue, r.Nested → BuildM.SituatesAt r.location (step r)) :
    Locates Tree.Lies (do
      let some value ← rawValueWithin levels | return none
      build (step value)) := by
  intro setting s mark hs
  refine (locates_rawValueWithin levels hs).bind fun given u mid hu hgiven => ?_
  cases given with
  | none => exact .pure hu.ready (by simp)
  | some r =>
    obtain ⟨hnested, hbetween⟩ := hgiven r rfl
    refine (spans_build hu.ready (hstep r hnested hu.ready.tree)).mono fun v stop given hv => ?_
    exact fun id hid => ⟨r.location, hv.1 id hid, hv.2 ▸ hbetween⟩

/-- An expression gives a node between the marks around it. -/
theorem locates_expressionWithin (levels : Nat) : Locates Tree.Lies (expressionWithin levels) :=
  locates_meaning fun _ => Resolve.situatesAt_value

/-- A condition gives a node between the marks around it. -/
theorem locates_conditionWithin (levels : Nat) : Locates Tree.Lies (conditionWithin levels) :=
  locates_meaning fun _ => Resolve.situatesAt_condition

/-- Where an untagged container is read, its start is at the cursor. -/
theorem locates_plain {α : Type} {Q : Tree → Mark → Mark → α → Prop} {body : ParseM (Option α)}
    (hbody : ∀ ⦃setting s mark e es⦄, s.Ready mark → s.events = e :: es →
      e.kind.role = .opening → Spans mark body setting s fun u stop given =>
        ∀ a ∈ given, Q u.build.tree mark stop a) : Locates Q (plain container body) := by
  intro setting s mark hs
  unfold plain atPlain
  rw [bind_assoc]
  refine spans_current hs fun e es h => ?_
  rw [pure_bind]
  split
  · next hkind =>
    have hrole : e.kind.role = .opening := by
      rw [of_decide_eq_true hkind]
      exact container.starts_plainStart.role
    exact hbody hs h hrole
  · exact locates_refuse _ hs

/-- An untagged container is read from its start. -/
theorem locates_plain_here {body : Location → ParseM (Option NodeId)}
    (hbody : ∀ ⦃setting s mark e es⦄, s.Ready mark → s.events = e :: es →
      e.kind.role = .opening → mark ≤ e.start →
        Spans mark (body (e.location setting.file)) setting s fun u stop given =>
          ∀ id ∈ given, u.build.tree.Lies e.start stop id) :
    Locates Tree.Lies (plain container do let start ← here; body start) := by
  refine locates_plain fun setting s mark e es hs h hrole => ?_
  have hle := (hs.from_cons h).le_start
  refine spans_here_of_cons h ((hbody hs h hrole hle).mono fun u stop given hgiven id hid => ?_)
  exact (hgiven id hid).mono hle (le_refl stop)

/-- A sequence was read from one mark to another, and its items lie within it. -/
structure ListLies (start : Mark) (u : ParseState) (stop : Mark) (list : List NodeId × Location) :
    Prop where
  /-- The sequence starts at the first mark. -/
  start_eq : list.2.start = start
  /-- It stops at the second. -/
  stop_eq : list.2.stop = stop
  /-- The second is no earlier. -/
  le : start ≤ stop
  /-- The items lie between them. -/
  items : ∀ id ∈ list.1, u.build.tree.Lies start stop id

/-- The end of a sequence is taken behind its items. -/
theorem spans_closeList {items : List NodeId} (hs : s.Ready mark) (hl : l.start = start)
    (hle : start ≤ mark) (hclose : AtClose container s)
    (hitems : ∀ id ∈ items, s.build.tree.Lies start mark id) :
    Spans mark (do return (items, ← closeFrom l)) setting s (ListLies start) := by
  refine (spans_closeFrom hs hclose l).bind fun whole u stop hu hwhole => .pure hu.ready ?_
  exact ⟨hwhole.1.trans hl, hwhole.2, hle.trans hu.le, fun id hid =>
    widens_lies hu.tree (le_refl start) hu.le (hitems id hid)⟩

/-- A collection has the span of its sequence. -/
theorem spans_add_collection {list : List NodeId × Location} (hs : s.Ready mark)
    (h : ListLies start s mark list) :
    Spans mark (some <$> add (.collection list.1) list.2) setting s fun u stop given =>
      ∀ id ∈ given, u.build.tree.Lies start stop id := by
  obtain ⟨rfl, rfl, hle, hitems⟩ := h
  refine .map ((spans_add (n := .collection list.1) hs hle hitems).mono fun u stop id hid => ?_)
  rintro _ ⟨⟩
  exact hid.2 ▸ Tree.lies_of_location? hid.1

/-- A list of texts gives a node between the marks around it. -/
theorem locates_stringListWithin (levels : Nat) : Locates Tree.Lies (stringListWithin levels) := by
  refine locates_plain_here fun setting s mark e es hs h hrole hle => ?_
  cases levels with
  | zero => exact spans_refuse hs _ fun _ _ => by simp
  | succ levels =>
    refine (spans_nested hs h hrole (P := ListLies e.start) fun u hu => ?_).bind
      fun list u stop hu hlist => spans_add_collection hu.ready hlist
    refine (spans_collect widens_lies (locates_scalar _ _) hu).bind fun items v mid hv hitems => ?_
    exact (spans_closeList hv.ready rfl hv.le hitems.2 hitems.1).mono fun w stop list hlist =>
      ⟨hlist.start_eq, hlist.stop_eq, hlist.le, hlist.items⟩

/-! ## Entries of declarations -/

/-- What a draft has read lies between two marks. -/
def ReadLies (start : Mark) (u : ParseState) (stop : Mark) (read : Option (Option Draft)) : Prop :=
  ∀ draft, read = some (some draft) → ∀ id ∈ draft.nodes, u.build.tree.Lies start stop id

/-- What a draft has read from a mark on still lies behind it after another move. -/
theorem ReadLies.moves {u : ParseState} {stop : Mark} {read : Option (Option Draft)}
    (h : ReadLies start s mark read) (hu : s.Moves mark u stop) : ReadLies start u stop read :=
  fun draft hdraft id hid => widens_lies hu.tree (le_refl start) hu.le (h draft hdraft id hid)

section Entries

variable (hvalue : ∀ kind, Locates Tree.Lies (value kind))

include hvalue

/-- What is read for a key lies behind what was read before. -/
theorem spans_property {known : Property} (hs : s.Ready mark) (hstart : start ≤ mark)
    (hdraft : ∀ id ∈ draft.nodes, s.build.tree.Lies start mark id) :
    Spans mark (property value draft known) setting s (ReadLies start) := by
  refine (hvalue known.value hs).bind fun given u stop hu hgiven => ?_
  have hold : ∀ id ∈ draft.nodes, u.build.tree.Lies start stop id := fun id hid =>
    widens_lies hu.tree (le_refl start) hu.le (hdraft id hid)
  have hnew : ∀ id ∈ given, u.build.tree.Lies start stop id := fun id hid =>
    (hgiven id hid).mono hstart (le_refl stop)
  dsimp only
  split
  · cases given with
    | none => exact .pure hu.ready (by simp [ReadLies])
    | some id =>
      refine .pure hu.ready ?_
      rintro draft ⟨⟩ i hi
      rcases List.mem_append.mp hi with hi | hi
      · exact hnew i (Option.mem_toList.mp hi)
      · exact hold i (List.mem_append_right _ hi)
  · refine .pure hu.ready ?_
    rintro draft ⟨⟩ i hi
    rw [Draft.nodes, List.map_append, ← List.append_assoc] at hi
    rcases List.mem_append.mp hi with hi | hi
    · exact hold i hi
    · cases given with
      | none => simp at hi
      | some id => exact hnew i (by simpa [eq_comm] using hi)

/-- An entry moves the mark behind what it reads. -/
theorem spans_entry {read : Option Draft} (hs : s.Ready mark) (hstart : start ≤ mark)
    (hread : ReadLies start s mark (some read)) :
    Spans mark (entry type value read) setting s (ReadLies start) := by
  refine (spans_key hs).bind fun key u mid hu _ => ?_
  have hread₁ := hread.moves hu
  cases key with
  | none => exact .pure hu.ready hread₁
  | some key =>
    dsimp only
    split
    · exact spans_reportSkip hu.ready _ _ fun _ _ _ => by simp [ReadLies]
    · next draft hdraft =>
      -- The first key starts a draft without nodes; later keys find the draft.
      have hnodes : ∀ id ∈ draft.nodes, u.build.tree.Lies start mid id := by
        cases read with
        | some read =>
          cases hdraft
          exact hread₁ _ rfl
        | none =>
          obtain ⟨kind, -, rfl⟩ := Option.map_eq_some_iff.mp hdraft
          simp [Draft.nodes]
      have hdraftRead : ReadLies start u mid (some (some draft)) := by
        rintro draft ⟨⟩
        exact hnodes
      split
      · exact spans_reportSkip hu.ready _ _ fun _ _ hv => hdraftRead.moves hv
      · split
        · exact spans_reportSkip hu.ready _ _ fun _ _ hv => hdraftRead.moves hv
        · exact spans_property hvalue hu.ready (hstart.trans hu.le) hnodes

/-! ## One declaration -/

omit hvalue in
/-- The entries that are left are skipped up to the end of the mapping. -/
theorem spans_skipEntries (hs : s.Ready mark) :
    Spans mark skipEntries setting s fun u _ _ => AtClose .mapping u := by
  refine .map ((spans_foldUntilClose_some (P := fun _ _ _ => True) (fun _ u _ hu _ => ?_) hs
    trivial).mono fun u stop _ hgiven => ?_)
  · exact (spans_skip hu.ready).bind fun _ v _ hv _ => (spans_skip hv.ready).bind
      fun _ w _ hw _ => .pure hw.ready ⟨(), rfl, trivial⟩
  · obtain ⟨-, -, -, hclose⟩ := hgiven
    exact hclose

omit hvalue in
/-- To report missing keys moves no mark. -/
theorem spans_reportMissing (hs : s.Ready mark) (keys : List String) (l : Location) :
    Spans mark (reportMissing keys l) setting s fun _ _ _ => True := by
  unfold reportMissing
  split
  · exact .pure hs trivial
  · exact spans_report hs _ l

omit hvalue in
/-- What is bound to keys of a declaration lies within it. -/
theorem spans_bindAll {id : NodeId} {values : List (String × NodeId)} (hs : s.Ready mark)
    (hid : s.build.tree.location? id = some l)
    (hvalues : ∀ v ∈ values, s.build.tree.Lies l.start l.stop v.2) :
    Spans mark (bindAll id values) setting s fun _ _ _ => True := by
  induction values generalizing s mark with
  | nil => exact .pure hs trivial
  | cons v values ih =>
    obtain ⟨hv, hvalues⟩ := List.forall_mem_cons.mp hvalues
    have hbind : Spans mark (discard <| build (.onTree (.setProperty id v.1 (some v.2)))) setting s
        fun _ _ _ => True :=
      .map ((spans_build hs (BuildM.situates_onTree
        (Tree.situates_setProperty hs.tree (hv.within hid) v.1))).mono fun _ _ _ _ => trivial)
    exact Spans.bind hbind fun _ u mid hu _ =>
      ih hu.ready (hu.tree.keeps id l hid) fun v hv => hu.tree.lies (hvalues v hv)

omit hvalue in
/-- The version that a module is given has the span of the module. -/
theorem spans_addDefaultVersion {id : NodeId} (hs : s.Ready mark) (hl : l.start ≤ l.stop)
    (hid : s.build.tree.location? id = some l) :
    Spans mark (addDefaultVersion draft id l) setting s fun _ _ _ => True := by
  unfold addDefaultVersion
  split
  · refine spans_read ((spans_add
      (n := .expression (.literal (.string setting.options.defaultModuleVersion))) hs hl
      (by simp [Node.children, Expression.children])).bind fun version u mid hu hversion => ?_)
    refine spans_bindAll hu.ready (hu.tree.keeps id l hid) ?_
    simpa using Tree.lies_of_location? hversion.1
  · exact .pure hs trivial

omit hvalue in
/-- What was read for a declaration lies within it. -/
theorem spans_finish (hs : s.Ready mark) (hl : l.start ≤ l.stop) (hstop : l.stop ≤ mark)
    (hdraft : ∀ id ∈ draft.nodes, s.build.tree.Lies l.start l.stop id) (start : Location) :
    Spans mark (finish draft start l) setting s fun u stop given =>
      ∀ id ∈ given, u.build.tree.Lies l.start stop id := by
  refine (spans_reportMissing hs _ start).bind fun _ u mid hu _ => ?_
  split
  · exact .pure hu.ready (by simp)
  · next d hd =>
    obtain ⟨-, -, hchildren, -⟩ := Declaration.new?_eq_some hd
    have hnodes : ∀ id ∈ draft.nodes, u.build.tree.Lies l.start l.stop id :=
      fun id hid => hu.tree.lies (hdraft id hid)
    refine (spans_add (n := .declaration d) hu.ready hl fun c hc =>
      hnodes c (List.mem_append_left _ (hchildren.subset hc))).bind fun id v mid₂ hv hid => ?_
    have hvalues : ∀ value ∈ draft.values, v.build.tree.Lies l.start l.stop value.2 :=
      fun value hvalue => hv.tree.lies
        (hnodes _ (List.mem_append_right _ (List.mem_map_of_mem hvalue)))
    refine (spans_bindAll hv.ready hid.1 hvalues).bind fun _ w mid₃ hw _ => ?_
    have hid₃ := hw.tree.keeps id l hid.1
    refine (spans_addDefaultVersion hw.ready hl hid₃).bind fun _ x stop hx _ => ?_
    refine .pure hx.ready ?_
    rintro _ ⟨⟩
    have hle : l.stop ≤ stop := hstop.trans (hu.le.trans (hv.le.trans (hw.le.trans hx.le)))
    exact (Tree.lies_of_location? (hx.tree.keeps id l hid₃)).mono (le_refl l.start) hle

omit hvalue in
/-- A draft without entries has nothing that could lie anywhere. -/
theorem spans_emptyDraft (hs : s.Ready mark) (type : DeclarationType) (start : Location) :
    Spans mark (emptyDraft type start) setting s
      fun _ _ draft => ∀ d, draft = some d → d.nodes = [] := by
  unfold emptyDraft
  split
  · split
    · refine .pure hs ?_
      rintro _ ⟨⟩
      simp [Draft.nodes]
    · exact (spans_reportMissing hs _ start).bind fun _ u _ hu _ => .pure hu.ready (by simp)
  · exact (spans_report hs _ start).bind fun _ u _ hu _ => .pure hu.ready (by simp)

/-- A declaration lies between the ends of its mapping, around all that was read for it. -/
theorem spans_declarationBody (hs : s.Ready mark) (type : DeclarationType) {l : Location}
    (hl : l.start = mark) : Spans mark (declarationBody type value l) setting s
      fun u stop given => ∀ id ∈ given, u.build.tree.Lies mark stop id := by
  refine (spans_foldUntilClose (P := ReadLies mark)
    (fun read u mid hu hread => spans_entry hvalue hu.ready hu.le hread) hs
    (by simp [ReadLies])).bind fun read u mid hu hread => ?_
  cases read with
  | none =>
    refine (spans_skipEntries hu.ready).bind fun _ v mid₂ hv hclose => ?_
    obtain ⟨e, es, h, he⟩ := hclose
    exact (spans_advance hv.ready h (by simp [he, role_close])).bind fun _ w _ hw _ =>
      .pure hw.ready (by simp)
  | some read =>
    refine (spans_closeFrom hu.ready (hread.2 (by simp)) l).bind fun whole v stop hv hwhole => ?_
    have hstart : whole.start = mark := hwhole.1.trans hl
    have hforward : whole.start ≤ whole.stop := by
      rw [hstart, hwhole.2]
      exact hu.le.trans hv.le
    have hread₁ : ReadLies whole.start v whole.stop (some read) := by
      rw [hstart, hwhole.2]
      exact hread.1.moves hv
    cases read with
    | some draft =>
      exact hstart ▸ spans_finish hv.ready hforward hwhole.2.le (hread₁ draft rfl) l
    | none =>
      refine (spans_emptyDraft hv.ready type l).bind fun draft w mid₂ hw hdraft => ?_
      cases draft with
      | none => exact .pure hw.ready (by simp)
      | some draft =>
        exact hstart ▸ spans_finish hw.ready hforward (hwhole.2.le.trans hw.le)
          (by simp [hdraft draft rfl]) l

end Entries

/-! ## Lists of declarations -/

/-- To compare a name with those before it moves no mark. -/
theorem spans_uniqueName? (hs : s.Ready mark) (id : NodeId) :
    Spans mark (uniqueName? id) setting s fun _ _ _ => True := by
  have hif (c : Prop) [Decidable c] (a b : Option String) :
      Spans mark (if c then Pure.pure a else Pure.pure b) setting s fun _ _ _ => True := by
    split <;> exact .pure hs trivial
  exact hif _ _ _

/-- An element lies behind those before it, whether or not it is kept. -/
theorem spans_element {declaration : ParseM (Option NodeId)}
    (hdeclaration : Locates Tree.Lies declaration) (hs : s.Ready mark) (hstart : start ≤ mark)
    {items : Items} (hitems : ∀ id ∈ items.ids, s.build.tree.Lies start mark id) :
    Spans mark (element declaration items) setting s fun u stop given => ∃ items,
      given = some items ∧ ∀ id ∈ items.ids, u.build.tree.Lies start stop id := by
  have hold {u : ParseState} {stop : Mark} (hu : s.Moves mark u stop) :
      ∀ id ∈ items.ids, u.build.tree.Lies start stop id := fun id hid =>
    widens_lies hu.tree (le_refl start) hu.le (hitems id hid)
  refine (hdeclaration hs).bind fun given u mid hu hgiven => ?_
  cases given with
  | none => exact .pure hu.ready ⟨items, rfl, hold hu⟩
  | some id =>
    have hall {v : ParseState} {stop : Mark} (hv : u.Moves mid v stop) :
        ∀ i ∈ items.ids ++ [id], v.build.tree.Lies start stop i := by
      refine List.forall_mem_append.mpr ⟨hold (hu.trans hv), ?_⟩
      simpa using widens_lies hv.tree hstart hv.le (hgiven id rfl)
    refine (spans_uniqueName? hu.ready id).bind fun name v mid₂ hv _ => ?_
    cases name with
    | none => exact .pure hv.ready ⟨_, rfl, hall hv⟩
    | some name =>
      dsimp only
      split
      · exact spans_get ((spans_report hv.ready _ _).bind fun _ w _ hw _ =>
          .pure hw.ready ⟨items, rfl, hold (hu.trans (hv.trans hw))⟩)
      · exact .pure hv.ready ⟨_, rfl, hall hv⟩

/-- The items of a list lie between the ends of its sequence. -/
theorem spans_listBody {declaration : ParseM (Option NodeId)}
    (hdeclaration : Locates Tree.Lies declaration) (hs : s.Ready mark) {l : Location}
    (hl : l.start = mark) : Spans mark (listBody declaration l) setting s (ListLies mark) := by
  refine (spans_foldUntilClose_some
    (P := fun u stop items => ∀ id ∈ items.ids, u.build.tree.Lies mark stop id)
    (fun items u mid hu => spans_element hdeclaration hu.ready hu.le) hs
    (by simp)).bind fun given u mid hu hgiven => ?_
  obtain ⟨items, rfl, hitems, hclose⟩ := hgiven
  exact spans_closeList hu.ready hl hu.le hclose hitems

/-! ## All shapes -/

/-- Whatever the shape, a value lies where it is read. -/
theorem locates_valueWithin (levels : Nat) (kind : ValueKind) :
    Locates Tree.Lies (valueWithin levels kind) := by
  -- By induction on the levels; a declaration and a list of declarations take one each.
  induction levels using Nat.strongRecOn generalizing kind with
  | _ levels ih =>
    cases kind with
    | string | int | bool =>
      unfold valueWithin
      exact locates_scalar _ _
    | expression =>
      unfold valueWithin
      exact locates_expressionWithin levels
    | condition =>
      unfold valueWithin
      exact locates_conditionWithin levels
    | object | list =>
      unfold valueWithin
      exact locates_plain fun _ _ _ _ _ hs _ _ => locates_expressionWithin levels hs
    | stringList =>
      unfold valueWithin
      exact locates_stringListWithin levels
    | declaration type =>
      unfold valueWithin
      refine locates_plain_here fun setting s mark e es hs h hrole hle => ?_
      cases levels with
      | zero => exact spans_refuse hs _ fun _ _ => by simp
      | succ levels =>
        exact spans_nested hs h hrole fun u hu =>
          spans_declarationBody (ih levels (Nat.lt_succ_self levels)) hu type rfl
    | declarationList type =>
      unfold valueWithin
      refine locates_plain_here fun setting s mark e es hs h hrole hle => ?_
      cases levels with
      | zero => exact spans_refuse hs _ fun _ _ => by simp
      | succ levels =>
        refine (spans_nested hs h hrole (P := ListLies e.start) fun u hu => ?_).bind
          fun list u stop hu hlist => spans_add_collection hu.ready hlist
        have hitems := ih levels (Nat.lt_succ_self levels) (.declaration type)
        exact (spans_listBody hitems hu rfl).mono fun v stop list hlist =>
          ⟨hlist.start_eq, hlist.stop_eq, hlist.le, hlist.items⟩

/-! ## Sessions -/

/-- Readers of the frame of a document build nothing. -/
theorem halts_of_spares {α : Type} {m : ParseM α} (hm : Spares m) (hr : Recedes m)
    (hevents : Event.Ordered s.events) (htree : s.build.tree.Nested) :
    Ends m setting s s.Halts := by
  have hhalts {u : ParseState} (htree' : u.build.tree = s.build.tree)
      (hu : s.Consumes 0 u) : s.Halts u := by
    refine ⟨hevents.suffix hu.suffix, ?_⟩
    rw [htree']
    exact .refl htree
  exact Result.Post.mono (Result.Post.and (hm setting s) (hr setting s))
    (fun _ _ h => hhalts h.1 h.2) fun _ _ h => hhalts h.1.1 h.2

/-- Wherever events in order start, a reader of values leaves them in order. -/
theorem halts_of_locates {α : Type} {Q : Tree → Mark → Mark → α → Prop} {m : ParseM (Option α)}
    (hm : Locates Q m) (hevents : Event.Ordered s.events) (htree : s.build.tree.Nested) :
    Ends m setting s s.Halts := by
  obtain ⟨mark, hfrom⟩ := hevents.exists_from
  exact Result.Post.mono (hm ⟨hfrom, htree⟩) (fun _ _ ⟨_, hu, _⟩ => hu.halts) fun _ _ hu => hu

/-- Whether or not a request fails, the events that it leaves are in order and the spans nest. -/
theorem Request.halts (request : Request) (hevents : Event.Ordered s.events)
    (htree : s.build.tree.Nested) : Ends request.perform setting s s.Halts := by
  have hvalue {α : Type} {Q : Tree → Mark → Mark → α → Prop} {m : ParseM (Option α)}
      (hm : Locates Q m) : Ends (given m) setting s s.Halts :=
    ParseM.post_map.mpr (halts_of_locates hm hevents htree)
  have hlevels {α : Type} {Q : Tree → Mark → Mark → α → Prop} {m : Nat → ParseM (Option α)}
      (hm : ∀ levels, Locates Q (m levels)) : Locates Q (ParseM.levels >>= m) :=
    fun _ _ _ hs => hm _ hs
  have hvalueOf (kind : ValueKind) : Locates Tree.Lies (Parse.valueOf kind) :=
    hlevels fun levels => locates_valueWithin levels kind
  have hframe {m : ParseM Unit} (hm : Spares m) (hr : Recedes m) :
      Ends (some <$> m) setting s s.Halts :=
    ParseM.post_map.mpr (halts_of_spares hm hr hevents htree)
  cases request with
  | start =>
    exact hframe spares_start ((Recedes.expect _).bind fun _ => Recedes.expect _)
  | declaration type => exact hvalue (hvalueOf (.declaration type))
  | declarationList type => exact hvalue (hvalueOf (.declarationList type))
  | valueOf kind => exact hvalue (hvalueOf kind)
  | expression => exact hvalue (hlevels locates_expressionWithin)
  | condition => exact hvalue (hlevels locates_conditionWithin)
  | string | int | bool => exact hvalue (locates_scalar _ _)
  | stringList => exact hvalue (hlevels locates_stringListWithin)
  | rawValue => exact hvalue (hlevels locates_rawValueWithin)
  | key =>
    obtain ⟨mark, hfrom⟩ := hevents.exists_from
    exact ParseM.post_map.mpr (Result.Post.mono (spans_key ⟨hfrom, htree⟩)
      (fun _ _ ⟨_, hu, _⟩ => hu.halts) fun _ _ hu => hu)
  | finishDocument =>
    exact hframe spares_finishDocument ((Recedes.expect _).bind fun _ => Recedes.expect _)

/-- After any requests the spans nest, those included of what was dropped. -/
theorem nested_after (requests : List Request) (hevents : Event.Ordered s.events)
    (htree : s.build.tree.Nested) : (after setting requests s).build.tree.Nested := by
  induction requests generalizing s with
  | nil => exact htree
  | cons request requests ih =>
    have hfirst : s.Halts (final (request.perform setting s)) :=
      post_final.mp (request.halts hevents htree)
    exact ih hfirst.events hfirst.tree.toNested

end Parse

/-! ## Documents -/

namespace Tree

variable {t u : Tree}

/-- In a tree without nodes the spans nest. -/
theorem nested_empty : Nested {} where
  sound := sound_empty
  forward := fun x _ hl => (Nat.not_lt_zero x (lt_size_of_location? hl)).elim
  inside := fun p _ houter => (Nat.not_lt_zero p (lt_size_of_location? houter)).elim

/-- Binding references moves no node. -/
theorem Nested.sameButTargets (h : t.Nested) (hu : u.Sound) (htu : t.SameButTargets u) :
    u.Nested where
  sound := hu
  forward := fun x l hl => h.forward x l (htu.location ▸ hl)
  inside := by
    intro p outer houter c hc
    rw [htu.location] at houter
    rw [Lies, htu.location]
    exact h.inside p outer houter c (h.sound.owner.mpr (htu.parent ▸ hu.owner.mp hc))

/-- Each node lies within its owner, and no span stops before it starts. -/
structure SpansNest (t : Tree) : Prop where
  /-- A node starts no earlier than its owner and stops no later. -/
  inside : ∀ c p, t.parent? c = some p →
    ∃ l outer, t.location? c = some l ∧ t.location? p = some outer ∧ l.Inside outer
  /-- A node stops no earlier than it starts. -/
  forward : ∀ x l, t.location? x = some l → l.start ≤ l.stop

/-- Where spans nest from owner to owner, each node lies within its owner. -/
theorem Nested.spansNest (h : t.Nested) : t.SpansNest :=
  ⟨fun _ _ hp => h.inside_of_parent? hp, h.forward⟩

end Tree

namespace Document

variable {setting : Setting} {events : List Event} {d : Document}

/-- The spans of a document nest. -/
theorem nested (hevents : Event.Ordered events) (hd : ofEvents setting events = .ok d) :
    d.tree.Nested := by
  obtain ⟨u, unresolved, hread, hlink⟩ := exists_of_ofEvents hd
  have hnested : ParseM.Post readModule setting { events } (fun _ u => u.build.tree.Nested)
      fun _ _ => True := by
    refine .bind (Result.Post.mono (Parse.halts_of_spares Parse.spares_start
      ((ParseM.Recedes.expect _).bind fun _ => ParseM.Recedes.expect _) hevents Tree.nested_empty)
      (fun _ _ h => h) fun _ _ _ => trivial) fun _ s hs => ?_
    refine .bind (Result.Post.mono (Parse.halts_of_locates
      (m := Parse.declaration (.concrete .module))
      (fun _ _ _ hs => Parse.locates_valueWithin _ _ hs) hs.events hs.tree.toNested)
      (fun _ _ h => h) fun _ _ _ => trivial) fun root u hu => ?_
    exact Result.Post.mono ((Parse.spares_finishDocument.bind fun _ => .pure root) setting u)
      (fun _ _ hv => hv ▸ hu.tree.toNested) fun _ _ _ => trivial
  have hu := hnested.of_ok hread
  obtain ⟨hsame, hsound⟩ := sameButTargets_of_link hu.sound hlink
  exact hu.sameButTargets hsound hsame

end Document

namespace Parse

/-- Spans nest. Of events whose marks never go back, every session builds a tree in which each node
lies within its owner and no span stops before it starts, whether its requests succeed or fail and
however much was dropped. So does every document. -/
theorem spans_nest (setting : Setting) :
    (∀ events requests, Event.Ordered events →
      (after setting requests { events }).build.tree.SpansNest) ∧
    (∀ events d, Event.Ordered events → Document.ofEvents setting events = .ok d →
      d.tree.SpansNest) :=
  ⟨fun _ requests hevents => (nested_after requests hevents Tree.nested_empty).spansNest,
    fun _ _ hevents hd => (Document.nested hevents hd).spansNest⟩

/-- The keyword of a module lies within it, and so does the version that it is given, which has the
module's own span. -/
theorem spans_nest_module :
    let events : List Event := [⟨.mappingStart none, ⟨1, 1⟩, ⟨2, 1⟩⟩,
      ⟨.scalar "Module" none, ⟨1, 1⟩, ⟨1, 7⟩⟩, ⟨.scalar "m" none, ⟨1, 9⟩, ⟨1, 10⟩⟩,
      ⟨.mappingEnd, ⟨2, 1⟩, ⟨2, 1⟩⟩]
    let t := (after ⟨"m.yml", {}⟩ [.declaration (.concrete .module)] { events }).build.tree
    Event.Ordered events ∧ t.SpansNest ∧ t.parent? 0 = some 1 ∧ t.parent? 2 = some 1 ∧
      t.location? 0 = some ⟨"m.yml", ⟨1, 9⟩, ⟨1, 10⟩⟩ ∧
      t.location? 1 = some ⟨"m.yml", ⟨1, 1⟩, ⟨2, 1⟩⟩ ∧ t.location? 2 = t.location? 1 := by
  intro events t
  have hevents : Event.Ordered events := ⟨by decide, by decide⟩
  refine ⟨hevents, (spans_nest ⟨"m.yml", {}⟩).1 events _ hevents, ?_⟩
  decide +kernel

end Parse

end InfraModule
