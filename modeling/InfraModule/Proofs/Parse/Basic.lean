import InfraModule.Parse.Basic
import InfraModule.Proofs.Result

/-!
# Conditions on what readers do

What a reader does is said by a condition on its result (`Post`): what holds when it succeeds and
what holds when it fails. The condition on a compound reader is reduced to conditions on its parts,
down to the event at the cursor. For the loop over a container an invariant is given
(`post_foldUntilClose`); that each turn takes an event makes sure that the turns last.
-/

namespace InfraModule.ParseM

open Result

variable {α β : Type} {setting : Setting} {s : ParseState} {e : Event} {es : List Event}
  {container : Container}

/-- What is to hold of the result of a reader: `Q` if it succeeds, and `E` if it fails. -/
abbrev Post (m : ParseM α) (setting : Setting) (s : ParseState) (Q : α → ParseState → Prop)
    (E : ParseError → ParseState → Prop) : Prop :=
  Result.Post (m setting) s Q E

section Rules

variable {m : ParseM α} {f : α → ParseM β} {Q : α → ParseState → Prop} {R : β → ParseState → Prop}
  {E : ParseError → ParseState → Prop}

/-- Of two readers in a row, the condition on the second is what the first has to reach. -/
theorem post_bind : Post (m >>= f) setting s R E ↔
    Post m setting s (fun a u => Post (f a) setting u R E) E :=
  Result.post_bind

/-- A condition on failures can be replaced by a weaker one. -/
theorem Post.mono_error {E' : ParseError → ParseState → Prop} (h : Post m setting s Q E)
    (hE : ∀ e u, E e u → E' e u) : Post m setting s Q E' :=
  h.mono (fun _ _ h => h) hE

/-- Two readers in a row, with a condition on the state between them. -/
theorem Post.bind (h : Post m setting s Q E) (hf : ∀ a u, Q a u → Post (f a) setting u R E) :
    Post (m >>= f) setting s R E :=
  post_bind.mpr (h.mono hf fun _ _ h => h)

/-- What a function makes of a result is asked for of the function's value. -/
theorem post_map {g : α → β} :
    Post (g <$> m) setting s R E ↔ Post m setting s (fun a u => R (g a) u) E :=
  Result.post_map

/-- To return a value changes nothing. -/
@[simp] theorem post_pure {a : α} : Post (pure a) setting s Q E ↔ Q a s := Iff.rfl

/-- To throw an error fails with it and changes nothing. -/
@[simp] theorem post_throw {e : ParseError} :
    Post (throw e : ParseM α) setting s Q E ↔ E e s := Iff.rfl

/-- To look at the state gives it and changes nothing. -/
@[simp] theorem post_get {Q : ParseState → ParseState → Prop} :
    Post get setting s Q E ↔ Q s s := Iff.rfl

/-- To look at the setting gives it and changes nothing. -/
@[simp] theorem post_read {Q : Setting → ParseState → Prop} :
    Post read setting s Q E ↔ Q setting s := Iff.rfl

/-- What is set is the state afterwards. -/
@[simp] theorem post_set {t : ParseState} {Q : PUnit → ParseState → Prop} :
    Post (set t) setting s Q E ↔ Q ⟨⟩ t := Iff.rfl

/-- A modification is made of the state before. -/
@[simp] theorem post_modify {g : ParseState → ParseState} {Q : PUnit → ParseState → Prop} :
    Post (modify g) setting s Q E ↔ Q ⟨⟩ (g s) := Iff.rfl

/-! ## Single steps -/

/-- A step of building is judged by what it does to the tree and the diagnostics; the cursor
stays. -/
theorem post_build {step : BuildM α} : Post (build step) setting s Q E ↔
    Result.Post step s.build (fun a b => Q a { s with build := b })
      (fun e b => E (.tree e) { s with build := b }) := by
  obtain ⟨events, b, depth⟩ := s
  unfold Post Result.Post build
  dsimp only
  cases step b <;> rfl

/-- A report is recorded as an error, and the cursor stays. -/
@[simp] theorem post_report {message : String} {l : Location} {Q : Unit → ParseState → Prop} :
    Post (report message l) setting s Q E ↔
      Q () { s with build.diagnostics := s.build.diagnostics.error message l } := Iff.rfl

/-- The event at the cursor is looked at and not taken. -/
theorem post_current {Q : Event → ParseState → Prop} (h : s.events = e :: es) :
    Post current setting s Q E ↔ Q e s := by
  unfold current
  rw [post_bind, post_get, h]
  rfl

/-- Without events there is nothing to look at. -/
theorem post_current_of_nil {Q : Event → ParseState → Prop} (h : s.events = []) :
    Post current setting s Q E ↔ E .unexpectedEnd s := by
  unfold current
  rw [post_bind, post_get, h]
  rfl

/-- The place of the cursor is that of the event at it. -/
theorem post_here {Q : Location → ParseState → Prop} (h : s.events = e :: es) :
    Post here setting s Q E ↔ Q (e.location setting.file) s := by
  unfold here
  rw [post_bind, post_current h]
  rfl

/-- Without events there is no place to tell. -/
theorem post_here_of_nil {Q : Location → ParseState → Prop} (h : s.events = []) :
    Post here setting s Q E ↔ E .unexpectedEnd s := by
  unfold here
  rw [post_bind, post_current_of_nil h]

/-- A reader that looks at the event at the cursor fails if there is none. -/
theorem post_bind_current {f : Event → ParseM β} (hnil : s.events = [] → E .unexpectedEnd s)
    (hcons : ∀ e es, s.events = e :: es → Post (f e) setting s R E) :
    Post (current >>= f) setting s R E := by
  rw [post_bind]
  cases hs : s.events with
  | nil => exact (post_current_of_nil hs).mpr (hnil hs)
  | cons e es => exact (post_current hs).mpr (hcons e es hs)

/-- A reader that begins by taking note of the place fails at the end of the events and otherwise
goes on with the place of the event at the cursor. -/
theorem post_bind_here {f : Location → ParseM β} (hnil : s.events = [] → E .unexpectedEnd s)
    (hcons : ∀ e es, s.events = e :: es → Post (f (e.location setting.file)) setting s R E) :
    Post (here >>= f) setting s R E := by
  rw [post_bind]
  cases hs : s.events with
  | nil => exact (post_here_of_nil hs).mpr (hnil hs)
  | cons e es => exact (post_here hs).mpr (hcons e es hs)

/-- To advance takes the event at the cursor, if there is one. -/
@[simp] theorem post_advance {Q : Unit → ParseState → Prop} :
    Post advance setting s Q E ↔ Q () { s with events := s.events.tail } := Iff.rfl

/-- Skipping leaves the events that follow the value, or reports their end. -/
theorem post_skip {Q : Unit → ParseState → Prop} : Post skip setting s Q E ↔
    match Event.skipValue s.events with
    | .ok es => Q () { s with events := es }
    | .error es => E .unexpectedEnd { s with events := es } := by
  unfold skip
  rw [post_bind, post_get]
  cases Event.skipValue s.events <;> rfl

/-- What skipping does to the state is told by what it does to the events. -/
theorem skip_eq (setting : Setting) (s : ParseState) : skip setting s =
    match Event.skipValue s.events with
    | .ok es => .ok () { s with events := es }
    | .error es => .error .unexpectedEnd { s with events := es } := by
  have hstate : skip setting s = (match Event.skipValue s.events with
      | .ok events => set { s with events }
      | .error events => do
        set { s with events }
        throw .unexpectedEnd : ParseM Unit) setting s := rfl
  rw [hstate]
  cases Event.skipValue s.events <;> rfl

/-- Where a value can be skipped, skipping leaves what follows it. -/
theorem skip_of_skipValue (h : Event.skipValue s.events = .ok es) :
    skip setting s = .ok () { s with events := es } := by
  rw [skip_eq, h]

/-- The levels that are left are those of the options without those that are open. -/
@[simp] theorem post_levels {Q : Nat → ParseState → Prop} :
    Post levels setting s Q E ↔ Q (setting.options.maxDepth - s.depth) s := Iff.rfl

/-- A nested reader starts after the event at the cursor and one level deeper, and comes back to the
depth of before. -/
theorem post_nested {body : ParseM α} : Post (nested body) setting s Q E ↔
    Post body setting { s with events := s.events.tail, depth := s.depth + 1 }
      (fun a u => Q a { u with depth := u.depth - 1 }) E := by
  unfold nested
  rw [post_bind, post_modify, post_bind, post_advance, post_bind]
  rfl

end Rules

/-! ## Containers -/

/-- The end of a container is at the cursor. -/
def AtClose (container : Container) (s : ParseState) : Prop :=
  ∃ e es, s.events = e :: es ∧ e.kind = container.close

/-- A scalar or the start of a container is at the cursor. -/
def AtValue (s : ParseState) : Prop :=
  ∃ e es, s.events = e :: es ∧ (e.kind.role = .leaf ∨ e.kind.role = .opening)

/-- What ends a container plays the part of an end. -/
theorem role_close (container : Container) : container.close.role = .closing := by
  cases container <;> rfl

/-- Whether the container ends here is answered at its end and at a value; anywhere else the
question fails, and then the tree is not at fault. -/
theorem post_atClose {Q : Bool → ParseState → Prop} {E : ParseError → ParseState → Prop}
    (hclose : AtClose container s → Q true s) (hvalue : AtValue s → Q false s)
    (hstuck : ¬ AtClose container s → ¬ AtValue s → ∀ e, (∀ te, e ≠ .tree te) →
      (s.events = [] → e = .unexpectedEnd) → E e s) :
    Post (atClose container) setting s Q E := by
  unfold atClose
  rw [post_bind]
  cases hevents : s.events with
  | nil =>
    rw [post_current_of_nil hevents]
    refine hstuck ?_ ?_ _ (fun te => by simp) fun _ => rfl
    · rintro ⟨e, es, h, -⟩
      simp [hevents] at h
    · rintro ⟨e, es, h, -⟩
      simp [hevents] at h
  | cons e es =>
    rw [post_current hevents]
    have hhead (d : Event) (ds : List Event) (h : s.events = d :: ds) : d = e := by
      rw [hevents, List.cons.injEq] at h
      exact h.1.symm
    have hnotClose (hrole : e.kind.role ≠ .closing) : ¬ AtClose container s := by
      rintro ⟨d, ds, h, hd⟩
      rw [hhead d ds h] at hd
      exact hrole (hd ▸ role_close container)
    have hnotValue (hleaf : e.kind.role ≠ .leaf) (hopening : e.kind.role ≠ .opening) :
        ¬ AtValue s := by
      rintro ⟨d, ds, h, hd⟩
      rw [hhead d ds h] at hd
      exact hd.elim hleaf hopening
    -- The part that the event plays decides which of the conditions is asked for.
    cases hrole : e.kind.role with
    | leaf => exact hvalue ⟨e, es, hevents, Or.inl hrole⟩
    | opening => exact hvalue ⟨e, es, hevents, Or.inr hrole⟩
    | framing =>
      refine hstuck (hnotClose ?_) (hnotValue ?_ ?_) _ (fun te => by simp) fun _ => rfl
      all_goals simp [hrole]
    | closing =>
      dsimp only
      by_cases hkind : e.kind = container.close
      · rw [if_pos hkind]
        exact hclose ⟨e, es, hevents, hkind⟩
      · rw [if_neg hkind]
        refine hstuck ?_ (hnotValue ?_ ?_) _ (fun te => by simp) fun hnil => ?_
        · rintro ⟨d, ds, h, hd⟩
          exact hkind (hhead d ds h ▸ hd)
        · simp [hrole]
        · simp [hrole]
        · simp [hevents] at hnil

section Fold

variable {σ : Type} {step : σ → ParseM (Option σ)} {I : σ → ParseState → Prop}
  {G : ParseState → Prop} {E : ParseError → ParseState → Prop}
  (hstep : ∀ acc s, I acc s → AtValue s → Post (step acc) setting s
    (fun r u => (∃ acc', r = some acc' ∧ I acc' u ∧ u.events.length < s.events.length) ∨
      (r = none ∧ G u)) E)
  (hstuck : ∀ acc s, I acc s → ¬ AtClose container s → ¬ AtValue s →
    ∀ e, (∀ te, e ≠ .tree te) → (s.events = [] → e = .unexpectedEnd) → E e s)

include hstep hstuck

/-- With at least as many turns as events, the loop keeps its invariant up to the end of the
container, or stops where a turn asked it to. -/
theorem post_foldWithin {acc : σ} (turns : List Event) (hI : I acc s)
    (hturns : s.events.length ≤ turns.length) :
    Post (foldWithin container step turns acc) setting s
      (fun r u => (∃ acc', r = some acc' ∧ I acc' u ∧ AtClose container u) ∨ (r = none ∧ G u))
      E := by
  induction turns generalizing acc s with
  | nil =>
    -- The turns are used up, so the events are.
    have hnil : s.events = [] := List.eq_nil_of_length_eq_zero (Nat.le_zero.mp hturns)
    refine hstuck acc s hI ?_ ?_ _ (fun te => by simp) fun _ => rfl
    · rintro ⟨e, es, h, -⟩
      simp [hnil] at h
    · rintro ⟨e, es, h, -⟩
      simp [hnil] at h
  | cons turn turns ih =>
    unfold foldWithin
    rw [post_bind]
    refine post_atClose (fun hclose => ?_) (fun hvalue => ?_) (hstuck acc s hI)
    · exact Or.inl ⟨acc, rfl, hI, hclose⟩
    · simp only [Bool.false_eq_true, if_false, post_bind]
      refine (hstep acc s hI hvalue).mono (fun r u h => ?_) (fun e u h => h)
      -- A step that goes on has taken an event, so there is still a turn for each that is left.
      rcases h with ⟨acc', rfl, hI', hlt⟩ | ⟨rfl, hG⟩
      · refine ih hI' ?_
        rw [List.length_cons] at hturns
        omega
      · exact Or.inr ⟨rfl, hG⟩

/-- A loop over a container keeps an invariant of its steps, and stops at the end of the container
or when a step gives up. -/
theorem post_foldUntilClose (acc : σ) (hI : I acc s) :
    Post (foldUntilClose container step acc) setting s
      (fun r u => (∃ acc', r = some acc' ∧ I acc' u ∧ AtClose container u) ∨ (r = none ∧ G u))
      E :=
  post_foldWithin hstep hstuck s.events hI (Nat.le_refl _)

end Fold

/-- What is read of a container reaches from its start to the event at the cursor, which is
taken. -/
theorem post_closeFrom {start : Location} {Q : Location → ParseState → Prop}
    {E : ParseError → ParseState → Prop} (h : s.events = e :: es) :
    Post (closeFrom start) setting s Q E ↔
      Q (start.through (e.location setting.file)) { s with events := es } := by
  unfold closeFrom
  rw [post_bind, post_here h, post_bind, post_advance, h]
  rfl

end InfraModule.ParseM
