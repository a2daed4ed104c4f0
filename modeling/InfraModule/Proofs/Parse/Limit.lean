import InfraModule.Proofs.Parse.Session
import InfraModule.Proofs.Resolve.Telling

/-!
# Raising the limit on nesting

The limit on nesting decides how many levels readers may still open, and nothing else. A reader that
is out of levels reports so (`Build.Exceeds`) and takes nothing back later, so that a run which has
not reported it was never out of levels. Such a run is the same under any higher limit
(`ParseM.Conservative`): it gives the same answer or fails alike, and leaves the same state.

Two readers are compared, the second with a higher limit and as many levels as the first or more
(`ParseM.Deepens`). The comparison is kept by all ways to put readers together, since of two parts
in a row neither has been out of levels if both together have not.
-/

namespace InfraModule

open Result

/-- The same setting with another limit on nesting. -/
def Setting.withMaxDepth (setting : Setting) (limit : Nat) : Setting :=
  { setting with options := { setting.options with maxDepth := limit } }

namespace Build

variable {b b₁ b₂ : Build} {mistakes : List Diagnostic}

/-- In between it was reported that something was nested too deep. -/
def Exceeds (b b' : Build) : Prop :=
  ∃ mistakes, b.Told mistakes b' ∧
    ∃ d ∈ mistakes, d.message = "maximum nesting depth exceeded"

/-- What was reported once stays reported. -/
theorem Exceeds.told (h : b.Exceeds b₁) (htold : b₁.Told mistakes b₂) : b.Exceeds b₂ := by
  obtain ⟨earlier, hearlier, d, hd, hmessage⟩ := h
  exact ⟨earlier ++ mistakes, hearlier.trans htold, d, List.mem_append_left _ hd, hmessage⟩

/-- What is reported after some mistakes were told is reported after what came before them. -/
theorem Told.exceeds (htold : b.Told mistakes b₁) (h : b₁.Exceeds b₂) : b.Exceeds b₂ := by
  obtain ⟨later, hlater, d, hd, hmessage⟩ := h
  exact ⟨mistakes ++ later, htold.trans hlater, d, List.mem_append_right _ hd, hmessage⟩

end Build

namespace ParseM

variable {α β σ : Type} {setting : Setting} {limit : Nat} {s : ParseState} {e : Event}
  {es : List Event} {container : Container}

/-- From a state on the first reader only adds to what was told. Unless it exceeds the limit on
nesting, the second does the same under a higher limit. -/
structure DeepensAt (setting : Setting) (limit : Nat) (s : ParseState) (m m' : ParseM α) :
    Prop where
  /-- Nothing that was told is taken back. -/
  tells : ∃ mistakes, s.build.Told mistakes (final (m setting s)).build
  /-- The run is the same. -/
  same : ¬ s.build.Exceeds (final (m setting s)).build →
    m' (setting.withMaxDepth limit) s = m setting s

/-- From any state on the second reader does the same as the first under any higher limit, unless
the first exceeds the lower one. -/
def Deepens (m m' : ParseM α) : Prop :=
  ∀ setting limit s, setting.options.maxDepth ≤ limit → DeepensAt setting limit s m m'

/-- Unless the reader exceeds the limit on nesting, it does the same under any higher limit: it
gives the same answer or fails with the same error, and leaves the same events, nodes, diagnostics
and depth. -/
def Conservative (m : ParseM α) : Prop :=
  ∀ setting limit s, setting.options.maxDepth ≤ limit →
    ¬ s.build.Exceeds (final (m setting s)).build →
      m (setting.withMaxDepth limit) s = m setting s

/-- A reader that does the same as itself under a higher limit is conservative. -/
theorem Deepens.conservative {m : ParseM α} (h : Deepens m m) : Conservative m :=
  fun setting limit s hlimit => (h setting limit s hlimit).same

/-! ## Combining readers -/

/-- A reader that does not look at the limit. -/
theorem DeepensAt.of_told {m m' : ParseM α} {mistakes : List Diagnostic}
    (htold : s.build.Told mistakes (final (m setting s)).build)
    (hsame : m' (setting.withMaxDepth limit) s = m setting s) : DeepensAt setting limit s m m' :=
  ⟨⟨mistakes, htold⟩, fun _ => hsame⟩

/-- Two readers in a row do the same if each does from where it starts, since neither has been out
of levels if both together have not. -/
theorem DeepensAt.bind {m m' : ParseM α} {k k' : α → ParseM β}
    (hm : DeepensAt setting limit s m m')
    (hk : ∀ a d, m setting s = .ok a d → DeepensAt setting limit d (k a) (k' a)) :
    DeepensAt setting limit s (m >>= k) (m' >>= k') := by
  have hbind (m : ParseM α) (k : α → ParseM β) (setting : Setting) :
      (m >>= k) setting s = (m setting >>= fun a => k a setting) s := rfl
  obtain ⟨⟨mistakes, htold⟩, hsame⟩ := hm
  cases hms : m setting s with
  | error error d =>
    rw [hms] at htold hsame
    have hrun : (m >>= k) setting s = .error error d := by rw [hbind, bind_of_error hms]
    refine ⟨⟨mistakes, by rwa [hrun]⟩, fun hwithin => ?_⟩
    rw [hrun] at hwithin ⊢
    rw [hbind, bind_of_error (hsame hwithin)]
  | ok a d =>
    rw [hms] at htold hsame
    obtain ⟨⟨later, hlater⟩, hsame'⟩ := hk a d hms
    have hrun : (m >>= k) setting s = k a setting d := by rw [hbind, bind_of_ok hms]
    refine ⟨⟨mistakes ++ later, by rw [hrun]; exact htold.trans hlater⟩, fun hwithin => ?_⟩
    rw [hrun] at hwithin ⊢
    -- Neither of the two parts exceeds the limit.
    have hfirst := hsame fun h => hwithin (h.told hlater)
    have hsecond := hsame' fun h => hwithin (htold.exceeds h)
    rw [hbind, bind_of_ok hfirst, hsecond]

namespace Deepens

variable {m m' : ParseM α}

/-- To return a value does not ask for the limit. -/
theorem pure (a : α) : Deepens (Pure.pure a : ParseM α) (Pure.pure a) :=
  fun _ _ s _ => .of_told s.build.told_refl rfl

/-- Two readers in a row do the same if each does. -/
theorem bind {k k' : α → ParseM β} (hm : Deepens m m') (hk : ∀ a, Deepens (k a) (k' a)) :
    Deepens (m >>= k) (m' >>= k') :=
  fun setting limit s hlimit =>
    (hm setting limit s hlimit).bind fun a d _ => hk a setting limit d hlimit

/-- What a function makes of the result does not ask for the limit. -/
theorem map (hm : Deepens m m') (f : α → β) : Deepens (f <$> m) (f <$> m') := by
  rw [map_eq_pure_bind, map_eq_pure_bind]
  exact hm.bind fun a => pure (f a)

/-- To fail does not ask for the limit. -/
theorem throw (error : ParseError) : Deepens (throw error : ParseM α) (throw error) :=
  fun _ _ s _ => .of_told s.build.told_refl rfl

/-- To look at the state does not ask for the limit. -/
theorem get : Deepens (MonadState.get : ParseM ParseState) MonadState.get :=
  fun _ _ s _ => .of_told s.build.told_refl rfl

/-- The setting may be looked at for anything but the limit. -/
theorem read {k k' : Setting → ParseM α}
    (hk : ∀ setting limit, Deepens (k setting) (k' (setting.withMaxDepth limit))) :
    Deepens (MonadReader.read >>= k) (MonadReader.read >>= k') := by
  intro setting limit s hlimit
  exact ⟨(hk setting limit setting limit s hlimit).tells,
    (hk setting limit setting limit s hlimit).same⟩

/-- With a higher limit there are more levels. -/
theorem levels {k k' : Nat → ParseM α} (hk : ∀ n n', n ≤ n' → Deepens (k n) (k' n')) :
    Deepens (levels >>= k) (levels >>= k') := by
  intro setting limit s hlimit
  have hlevels : setting.options.maxDepth - s.depth ≤ limit - s.depth := by omega
  have hrun := hk _ _ hlevels setting limit s hlimit
  exact ⟨hrun.tells, hrun.same⟩

/-- A building step that only adds to what was told does the same under any limit. -/
theorem build {step : BuildM α} (h : BuildM.Tells step) : Deepens (build step) (build step) := by
  intro setting limit ⟨events, b, depth⟩ _
  obtain ⟨mistakes, htold⟩ := h b
  have hfinal : (final (ParseM.build step setting ⟨events, b, depth⟩)).build = final (step b) := by
    rw [ParseM.build]
    cases step b <;> rfl
  exact ⟨⟨mistakes, hfinal ▸ htold⟩, fun _ => rfl⟩

/-- To add a node does not ask for the limit. -/
theorem add (node : Node) (l : Location) : Deepens (add node l) (add node l) :=
  build (.onTree _)

/-- To report does not ask for the limit. -/
theorem report (message : String) (l : Location) : Deepens (report message l) (report message l) :=
  build (.report message l)

/-- To move on by an event does not ask for the limit. -/
theorem advance : Deepens advance advance :=
  fun _ _ s _ => .of_told s.build.told_refl rfl

/-- To change the state does not ask for the limit if nothing is told. -/
theorem modify (f : ParseState → ParseState) (hf : ∀ s, (f s).build = s.build) :
    Deepens (modify f : ParseM PUnit) (modify f) := by
  refine fun _ _ s _ => ⟨⟨[], ?_⟩, fun _ => rfl⟩
  rw [Build.Told, List.append_nil]
  exact congrArg (·.diagnostics.toList) (hf s)

/-- To look at the event at the cursor does not ask for the limit. -/
theorem current : Deepens current current := by
  refine get.bind fun s => ?_
  split
  · exact pure _
  · exact throw _

/-- To tell the place does not ask for the limit. -/
theorem here : Deepens here here :=
  current.bind fun e => read fun setting _ => pure (e.location setting.file)

/-- Skipping does not ask for the limit. -/
theorem skip : Deepens skip skip := by
  intro setting limit s _
  -- Skipping looks at the events only, and builds nothing.
  have hskip : ∃ result, (∀ setting, ParseM.skip setting s = result) ∧
      (final result).build = s.build := by
    cases h : Event.skipValue s.events with
    | ok es => exact ⟨.ok () { s with events := es }, fun _ => skip_of_skipValue h, rfl⟩
    | error es =>
      refine ⟨.error .unexpectedEnd { s with events := es }, fun setting => ?_, rfl⟩
      have hpost : Post ParseM.skip setting s (fun _ _ => False)
          fun error u => error = .unexpectedEnd ∧ u = { s with events := es } := by
        rw [post_skip, h]
        exact ⟨rfl, rfl⟩
      cases hs : ParseM.skip setting s with
      | ok a u => exact (hpost.of_ok hs).elim
      | error error u =>
        obtain ⟨rfl, rfl⟩ := hpost.of_error hs
        rfl
  obtain ⟨result, hresult, hbuild⟩ := hskip
  have htold : s.build.Told [] (final (ParseM.skip setting s)).build := by
    rw [hresult, hbuild]
    exact s.build.told_refl
  exact .of_told htold ((hresult _).trans (hresult _).symm)

/-- To report and skip, with a fixed answer, does not ask for the limit. -/
theorem reportSkip (message : String) (l : Location) (a : α) :
    Deepens (do ParseM.report message l; ParseM.skip; return a)
      (do ParseM.report message l; ParseM.skip; return a) :=
  (report message l).bind fun _ => skip.bind fun _ => pure a

/-- To refuse a value does not ask for the limit. -/
theorem refuse (message : String) :
    Deepens (refuse message : ParseM (Option α)) (refuse message) :=
  here.bind fun l => reportSkip message l none

end Deepens

/-! ## The cursor -/

/-- What follows a look at the event at the cursor matters only where there is one. -/
theorem deepensAt_current {k k' : Event → ParseM α} (hlimit : setting.options.maxDepth ≤ limit)
    (hk : ∀ e es, s.events = e :: es → DeepensAt setting limit s (k e) (k' e)) :
    DeepensAt setting limit s (current >>= k) (current >>= k') := by
  refine (Deepens.current setting limit s hlimit).bind fun e d hok => ?_
  have hpost : Post current setting s (fun e d => (∃ es, s.events = e :: es) ∧ d = s)
      fun _ _ => True := by
    rcases s.nil_or_cons with hs | ⟨e, es, hs⟩
    · exact (post_current_of_nil hs).mpr trivial
    · exact (post_current hs).mpr ⟨⟨es, hs⟩, rfl⟩
  obtain ⟨⟨es, hcons⟩, rfl⟩ := hpost.of_ok hok
  exact hk e es hcons

/-- Readers that begin by taking note of the place are compared where there is an event at the
cursor. -/
theorem deepensAt_here {k k' : Location → ParseM α} (hlimit : setting.options.maxDepth ≤ limit)
    (hk : ∀ l e es, s.events = e :: es → DeepensAt setting limit s (k l) (k' l)) :
    DeepensAt setting limit s (here >>= k) (here >>= k') := by
  refine (Deepens.here setting limit s hlimit).bind fun l d hok => ?_
  have hpost : Post here setting s (fun _ d => (∃ e es, s.events = e :: es) ∧ d = s)
      fun _ _ => True := by
    rcases s.nil_or_cons with hs | ⟨e, es, hs⟩
    · exact (post_here_of_nil hs).mpr trivial
    · exact (post_here hs).mpr ⟨⟨e, es, hs⟩, rfl⟩
  obtain ⟨⟨e, es, hcons⟩, rfl⟩ := hpost.of_ok hok
  exact hk l e es hcons

/-- Where there is a value that no level is left for, the limit is exceeded. -/
theorem exceeds_tooDeep (h : s.events = e :: es) :
    s.build.Exceeds (final (tooDeep (α := α) setting s)).build := by
  have htold (b : Build) (l : Location) :
      b.Exceeds { b with diagnostics := b.diagnostics.error "maximum nesting depth exceeded" l } :=
    ⟨_, Diagnostics.toList_error .., _, List.mem_singleton_self _, rfl⟩
  have hpost : Post (tooDeep (α := α)) setting s (fun _ u => s.build.Exceeds u.build)
      fun _ u => s.build.Exceeds u.build := by
    unfold tooDeep refuse
    rw [post_bind, post_here h, post_bind, post_report, post_bind, post_skip]
    split
    · exact htold s.build _
    · exact htold s.build _
  exact post_final.mp hpost

/-- A reader without levels is no match for one with some, except that it says so. -/
theorem deepensAt_tooDeep {m' : ParseM (Option α)} (hlimit : setting.options.maxDepth ≤ limit)
    (h : s.events = e :: es) : DeepensAt setting limit s tooDeep m' :=
  ⟨(Deepens.refuse _ setting limit s hlimit).tells,
    fun hwithin => (hwithin (exceeds_tooDeep h)).elim⟩

/-! ## Containers -/

/-- To expect an event does not ask for the limit. -/
theorem deepens_expect (kind : EventKind) : Deepens (expect kind) (expect kind) := by
  refine Deepens.current.bind fun e => ?_
  dsimp only
  split
  · exact Deepens.advance
  · exact (Deepens.throw _).bind fun _ => Deepens.advance

/-- Nesting does the same if what is nested does. -/
theorem deepens_nested {body body' : ParseM α} (h : Deepens body body') :
    Deepens (nested body) (nested body') :=
  (Deepens.modify (fun s => { s with depth := s.depth + 1 }) fun _ => rfl).bind fun _ =>
    Deepens.advance.bind fun _ => h.bind fun answer =>
      (Deepens.modify (fun s => { s with depth := s.depth - 1 }) fun _ => rfl).bind fun _ =>
        Deepens.pure answer

/-- Whether the container ends here does not ask for the limit. -/
theorem deepens_atClose : Deepens (atClose container) (atClose container) := by
  refine Deepens.current.bind fun e => ?_
  split
  · split
    · exact Deepens.pure _
    · exact Deepens.throw _
  · exact Deepens.throw _
  · exact Deepens.pure _
  · exact Deepens.pure _

section Fold

variable {step step' : σ → ParseM (Option σ)}

/-- A loop of so many turns does the same if each turn does. -/
theorem deepens_foldWithin (hstep : ∀ acc, Deepens (step acc) (step' acc)) (turns : List Event)
    (acc : σ) : Deepens (foldWithin container step turns acc)
      (foldWithin container step' turns acc) := by
  induction turns generalizing acc with
  | nil => exact Deepens.throw _
  | cons turn turns ih =>
    unfold foldWithin
    refine deepens_atClose.bind fun closed => ?_
    cases closed with
    | true => exact Deepens.pure _
    | false =>
      refine (hstep acc).bind fun answer => ?_
      cases answer with
      | none => exact Deepens.pure _
      | some acc => exact ih acc

/-- A loop does the same if each turn does. -/
theorem deepens_foldUntilClose (hstep : ∀ acc, Deepens (step acc) (step' acc)) (acc : σ) :
    Deepens (foldUntilClose container step acc) (foldUntilClose container step' acc) :=
  Deepens.get.bind fun s => deepens_foldWithin hstep s.events acc

end Fold

/-- Collecting the elements of a container does the same if reading one does. -/
theorem deepens_collect {item item' : ParseM (Option α)} (h : Deepens item item') :
    Deepens (collect container item) (collect container item') :=
  (deepens_foldUntilClose (fun _ => h.bind fun _ => Deepens.pure _) []).bind fun _ =>
    Deepens.pure _

/-- To take the end of a container does not ask for the limit. -/
theorem deepens_closeFrom (start : Location) : Deepens (closeFrom start) (closeFrom start) :=
  Deepens.here.bind fun _ => Deepens.advance.bind fun _ => Deepens.pure _

end ParseM

namespace Parse

open ParseM

variable {levels levels' : Nat} {container : Container} {setting : Setting} {limit : Nat}
  {s : ParseState}

/-! ## Values -/

/-- To read a key does not ask for the limit. -/
theorem deepens_key : Deepens key key := by
  refine Deepens.current.bind fun e => ?_
  split
  · exact Deepens.here.bind fun _ => Deepens.advance.bind fun _ => Deepens.pure _
  · exact Deepens.here.bind fun l => (Deepens.report _ l).bind fun _ =>
      Deepens.skip.bind fun _ => Deepens.skip.bind fun _ => Deepens.pure none

/-- An uninterpreted entry is read alike if its value is. -/
theorem deepens_rawEntry {value value' : ParseM (Option RawValue)} (h : Deepens value value')
    (entries : List (Key × RawValue)) :
    Deepens (rawEntry value entries) (rawEntry value' entries) := by
  refine deepens_key.bind fun key => ?_
  cases key with
  | none => exact Deepens.pure _
  | some key =>
    refine h.bind fun value => ?_
    cases value with
    | none => exact Deepens.pure _
    | some value => exact Deepens.pure _

/-- An uninterpreted value is read alike with more levels, unless it exceeds the fewer. -/
theorem deepens_rawValueWithin (hlevels : levels ≤ levels') :
    Deepens (rawValueWithin levels) (rawValueWithin levels') := by
  induction levels generalizing levels' with
  | zero =>
    intro setting limit s hlimit
    unfold rawValueWithin
    refine deepensAt_here hlimit fun start _ _ _ => deepensAt_current hlimit fun e es hcons => ?_
    split
    · exact (Deepens.advance.bind fun _ => Deepens.pure _) setting limit s hlimit
    · exact deepensAt_tooDeep hlimit hcons
    · exact deepensAt_tooDeep hlimit hcons
    · exact Deepens.refuse _ setting limit s hlimit
  | succ levels ih =>
    obtain ⟨levels', rfl⟩ := Nat.exists_eq_succ_of_ne_zero (Nat.ne_zero_of_lt hlevels)
    have hvalue := ih (Nat.le_of_succ_le_succ hlevels)
    unfold rawValueWithin
    refine Deepens.here.bind fun start => Deepens.current.bind fun e => ?_
    split
    · exact Deepens.advance.bind fun _ => Deepens.pure _
    · exact deepens_nested ((deepens_collect hvalue).bind fun items =>
        (deepens_closeFrom start).bind fun l => Deepens.pure _)
    · exact deepens_nested ((deepens_foldUntilClose (deepens_rawEntry hvalue) []).bind
        fun entries => (deepens_closeFrom start).bind fun l => Deepens.pure _)
    · exact Deepens.refuse _

/-- To read a scalar does not ask for the limit. -/
theorem deepens_scalar (message : String) (convert : String → Option Literal) :
    Deepens (scalar message convert) (scalar message convert) := by
  refine Deepens.current.bind fun e => ?_
  dsimp only
  split
  · exact Deepens.here.bind fun l => Deepens.advance.bind fun _ => (Deepens.add _ l).map _
  · exact Deepens.refuse message

/-- An expression is read alike with more levels, unless it exceeds the fewer. -/
theorem deepens_expressionWithin (hlevels : levels ≤ levels') :
    Deepens (expressionWithin levels) (expressionWithin levels') := by
  refine (deepens_rawValueWithin hlevels).bind fun value => ?_
  cases value with
  | none => exact Deepens.pure _
  | some value => exact Deepens.build (Resolve.tells_value value)

/-- A condition is read alike with more levels, unless it exceeds the fewer. -/
theorem deepens_conditionWithin (hlevels : levels ≤ levels') :
    Deepens (conditionWithin levels) (conditionWithin levels') := by
  refine (deepens_rawValueWithin hlevels).bind fun value => ?_
  cases value with
  | none => exact Deepens.pure _
  | some value => exact Deepens.build (Resolve.tells_condition value)

/-- Where an untagged container is read, there is an event to be read. -/
theorem deepens_plain {α : Type} {body body' : ParseM (Option α)}
    (h : ∀ setting limit s e es, setting.options.maxDepth ≤ limit → s.events = e :: es →
      DeepensAt setting limit s body body') :
    Deepens (plain container body) (plain container body') := by
  intro setting limit s hlimit
  unfold plain atPlain
  rw [bind_assoc, bind_assoc]
  refine deepensAt_current hlimit fun e es hcons => ?_
  rw [pure_bind, pure_bind]
  split
  · exact h setting limit s e es hlimit hcons
  · exact Deepens.refuse _ setting limit s hlimit

/-- Where no level is left for a container, any reader may be compared. -/
theorem deepens_plain_tooDeep {α : Type} {k : Location → ParseM (Option α)} :
    Deepens (plain container do let _ ← here; tooDeep) (plain container do let l ← here; k l) :=
  deepens_plain fun _ _ _ _ _ hlimit _ => deepensAt_here hlimit fun _ _ _ hcons =>
    deepensAt_tooDeep hlimit hcons

/-- Where levels are left on both sides, the container is read on both. -/
theorem deepens_plain_here {α : Type} {k k' : Location → ParseM (Option α)}
    (h : ∀ l, Deepens (k l) (k' l)) :
    Deepens (plain container do let l ← here; k l) (plain container do let l ← here; k' l) :=
  deepens_plain fun setting limit s _ _ hlimit _ => (Deepens.here.bind h) setting limit s hlimit

/-- A list of texts is read alike with more levels, unless it exceeds the fewer. -/
theorem deepens_stringListWithin (hlevels : levels ≤ levels') :
    Deepens (stringListWithin levels) (stringListWithin levels') := by
  unfold stringListWithin
  cases levels with
  | zero => exact deepens_plain_tooDeep
  | succ levels =>
    obtain ⟨levels', rfl⟩ := Nat.exists_eq_succ_of_ne_zero (Nat.ne_zero_of_lt hlevels)
    refine deepens_plain_here fun start => ?_
    refine (deepens_nested ((deepens_collect (deepens_scalar _ _)).bind fun items =>
      (deepens_closeFrom start).bind fun l => Deepens.pure (items, l))).bind fun list => ?_
    exact (Deepens.add _ list.2).map _

/-! ## Entries of declarations -/

/-- The value of a known key is read alike if values of its kind are. -/
theorem deepens_property {value value' : ValueReader}
    (h : ∀ kind, Deepens (value kind) (value' kind)) (draft : Draft) (known : Property) :
    Deepens (property value draft known) (property value' draft known) := by
  refine (h known.value).bind fun id => ?_
  dsimp only
  split
  · split <;> exact Deepens.pure _
  · exact Deepens.pure _

/-- An entry of a declaration is read alike if values are. -/
theorem deepens_entry {value value' : ValueReader}
    (h : ∀ kind, Deepens (value kind) (value' kind)) (type : DeclarationType)
    (draft : Option Draft) : Deepens (entry type value draft) (entry type value' draft) := by
  refine deepens_key.bind fun key => ?_
  cases key with
  | none => exact Deepens.pure _
  | some key =>
    dsimp only
    split
    · exact Deepens.reportSkip _ _ _
    · split
      · exact Deepens.reportSkip _ _ _
      · split
        · exact Deepens.reportSkip _ _ _
        · exact deepens_property h _ _

/-- To skip the entries that are left does not ask for the limit. -/
theorem deepens_skipEntries : Deepens skipEntries skipEntries :=
  (deepens_foldUntilClose (fun _ => Deepens.skip.bind fun _ => Deepens.skip.bind fun _ =>
    Deepens.pure _) ()).map _

/-! ## One declaration -/

/-- To report missing keys does not ask for the limit. -/
theorem deepens_reportMissing (keys : List String) (l : Location) :
    Deepens (reportMissing keys l) (reportMissing keys l) := by
  unfold reportMissing
  split
  · exact Deepens.pure _
  · exact Deepens.report _ l

/-- To begin a declaration does not ask for the limit. -/
theorem deepens_emptyDraft (type : DeclarationType) (l : Location) :
    Deepens (emptyDraft type l) (emptyDraft type l) := by
  unfold emptyDraft
  split
  · split
    · exact Deepens.pure _
    · exact (deepens_reportMissing _ l).bind fun _ => Deepens.pure _
  · exact (Deepens.report _ l).bind fun _ => Deepens.pure _

/-- To bind properties does not ask for the limit. -/
theorem deepens_bindAll (id : NodeId) (values : List (String × NodeId)) :
    Deepens (bindAll id values) (bindAll id values) := by
  induction values with
  | nil => exact Deepens.pure _
  | cons value values ih => exact ((Deepens.build (.onTree _)).map _).bind fun _ => ih

/-- The version that a module is given does not depend on the limit. -/
theorem deepens_addDefaultVersion (draft : Draft) (id : NodeId) (l : Location) :
    Deepens (addDefaultVersion draft id l) (addDefaultVersion draft id l) := by
  unfold addDefaultVersion
  split
  · exact Deepens.read fun _ _ => (Deepens.add _ l).bind fun version => deepens_bindAll id _
  · exact Deepens.pure _

/-- To complete a declaration does not ask for the limit. -/
theorem deepens_finish (draft : Draft) (start l : Location) :
    Deepens (finish draft start l) (finish draft start l) := by
  refine (deepens_reportMissing _ start).bind fun _ => ?_
  split
  · exact Deepens.pure _
  · exact (Deepens.add _ l).bind fun id => (deepens_bindAll id _).bind fun _ =>
      (deepens_addDefaultVersion draft id l).bind fun _ => Deepens.pure _

/-- The body of a declaration is read alike if values are. -/
theorem deepens_declarationBody {value value' : ValueReader}
    (h : ∀ kind, Deepens (value kind) (value' kind)) (type : DeclarationType) (start : Location) :
    Deepens (declarationBody type value start) (declarationBody type value' start) := by
  refine (deepens_foldUntilClose (deepens_entry h type) none).bind fun draft => ?_
  cases draft with
  | none => exact deepens_skipEntries.bind fun _ => Deepens.advance.bind fun _ => Deepens.pure _
  | some draft =>
    refine (deepens_closeFrom start).bind fun l => ?_
    cases draft with
    | some draft => exact deepens_finish draft start l
    | none =>
      refine (deepens_emptyDraft type start).bind fun draft => ?_
      cases draft with
      | none => exact Deepens.pure _
      | some draft => exact deepens_finish draft start l

/-! ## Lists of declarations -/

/-- To compare a name with those before it does not ask for the limit. -/
theorem deepens_uniqueName? (id : NodeId) : Deepens (uniqueName? id) (uniqueName? id) := by
  refine Deepens.get.bind fun s => Deepens.read fun setting limit => ?_
  change Deepens (if setting.options.enforceUniqueNames ∧ s.build.tree.isItem id then _ else _)
    (if setting.options.enforceUniqueNames ∧ s.build.tree.isItem id then _ else _)
  split <;> exact Deepens.pure _

/-- An element of a list is read alike if declarations are. -/
theorem deepens_element {declaration declaration' : ParseM (Option NodeId)}
    (h : Deepens declaration declaration') (items : Items) :
    Deepens (element declaration items) (element declaration' items) := by
  refine h.bind fun id => ?_
  cases id with
  | none => exact Deepens.pure _
  | some id =>
    refine (deepens_uniqueName? id).bind fun name => ?_
    split
    · exact Deepens.pure _
    · split
      · exact Deepens.get.bind fun s => (Deepens.report _ _).bind fun _ => Deepens.pure _
      · exact Deepens.pure _

/-- A list of declarations is read alike if its elements are. -/
theorem deepens_listBody {declaration declaration' : ParseM (Option NodeId)}
    (h : Deepens declaration declaration') (start : Location) :
    Deepens (listBody declaration start) (listBody declaration' start) :=
  (deepens_foldUntilClose (deepens_element h) {}).bind fun _ =>
    (deepens_closeFrom start).bind fun _ => Deepens.pure _

/-! ## All shapes -/

/-- With more levels a value of the schema table is read as with fewer, as long as they do. -/
theorem deepens_valueWithin (hlevels : levels ≤ levels') (kind : ValueKind) :
    Deepens (valueWithin levels kind) (valueWithin levels' kind) := by
  -- By induction on the fewer levels; with none left, the first reader exceeds the limit.
  induction levels using Nat.strongRecOn generalizing levels' kind with
  | _ levels ih =>
    cases kind with
    | string | int | bool =>
      unfold valueWithin
      exact deepens_scalar _ _
    | expression =>
      unfold valueWithin
      exact deepens_expressionWithin hlevels
    | condition =>
      unfold valueWithin
      exact deepens_conditionWithin hlevels
    | object | list =>
      unfold valueWithin
      exact deepens_plain fun setting limit s _ _ hlimit _ =>
        deepens_expressionWithin hlevels setting limit s hlimit
    | stringList =>
      unfold valueWithin
      exact deepens_stringListWithin hlevels
    | declaration type =>
      cases levels with
      | zero =>
        unfold valueWithin
        exact deepens_plain_tooDeep
      | succ levels =>
        obtain ⟨levels', rfl⟩ := Nat.exists_eq_succ_of_ne_zero (Nat.ne_zero_of_lt hlevels)
        have hvalue := ih levels (Nat.lt_succ_self levels) (Nat.le_of_succ_le_succ hlevels)
        unfold valueWithin
        exact deepens_plain_here fun start =>
          deepens_nested (deepens_declarationBody hvalue type start)
    | declarationList type =>
      cases levels with
      | zero =>
        unfold valueWithin
        exact deepens_plain_tooDeep
      | succ levels =>
        obtain ⟨levels', rfl⟩ := Nat.exists_eq_succ_of_ne_zero (Nat.ne_zero_of_lt hlevels)
        have hvalue := ih levels (Nat.lt_succ_self levels) (Nat.le_of_succ_le_succ hlevels)
        unfold valueWithin
        exact deepens_plain_here fun start =>
          (deepens_nested (deepens_listBody (hvalue (.declaration type)) start)).bind fun list =>
            (Deepens.add _ list.2).map _

/-! ## Operations of a parser -/

/-- A value of any kind is read alike under a higher limit, unless it exceeds the lower one. -/
theorem deepens_valueOf (kind : ValueKind) : Deepens (valueOf kind) (valueOf kind) :=
  Deepens.levels fun _ _ hlevels => deepens_valueWithin hlevels kind

/-- An expression that is asked for is read alike under a higher limit. -/
theorem deepens_expression : Deepens expression expression :=
  Deepens.levels fun _ _ hlevels => deepens_expressionWithin hlevels

/-- A condition that is asked for is read alike under a higher limit. -/
theorem deepens_condition : Deepens condition condition :=
  Deepens.levels fun _ _ hlevels => deepens_conditionWithin hlevels

/-- A list of texts that is asked for is read alike under a higher limit. -/
theorem deepens_stringList : Deepens stringList stringList :=
  Deepens.levels fun _ _ hlevels => deepens_stringListWithin hlevels

/-- An uninterpreted value that is asked for is read alike under a higher limit. -/
theorem deepens_rawValue : Deepens rawValue rawValue :=
  Deepens.levels fun _ _ hlevels => deepens_rawValueWithin hlevels

/-- To open the frame of a document does not ask for the limit. -/
theorem deepens_start : Deepens start start :=
  (deepens_expect _).bind fun _ => deepens_expect _

/-- To close the frame does not ask for the limit. -/
theorem deepens_finishDocument : Deepens finishDocument finishDocument :=
  (deepens_expect _).bind fun _ => deepens_expect _

/-- Every request is answered alike under a higher limit, unless it exceeds the lower one. -/
theorem Request.deepens (request : Request) : Deepens request.perform request.perform := by
  cases request with
  | start => exact deepens_start.map _
  | declaration type => exact (deepens_valueOf (.declaration type)).map _
  | declarationList type => exact (deepens_valueOf (.declarationList type)).map _
  | valueOf kind => exact (deepens_valueOf kind).map _
  | expression => exact deepens_expression.map _
  | condition => exact deepens_condition.map _
  | string => exact (deepens_scalar _ _).map _
  | int => exact (deepens_scalar _ _).map _
  | bool => exact (deepens_scalar _ _).map _
  | stringList => exact deepens_stringList.map _
  | rawValue => exact deepens_rawValue.map _
  | key => exact deepens_key.map _
  | finishDocument => exact deepens_finishDocument.map _

/-- A session only adds to what was told, and unless it exceeds the limit on nesting it is the same
under a higher one. -/
theorem session_deepens (hlimit : setting.options.maxDepth ≤ limit) (requests : List Request)
    (s : ParseState) :
    (∃ mistakes, s.build.Told mistakes (after setting requests s).build) ∧
      (¬ s.build.Exceeds (after setting requests s).build →
        after (setting.withMaxDepth limit) requests s = after setting requests s) := by
  induction requests generalizing s with
  | nil => exact ⟨⟨[], s.build.told_refl⟩, fun _ => rfl⟩
  | cons request requests ih =>
    obtain ⟨⟨mistakes, htold⟩, hsame⟩ := request.deepens setting limit s hlimit
    obtain ⟨⟨later, hlater⟩, hrest⟩ := ih (final (request.perform setting s))
    refine ⟨⟨mistakes ++ later, htold.trans hlater⟩, fun hwithin => ?_⟩
    -- Neither the first request nor the later ones exceed the limit.
    have hfirst := hsame fun h => hwithin (h.told hlater)
    have hothers := hrest fun h => hwithin (htold.exceeds h)
    calc after (setting.withMaxDepth limit) (request :: requests) s
        = after (setting.withMaxDepth limit) requests (final (request.perform setting s)) := by
          rw [← hfirst]; rfl
      _ = after setting (request :: requests) s := hothers

/-- A module is read alike under a higher limit, unless it exceeds the lower one. -/
theorem deepens_readModule : Deepens Document.readModule Document.readModule :=
  deepens_start.bind fun _ => (deepens_valueOf _).bind fun root =>
    deepens_finishDocument.bind fun _ => Deepens.pure root

/-- Raising the limit on nesting is conservative. From any state, on any events, a reader that does
not report to be out of levels does the same under any higher limit: it gives the same answer or
fails with the same error, and leaves the same events, depth, tree and diagnostics. So do sessions,
which go on after failures, and documents. -/
theorem limit_conservative :
    ((∀ type, Conservative (declaration type)) ∧
      (∀ type, Conservative (declarationList type)) ∧
      (∀ kind, Conservative (valueOf kind)) ∧
      Conservative expression ∧ Conservative condition ∧ Conservative string ∧ Conservative int ∧
      Conservative bool ∧ Conservative stringList ∧ Conservative rawValue ∧ Conservative key ∧
      Conservative start ∧ Conservative finishDocument) ∧
    (∀ setting limit requests s, setting.options.maxDepth ≤ limit →
      ¬ s.build.Exceeds (after setting requests s).build →
        after (setting.withMaxDepth limit) requests s = after setting requests s) ∧
    (∀ setting limit events, setting.options.maxDepth ≤ limit →
      ¬ Build.Exceeds {} (final (Document.readModule setting { events })).build →
        Document.ofEvents (setting.withMaxDepth limit) events =
          Document.ofEvents setting events) := by
  refine ⟨⟨fun type => (deepens_valueOf (.declaration type)).conservative,
    fun type => (deepens_valueOf (.declarationList type)).conservative,
    fun kind => (deepens_valueOf kind).conservative, deepens_expression.conservative,
    deepens_condition.conservative, (deepens_scalar _ _).conservative,
    (deepens_scalar _ _).conservative, (deepens_scalar _ _).conservative,
    deepens_stringList.conservative, deepens_rawValue.conservative, deepens_key.conservative,
    deepens_start.conservative, deepens_finishDocument.conservative⟩,
    fun setting limit requests s hlimit => (session_deepens hlimit requests s).2, ?documents⟩
  case documents =>
    intro setting limit events hlimit hwithin
    have hread := deepens_readModule.conservative setting limit { events } hlimit hwithin
    have hrun : (Document.readModule.run (setting.withMaxDepth limit)).run { events } =
        (Document.readModule.run setting).run { events } := hread
    unfold Document.ofEvents
    rw [hrun]
    rfl

/-- One level is enough for `[a]`, so that it is read alike with any limit above one. -/
theorem limit_conservative_list :
    let span : Span := ⟨default, default⟩
    let events := (Source.sequence span span none [.scalar span none "a"]).events
    let setting : Setting := ⟨"m.yml", { maxDepth := 1 }⟩
    let s := after setting [.expression] { events }
    (s.events = [] ∧ ¬ Build.Exceeds {} s.build) ∧
      ∀ limit, 1 ≤ limit → after (setting.withMaxDepth limit) [.expression] { events } = s := by
  intro span events setting s
  have hread : s.events = [] ∧ s.build.diagnostics.toList = [] := by decide +kernel
  have hwithin : ¬ Build.Exceeds {} s.build := by
    rintro ⟨mistakes, htold, d, hd, -⟩
    rw [Build.Told, hread.2] at htold
    rw [(List.append_eq_nil_iff.mp htold.symm).2] at hd
    cases hd
  exact ⟨⟨hread.1, hwithin⟩, fun limit hlimit =>
    limit_conservative.2.1 setting limit [.expression] { events } hlimit hwithin⟩

end Parse

end InfraModule
