import InfraModule.Proofs.Parse.Framing
import InfraModule.Proofs.Resolve.Context

/-!
# Reading in a context

A value stands in a context: something was built and told before it, and events follow it
(`Context`). What is read of it does not depend on that. Where a reader succeeds alone, with nothing
built before and nothing following, it does the same in any context (`ParseM.Carries`): it gives the
same answer with its ids shifted, puts what it builds and reports behind what there was, and leaves
the events that follow. So any two contexts agree (`Parse.context_independent`).
-/

namespace InfraModule

open Result

/-- What surrounds a value that is read. -/
structure Context where
  /-- What was built and told before it. -/
  before : Build
  /-- The events that follow it. -/
  after : List Event

/-- A state of reading, put into a context. -/
def Context.fill (x : Context) (c : ParseState) : ParseState :=
  ⟨c.events ++ x.after, x.before.graft c.build, c.depth⟩

/-- The id that a node gets in a context. -/
abbrev Context.shift (x : Context) : NodeId → NodeId :=
  x.before.tree.shift

namespace ParseM

variable {α α' β β' : Type} {x : Context} {setting : Setting} {c : ParseState} {e : Event}
  {es : List Event}

/-- Where the one succeeds alone from `c`, the other does the same in the context: it gives `f` of
the answer. -/
def CarriesAt (x : Context) (setting : Setting) (c : ParseState) (m : ParseM α) (m' : ParseM β)
    (f : α → β) : Prop :=
  ∀ a d, m setting c = .ok a d → m' setting (x.fill c) = .ok (f a) (x.fill d) ∧ d.build.tree.Loose

/-- Wherever the one succeeds alone, the other does the same in the context. -/
def Carries (x : Context) (m : ParseM α) (m' : ParseM β) (f : α → β) : Prop :=
  ∀ setting c, c.build.tree.Loose → CarriesAt x setting c m m' f

/-- In the context the reader gives the same node as alone, with its id shifted. -/
abbrev Shifts (x : Context) (m : ParseM (Option NodeId)) : Prop :=
  Carries x m m (Option.map x.shift)

/-- In a context the same event is at the cursor, and what surrounds the value follows. -/
theorem fill_of_cons (h : c.events = e :: es) : (x.fill c).events = e :: (es ++ x.after) := by
  rw [Context.fill, h, List.cons_append]

/-- With an event at the cursor, looking at it gives it and changes nothing. -/
theorem current_of_cons (h : c.events = e :: es) : current setting c = .ok e c := by
  obtain ⟨events, b, depth⟩ := c
  cases h
  rfl

/-- Where looking at the event succeeds, it is at the cursor and nothing has changed. -/
theorem cons_of_current {d : ParseState} (h : current setting c = .ok e d) :
    (∃ es, c.events = e :: es) ∧ d = c := by
  obtain ⟨events, b, depth⟩ := c
  cases events with
  | nil => cases h
  | cons e' es =>
    cases h
    exact ⟨⟨es, rfl⟩, rfl⟩

/-- Where skipping succeeds, only the events have changed, to those that follow the value. -/
theorem skip_eq_ok {a : Unit} {d : ParseState} (h : skip setting c = .ok a d) :
    ∃ es, Event.skipValue c.events = .ok es ∧ d = { c with events := es } := by
  have hpost : Post skip setting c
      (fun _ d => ∃ es, Event.skipValue c.events = .ok es ∧ d = { c with events := es })
      fun _ _ => True := by
    rw [post_skip]
    split
    · next es hes => exact ⟨es, hes, rfl⟩
    · trivial
  exact hpost.of_ok h

/-! ## Combining readers -/

namespace CarriesAt

variable {m : ParseM α} {m' : ParseM α'} {f : α → α'}

/-- To return corresponding answers carries over to the context. -/
theorem pure (hc : c.build.tree.Loose) {a : α} {a' : α'} (h : f a = a') :
    CarriesAt x setting c (Pure.pure a) (Pure.pure a') f := by
  intro b d hok
  cases hok
  exact ⟨h ▸ rfl, hc⟩

/-- Two readers in a row carry over if the first does and the second does from what the first
leaves. -/
theorem bind {k : α → ParseM β} {k' : α' → ParseM β'} {g : β → β'}
    (hm : CarriesAt x setting c m m' f)
    (hk : ∀ a d, m setting c = .ok a d → d.build.tree.Loose →
      CarriesAt x setting d (k a) (k' (f a)) g) :
    CarriesAt x setting c (m >>= k) (m' >>= k') g := by
  intro b u hok
  change (m setting >>= fun a => k a setting) c = _ at hok
  change (m' setting >>= fun a => k' a setting) (x.fill c) = _ ∧ _
  cases hmc : m setting c with
  | error error d =>
    rw [bind_of_error hmc] at hok
    cases hok
  | ok a d =>
    rw [bind_of_ok hmc] at hok
    obtain ⟨hfirst, hd⟩ := hm a d hmc
    rw [bind_of_ok hfirst]
    exact hk a d hmc hd b u hok

end CarriesAt

namespace Carries

variable {m : ParseM α} {m' : ParseM α'} {f : α → α'}

/-- To return corresponding answers carries over, wherever it happens. -/
theorem pure {a : α} {a' : α'} (h : f a = a') : Carries x (Pure.pure a) (Pure.pure a') f :=
  fun _ _ hc => CarriesAt.pure hc h

/-- Two readers in a row carry over if both do. -/
theorem bind {k : α → ParseM β} {k' : α' → ParseM β'} {g : β → β'} (hm : Carries x m m' f)
    (hk : ∀ a, Carries x (k a) (k' (f a)) g) : Carries x (m >>= k) (m' >>= k') g :=
  fun setting c hc => (hm setting c hc).bind fun a d _ hd => hk a setting d hd

/-- Functions that agree on corresponding answers carry over. -/
theorem map {g : α → β} {g' : α' → β'} {h : β → β'} (hm : Carries x m m' f)
    (hg : ∀ a, h (g a) = g' (f a)) : Carries x (g <$> m) (g' <$> m') h := by
  rw [map_eq_pure_bind, map_eq_pure_bind]
  exact hm.bind fun a => pure (hg a)

/-- A step of building carries over as a reader if it does as a step. -/
theorem build {step : BuildM α} {step' : BuildM α'} (h : BuildM.Carries x.before step step' f) :
    Carries x (build step) (build step') f := by
  intro setting ⟨events, b, depth⟩ hc a d hok
  simp only [ParseM.build] at hok
  cases hstep : step b with
  | error error b' => simp [hstep] at hok
  | ok answer b' =>
    rw [hstep] at hok
    cases hok
    obtain ⟨hbehind, hb'⟩ := h b hc a b' hstep
    exact ⟨by simp only [ParseM.build, Context.fill, hbehind], hb'⟩

/-- A report carries over; it comes behind those of the context. -/
theorem report (message : String) (l : Location) :
    Carries x (report message l) (report message l) id :=
  build (BuildM.Carries.report message l)

/-- The setting is the same in the context. -/
theorem read : Carries x (MonadReader.read : ParseM Setting) MonadReader.read id := by
  intro setting c hc a d hok
  cases hok
  exact ⟨rfl, hc⟩

/-- The levels that are left are the same in the context. -/
theorem levels : Carries x levels levels id := by
  intro setting c hc a d hok
  cases hok
  exact ⟨rfl, hc⟩

/-- Skipping carries over: the events that surround the value stay. -/
theorem skip : Carries x skip skip id := by
  intro setting c hc a d hok
  obtain ⟨es, hskip, rfl⟩ := skip_eq_ok hok
  exact ⟨skip_of_skipValue (s := x.fill c) (Event.skipValue_append hskip x.after), hc⟩

end Carries

/-! ## The cursor -/

/-- What a reader does at the event at the cursor need be said only where there is one. -/
theorem carriesAt_current {k : Event → ParseM α} {k' : Event → ParseM β} {f : α → β}
    (hc : c.build.tree.Loose)
    (hk : ∀ e es, c.events = e :: es → CarriesAt x setting c (k e) (k' e) f) :
    CarriesAt x setting c (current >>= k) (current >>= k') f := by
  have hcurrent : CarriesAt x setting c current current id := by
    intro e d hok
    obtain ⟨⟨es, hcons⟩, rfl⟩ := cons_of_current hok
    exact ⟨current_of_cons (fill_of_cons hcons), hc⟩
  refine hcurrent.bind fun e d hok _ => ?_
  obtain ⟨⟨es, hcons⟩, rfl⟩ := cons_of_current hok
  exact hk e es hcons

/-- Taking note of the place carries over if what follows does for the place of the event at the
cursor. -/
theorem carriesAt_here {k : Location → ParseM α} {k' : Location → ParseM β} {f : α → β}
    (hc : c.build.tree.Loose)
    (hk : ∀ l e es, c.events = e :: es → CarriesAt x setting c (k l) (k' l) f) :
    CarriesAt x setting c (here >>= k) (here >>= k') f := by
  have hbind {γ : Type} (k : Location → ParseM γ) :
      here >>= k = current >>= fun e => read >>= fun s => k (e.location s.file) := by
    simp only [here, bind_assoc, pure_bind]
  rw [hbind, hbind]
  refine carriesAt_current hc fun e es hcons => ?_
  exact hk (e.location setting.file) e es hcons

/-- Moving on by an event carries over where there is one. -/
theorem carriesAt_advance (hc : c.build.tree.Loose) (h : c.events = e :: es) :
    CarriesAt x setting c advance advance id := by
  intro a d hok
  cases hok
  refine ⟨?_, hc⟩
  change EStateM.Result.ok _ _ = EStateM.Result.ok _ _
  simp [Context.fill, h]

/-- What a reader does with the state need be said of that state only. -/
theorem carriesAt_get {k : ParseState → ParseM α} {k' : ParseState → ParseM β} {f : α → β}
    (h : CarriesAt x setting c (k c) (k' (x.fill c)) f) :
    CarriesAt x setting c (get >>= k) (get >>= k') f :=
  fun a d hok => h a d hok

/-- Where a reader gives up alone, nothing is said about the context. -/
theorem carriesAt_throw {error : ParseError} {m' : ParseM β} {f : α → β} :
    CarriesAt x setting c (throw error) m' f := by
  intro a d hok
  cases hok

/-- What is open is counted in the context as it is alone. -/
theorem carries_modifyDepth (change : Nat → Nat) :
    Carries x (modify fun state => { state with depth := change state.depth } : ParseM PUnit)
      (modify fun state => { state with depth := change state.depth }) id := by
  intro setting c hc a d hok
  cases hok
  exact ⟨rfl, hc⟩

/-- What is reported and skipped alone is reported and skipped in the context. -/
theorem carries_reportSkip (message : String) (l : Location) {a : α} {a' : β} {f : α → β}
    (h : f a = a') : Carries x (do report message l; skip; return a)
      (do report message l; skip; return a') f :=
  (Carries.report message l).bind fun _ => Carries.bind Carries.skip fun _ => Carries.pure h

/-- Refusing a value carries over. -/
theorem carries_refuse (message : String) {f : Option α → Option β} (hf : f none = none) :
    Carries x (refuse message) (refuse message) f := by
  intro setting c hc
  unfold refuse
  exact carriesAt_here hc fun l e es _ => carries_reportSkip message l hf setting c hc

/-- Passing over a value that is too deep carries over. -/
theorem carries_tooDeep {f : Option α → Option β} (hf : f none = none) :
    Carries x tooDeep tooDeep f :=
  carries_refuse _ hf

/-! ## Containers -/

section Containers

variable {container : Container}

/-- What is read one level deeper is read in the context as it is alone. -/
theorem carriesAt_nested {body : ParseM α} {body' : ParseM β} {f : α → β}
    (hc : c.build.tree.Loose) (h : c.events = e :: es) (hbody : Carries x body body' f) :
    CarriesAt x setting c (nested body) (nested body') f := by
  unfold nested
  -- The start of the container is taken after it has been counted.
  refine (carries_modifyDepth (· + 1) setting c hc).bind fun _ d hok hd => ?_
  cases hok
  refine (carriesAt_advance hd h).bind fun _ u _ hu => (hbody setting u hu).bind fun a v _ hv => ?_
  refine (carries_modifyDepth (· - 1) setting v hv).bind fun _ w _ hw => ?_
  exact CarriesAt.pure hw rfl

/-- Whether the container ends here is the same in the context. -/
theorem carries_atClose : Carries x (atClose container) (atClose container) id := by
  intro setting c hc
  unfold atClose
  refine carriesAt_current hc fun e es _ => ?_
  cases e.kind.role with
  | leaf | opening => exact CarriesAt.pure hc rfl
  | framing => exact carriesAt_throw
  | closing =>
    dsimp only
    split
    · exact CarriesAt.pure hc rfl
    · exact carriesAt_throw

section Fold

variable {σ σ' : Type} {step : σ → ParseM (Option σ)} {step' : σ' → ParseM (Option σ')}
  {f : σ → σ'} (hstep : ∀ acc, Carries x (step acc) (step' (f acc)) (Option.map f))

include hstep

/-- A loop that comes to its end alone does so in the context, where it has more turns. -/
theorem carries_foldWithin (turns turns' : List Event) (hturns : turns.length ≤ turns'.length)
    (acc : σ) : Carries x (foldWithin container step turns acc)
      (foldWithin container step' turns' (f acc)) (Option.map f) := by
  induction turns generalizing turns' acc with
  | nil =>
    -- Out of turns the loop fails, so that it did not succeed alone.
    exact fun _ _ _ => carriesAt_throw
  | cons turn turns ih =>
    cases turns' with
    | nil => simp at hturns
    | cons turn' turns' =>
      unfold foldWithin
      refine carries_atClose.bind fun closed => ?_
      cases closed with
      | true => exact Carries.pure rfl
      | false =>
        refine (hstep acc).bind fun answer => ?_
        cases answer with
        | none => exact Carries.pure rfl
        | some acc => exact ih turns' (Nat.le_of_succ_le_succ hturns) acc

/-- A loop carries over if each of its turns does; the context allows at least as many turns. -/
theorem carries_foldUntilClose (acc : σ) : Carries x (foldUntilClose container step acc)
    (foldUntilClose container step' (f acc)) (Option.map f) := by
  intro setting c hc
  have hturns : c.events.length ≤ (x.fill c).events.length := by
    simp [Context.fill]
  exact carries_foldWithin hstep c.events (x.fill c).events hturns acc setting c hc

end Fold

/-- Collecting the elements of a container carries over if reading one does. -/
theorem carries_collect {item : ParseM (Option α)} {item' : ParseM (Option β)} {f : α → β}
    (hitem : Carries x item item' (Option.map f)) :
    Carries x (collect container item) (collect container item') (List.map f) := by
  unfold collect
  refine (carries_foldUntilClose (f := List.map f) (fun items => ?_) []).bind fun items => ?_
  · refine hitem.bind fun item => Carries.pure ?_
    cases item <;> simp
  · refine Carries.pure ?_
    cases items <;> rfl

/-- Taking the end of a container carries over. -/
theorem carries_closeFrom (start : Location) :
    Carries x (closeFrom start) (closeFrom start) id := by
  intro setting c hc
  unfold closeFrom
  refine carriesAt_here hc fun l e es hcons => ?_
  exact (carriesAt_advance hc hcons).bind fun _ d _ hd => CarriesAt.pure hd rfl

end Containers

end ParseM

namespace Parse

open ParseM

variable {x : Context} {setting : Setting} {c : ParseState} {container : Container}

/-! ## Keys and uninterpreted values -/

/-- Reading a key carries over. -/
theorem carries_key : Carries x key key id := by
  intro setting c hc
  unfold key
  refine carriesAt_current hc fun e es hcons => ?_
  split
  · refine carriesAt_here hc fun l _ _ _ => ?_
    exact (carriesAt_advance hc hcons).bind fun _ _ _ hd => CarriesAt.pure hd rfl
  · refine carriesAt_here hc fun l _ _ _ => ?_
    refine (Carries.report _ l setting c hc).bind fun _ d _ hd => ?_
    refine (Carries.skip setting d hd).bind fun _ u _ hu => ?_
    refine (Carries.skip setting u hu).bind fun _ v _ hv => ?_
    exact CarriesAt.pure hv rfl

/-- Reading an uninterpreted entry carries over if reading its value does. -/
theorem carries_rawEntry {value : ParseM (Option RawValue)} (hvalue : Carries x value value id)
    (entries : List (Key × RawValue)) :
    Carries x (rawEntry value entries) (rawEntry value entries) (Option.map id) := by
  unfold rawEntry
  refine carries_key.bind fun key => ?_
  cases key with
  | none => exact Carries.pure rfl
  | some key =>
    refine hvalue.bind fun value => ?_
    cases value with
    | none => exact Carries.pure rfl
    | some value => exact Carries.pure rfl

/-- An uninterpreted value is the same in any context. -/
theorem carries_rawValueWithin (levels : Nat) :
    Carries x (rawValueWithin levels) (rawValueWithin levels) id := by
  induction levels using Nat.strongRecOn with
  | _ levels ih =>
    intro setting c hc
    unfold rawValueWithin
    refine carriesAt_here hc fun start _ _ _ => carriesAt_current hc fun e es hcons => ?_
    cases e.kind with
    | scalar text tag =>
      exact (carriesAt_advance hc hcons).bind fun _ _ _ hd => CarriesAt.pure hd rfl
    | sequenceStart tag =>
      cases levels with
      | zero => exact carries_tooDeep rfl setting c hc
      | succ levels =>
        have hitem : Carries x (rawValueWithin levels) (rawValueWithin levels) (Option.map id) := by
          simpa using ih levels (Nat.lt_succ_self levels)
        refine carriesAt_nested hc hcons ((carries_collect hitem).bind fun items => ?_)
        rw [List.map_id]
        exact (carries_closeFrom start).bind fun l => Carries.pure rfl
    | mappingStart tag =>
      cases levels with
      | zero => exact carries_tooDeep rfl setting c hc
      | succ levels =>
        have hentry := carries_rawEntry (ih levels (Nat.lt_succ_self levels))
        refine carriesAt_nested hc hcons
          ((carries_foldUntilClose (f := id) hentry []).bind fun entries => ?_)
        rw [Option.map_id]
        exact (carries_closeFrom start).bind fun l => Carries.pure rfl
    | _ => exact carries_refuse _ rfl setting c hc

/-! ## Values without declarations -/

section Trees

variable (ht : x.before.tree.Sound)

include ht

/-- Adding a node without target carries over to adding it with its children shifted. -/
theorem carries_add {n n' : Node} (hn : n.mapChildren x.shift = n') (htarget : n.target = none)
    (l : Location) : Carries x (add n l) (add n' l) x.shift :=
  Carries.build (BuildM.Carries.onTree (hn ▸ TreeM.carries_add ht htarget l))

/-- To add a node and give it carries over to adding the node with its children shifted. -/
theorem carries_someAdd {n n' : Node} (hn : n.mapChildren x.shift = n') (htarget : n.target = none)
    (l : Location) : Carries x (some <$> add n l) (some <$> add n' l) (Option.map x.shift) :=
  (carries_add ht hn htarget l).map fun _ => rfl

/-- A scalar gives the same node in the context, shifted. -/
theorem shifts_scalar (message : String) (convert : String → Option Literal) :
    Shifts x (scalar message convert) := by
  intro setting c hc
  unfold scalar
  refine carriesAt_current hc fun e es hcons => ?_
  dsimp only
  split
  · next literal hliteral =>
    refine carriesAt_here hc fun l _ _ _ => (carriesAt_advance hc hcons).bind fun _ d _ hd => ?_
    exact carries_someAdd ht (n := .expression (.literal literal)) rfl rfl l setting d hd
  · exact carries_refuse message rfl setting c hc

/-- An expression gives the same node in the context, shifted. -/
theorem shifts_expressionWithin (levels : Nat) : Shifts x (expressionWithin levels) := by
  refine (carries_rawValueWithin levels).bind fun value => ?_
  cases value with
  | none => exact Carries.pure rfl
  | some value => exact Carries.build (Resolve.shifts_value ht value)

/-- A condition gives the same node in the context, shifted. -/
theorem shifts_conditionWithin (levels : Nat) : Shifts x (conditionWithin levels) := by
  refine (carries_rawValueWithin levels).bind fun value => ?_
  cases value with
  | none => exact Carries.pure rfl
  | some value => exact Carries.build (Resolve.shifts_condition ht value)

omit ht in
/-- A reader of an untagged container need shift only where an event stands. -/
theorem shifts_plain {body : ParseM (Option NodeId)}
    (hbody : ∀ setting c e es, c.build.tree.Loose → c.events = e :: es →
      CarriesAt x setting c body body (Option.map x.shift)) : Shifts x (plain container body) := by
  intro setting c hc
  unfold plain atPlain
  rw [bind_assoc]
  refine carriesAt_current hc fun e es hcons => ?_
  rw [pure_bind]
  split
  · exact hbody setting c e es hc hcons
  · exact carries_refuse _ rfl setting c hc

omit ht in
/-- A reader of an untagged container may look where it stands first. -/
theorem shifts_plain_here {body : Location → ParseM (Option NodeId)}
    (hbody : ∀ start setting c e es, c.build.tree.Loose → c.events = e :: es →
      CarriesAt x setting c (body start) (body start) (Option.map x.shift)) :
    Shifts x (plain container (here >>= body)) :=
  shifts_plain fun setting c e es hc hcons => carriesAt_here hc fun start _ _ _ =>
    hbody start setting c e es hc hcons

/-- A list of texts gives the same node in the context, shifted. -/
theorem shifts_stringListWithin (levels : Nat) : Shifts x (stringListWithin levels) := by
  refine shifts_plain_here fun start setting c e es hc hcons => ?_
  cases levels with
  | zero => exact carries_tooDeep rfl setting c hc
  | succ levels =>
    have hitems : Carries x
        (do
          let items ← collect .sequence string
          return (items, ← closeFrom start))
        (do
          let items ← collect .sequence string
          return (items, ← closeFrom start)) (Prod.map (List.map x.shift) id) := by
      refine (carries_collect (shifts_scalar ht _ _)).bind fun items => ?_
      exact (carries_closeFrom start).bind fun l => Carries.pure rfl
    refine (carriesAt_nested hc hcons hitems).bind fun list d _ hd => ?_
    exact carries_someAdd ht (n := .collection list.1) rfl rfl list.2 setting d hd

end Trees

/-! ## Declarations -/

/-- The same draft with all nodes that it names renamed. -/
def Draft.rename (f : NodeId → NodeId) (draft : Draft) : Draft :=
  { draft with
    keyword := draft.keyword.map f
    values := draft.values.map (Prod.map id f) }

/-- Renaming the nodes of a draft leaves its kind. -/
@[simp] theorem Draft.kind_rename (f : NodeId → NodeId) (draft : Draft) :
    (draft.rename f).kind = draft.kind := rfl

/-- The same items with their nodes renamed. -/
def Items.rename (f : NodeId → NodeId) (items : Items) : Items :=
  { items with ids := items.ids.map f }

/-- Reading the value of a known key carries over to the draft with its nodes shifted. -/
theorem carries_property {value : ValueReader} (hvalue : ∀ kind, Shifts x (value kind))
    (draft : Draft) (known : Property) : Carries x (property value draft known)
      (property value (draft.rename x.shift) known)
      (Option.map (Option.map (Draft.rename x.shift))) := by
  refine (hvalue known.value).bind fun id => ?_
  dsimp only [Draft.rename]
  split
  · cases id with
    | none => exact Carries.pure rfl
    | some id => exact Carries.pure rfl
  · refine Carries.pure ?_
    cases id <;> simp [Draft.rename]

/-- Reading an entry carries over to the draft with its nodes shifted. -/
theorem carries_entry {value : ValueReader} (hvalue : ∀ kind, Shifts x (value kind))
    (type : DeclarationType) (draft : Option Draft) : Carries x (entry type value draft)
      (entry type value (draft.map (Draft.rename x.shift)))
      (Option.map (Option.map (Draft.rename x.shift))) := by
  refine carries_key.bind fun key => ?_
  cases key with
  | none => exact Carries.pure rfl
  | some key =>
    -- The key chooses a kind, or goes to the draft that there is, whatever its nodes are.
    have hdraft (chosen : Option Draft) (hchosen : chosen.map (Draft.rename x.shift) = chosen) :
        (draft.map (Draft.rename x.shift) <|> chosen)
          = (draft <|> chosen).map (Draft.rename x.shift) := by
      cases draft with
      | some draft => rfl
      | none => exact hchosen.symm
    dsimp only [id_eq]
    rw [hdraft _ (by cases type.resolveFirst key.text <;> rfl)]
    split
    · next hnone =>
      rw [hnone]
      exact carries_reportSkip _ _ rfl
    · next draft hsome =>
      rw [hsome]
      dsimp only [Option.map_some, Draft.kind_rename]
      cases draft.kind.property? key.text with
      | none => exact carries_reportSkip _ _ rfl
      | some known =>
        dsimp only
        by_cases hseen : known.key ∈ draft.seen
        · have hseen' : known.key ∈ (draft.rename x.shift).seen := hseen
          rw [if_pos hseen, if_pos hseen']
          exact carries_reportSkip _ _ rfl
        · have hseen' : known.key ∉ (draft.rename x.shift).seen := hseen
          rw [if_neg hseen, if_neg hseen']
          exact carries_property hvalue draft known

/-- Skipping the entries that are left carries over. -/
theorem carries_skipEntries : Carries x skipEntries skipEntries id := by
  refine Carries.map (carries_foldUntilClose (f := id) (fun _ => ?_) ()) fun _ => rfl
  refine Carries.skip.bind fun _ => ?_
  refine Carries.bind Carries.skip fun _ => ?_
  exact Carries.pure rfl

/-- Reporting missing keys carries over. -/
theorem carries_reportMissing (keys : List String) (l : Location) :
    Carries x (reportMissing keys l) (reportMissing keys l) id := by
  unfold reportMissing
  split
  · exact Carries.pure rfl
  · exact Carries.report _ l

/-- Beginning a declaration carries over to the draft with its nodes shifted. -/
theorem carries_emptyDraft (type : DeclarationType) (start : Location) :
    Carries x (emptyDraft type start) (emptyDraft type start)
      (Option.map (Draft.rename x.shift)) := by
  unfold emptyDraft
  split
  · split
    · exact Carries.pure rfl
    · refine (carries_reportMissing _ start).bind fun _ => ?_
      exact Carries.pure rfl
  · refine (Carries.report _ start).bind fun _ => ?_
    exact Carries.pure rfl

section Trees

variable (ht : x.before.tree.Sound)

include ht

/-- Binding properties carries over to the node and the values shifted. -/
theorem carries_bindAll (id : NodeId) (values : List (String × NodeId)) :
    Carries x (bindAll id values) (bindAll (x.shift id) (values.map (Prod.map (·) x.shift)))
      fun _ => () := by
  induction values with
  | nil => exact Carries.pure rfl
  | cons value values ih =>
    have hset : Carries x (build (.onTree (.setProperty id value.1 (some value.2))))
        (build (.onTree (.setProperty (x.shift id) value.1 (some (x.shift value.2)))))
        (Option.map x.shift) :=
      Carries.build (BuildM.Carries.onTree (TreeM.carries_setProperty ht id value.1 (some value.2)))
    have hfirst : Carries x (discard <| build (.onTree (.setProperty id value.1 (some value.2))))
        (discard <| build (.onTree (.setProperty (x.shift id) value.1 (some (x.shift value.2)))))
        fun _ => () :=
      Carries.map hset fun _ => rfl
    exact hfirst.bind fun _ => ih

/-- Adding the default version carries over to the draft and the node shifted. -/
theorem carries_addDefaultVersion (draft : Draft) (id : NodeId) (l : Location) :
    Carries x (addDefaultVersion draft id l)
      (addDefaultVersion (draft.rename x.shift) (x.shift id) l) fun _ => () := by
  unfold addDefaultVersion
  by_cases hdefault : draft.kind = .module ∧ "Version" ∉ draft.seen
  · have hdefault' : (draft.rename x.shift).kind = .module ∧
        "Version" ∉ (draft.rename x.shift).seen := hdefault
    rw [if_pos hdefault, if_pos hdefault']
    refine Carries.read.bind fun setting => ?_
    let version : Literal := .string setting.options.defaultModuleVersion
    refine (carries_add ht (n := .expression (.literal version)) rfl rfl l).bind fun version => ?_
    exact carries_bindAll ht id [("Version", version)]
  · have hdefault' : ¬ ((draft.rename x.shift).kind = .module ∧
        "Version" ∉ (draft.rename x.shift).seen) := hdefault
    rw [if_neg hdefault, if_neg hdefault']
    exact Carries.pure rfl

/-- Completing a declaration carries over to the draft with its nodes shifted. -/
theorem carries_finish (draft : Draft) (start l : Location) : Carries x (finish draft start l)
    (finish (draft.rename x.shift) start l) (Option.map x.shift) := by
  unfold finish
  refine (carries_reportMissing draft.missing start).bind fun _ => ?_
  have hnew : Declaration.new? (draft.rename x.shift).kind (draft.rename x.shift).keyword
      = (Declaration.new? draft.kind draft.keyword).map (Declaration.mapChildren x.shift) :=
    Declaration.new?_map draft.kind draft.keyword
  rw [hnew]
  cases Declaration.new? draft.kind draft.keyword with
  | none => exact Carries.pure rfl
  | some declaration =>
    refine (carries_add ht (n := .declaration declaration) rfl rfl l).bind fun id => ?_
    refine (carries_bindAll ht id draft.values).bind fun _ => ?_
    refine (carries_addDefaultVersion ht draft id l).bind fun _ => ?_
    exact Carries.pure rfl

/-- A declaration that has been given up skips the rest of its mapping; either way the mapping is
closed. -/
theorem shifts_declarationBody {value : ValueReader} (hvalue : ∀ kind, Shifts x (value kind))
    (type : DeclarationType) (start : Location) : Shifts x (declarationBody type value start) := by
  unfold declarationBody
  refine (carries_foldUntilClose (carries_entry hvalue type) none).bind fun draft => ?_
  cases draft with
  | none =>
    intro setting c hc
    refine (carries_skipEntries setting c hc).bind fun _ d hok hd => ?_
    -- The loop over the entries has come to the end of the mapping, which is there to be taken.
    obtain ⟨-, e, es, hcons, -⟩ := passes_skipEntries.of_ok hok
    refine (carriesAt_advance hd hcons).bind fun _ u _ hu => ?_
    exact CarriesAt.pure hu rfl
  | some draft =>
    refine (carries_closeFrom start).bind fun l => ?_
    cases draft with
    | some draft => exact carries_finish ht draft start l
    | none =>
      refine (carries_emptyDraft type start).bind fun draft => ?_
      cases draft with
      | none => exact Carries.pure rfl
      | some draft => exact carries_finish ht draft start l

/-! ## Lists of declarations -/

omit ht in
/-- The name of a node that was read is looked up in what was read with it. -/
theorem carries_uniqueName? (id : NodeId) :
    Carries x (uniqueName? id) (uniqueName? (x.shift id)) (·) := by
  intro setting c hc
  unfold uniqueName?
  refine carriesAt_get ?_
  have hitem : (x.fill c).build.tree.isItem (x.shift id) = c.build.tree.isItem id :=
    Tree.isItem_graft
  have hname : (x.fill c).build.tree.declarationName? (x.shift id)
      = c.build.tree.declarationName? id := Tree.declarationName?_graft
  refine (Carries.read setting c hc).bind fun setting' d _ hd => ?_
  dsimp only [id_eq]
  rw [hitem, hname]
  split
  · exact CarriesAt.pure hd rfl
  · exact CarriesAt.pure hd rfl

omit ht in
/-- Reading an element of a list carries over to the items with their nodes shifted. -/
theorem carries_element {declaration : ParseM (Option NodeId)} (h : Shifts x declaration)
    (items : Items) : Carries x (element declaration items)
      (element declaration (items.rename x.shift)) (Option.map (Items.rename x.shift)) := by
  unfold element
  refine h.bind fun id => ?_
  cases id with
  | none => exact Carries.pure rfl
  | some id =>
    have hids : (items.rename x.shift).ids ++ [x.shift id] = (items.ids ++ [id]).map x.shift := by
      simp [Items.rename]
    refine (carries_uniqueName? id).bind fun name => ?_
    cases name with
    | none => exact Carries.pure (by simp [Items.rename])
    | some name =>
      intro setting c hc
      have hlocation : (x.fill c).build.tree.location? (x.shift id) = c.build.tree.location? id :=
        Tree.location?_graft
      dsimp only [id_eq]
      by_cases hname : name ∈ items.names
      · have hname' : name ∈ (items.rename x.shift).names := hname
        rw [if_pos hname, if_pos hname']
        refine carriesAt_get ?_
        rw [hlocation]
        refine (Carries.report _ _ setting c hc).bind fun _ d _ hd => ?_
        exact CarriesAt.pure hd rfl
      · have hname' : name ∉ (items.rename x.shift).names := hname
        rw [if_neg hname, if_neg hname', hids]
        exact CarriesAt.pure hc rfl

omit ht in
/-- Reading a list of declarations carries over: it gives the same items, shifted. -/
theorem carries_listBody {declaration : ParseM (Option NodeId)} (h : Shifts x declaration)
    (start : Location) : Carries x (listBody declaration start) (listBody declaration start)
      (Prod.map (List.map x.shift) id) := by
  unfold listBody
  refine (carries_foldUntilClose (f := Items.rename x.shift) (carries_element h) {}).bind
    fun items => ?_
  refine (carries_closeFrom start).bind fun l => Carries.pure ?_
  cases items <;> rfl

/-! ## All shapes -/

/-- If declarations and lists of them give the same nodes shifted, values of all kinds do. -/
theorem shifts_valueWithin_of_declarations {levels : Nat}
    (hdeclaration : ∀ type, Shifts x (valueWithin levels (.declaration type)))
    (hlist : ∀ type, Shifts x (valueWithin levels (.declarationList type))) (kind : ValueKind) :
    Shifts x (valueWithin levels kind) := by
  cases kind with
  | string | int | bool =>
    unfold valueWithin
    exact shifts_scalar ht _ _
  | expression =>
    unfold valueWithin
    exact shifts_expressionWithin ht levels
  | condition =>
    unfold valueWithin
    exact shifts_conditionWithin ht levels
  | object | list =>
    unfold valueWithin
    exact shifts_plain fun setting c _ _ hc _ => shifts_expressionWithin ht levels setting c hc
  | stringList =>
    unfold valueWithin
    exact shifts_stringListWithin ht levels
  | declaration type => exact hdeclaration type
  | declarationList type => exact hlist type

/-- A value of any kind gives the same node in the context, shifted, whatever depth is left. -/
theorem shifts_valueWithin (levels : Nat) (kind : ValueKind) :
    Shifts x (valueWithin levels kind) := by
  induction levels generalizing kind with
  | zero =>
    have hdeep {container : Container} :
        Shifts x (plain container do let _ ← here; (tooDeep : ParseM (Option NodeId))) :=
      shifts_plain_here fun _ setting c _ _ hc _ => carries_tooDeep rfl setting c hc
    refine shifts_valueWithin_of_declarations ht (fun type => ?_) (fun type => ?_) kind
    · exact hdeep
    · exact hdeep
  | succ levels ih =>
    refine shifts_valueWithin_of_declarations ht (fun type => ?declaration) (fun type => ?list) kind
    case declaration =>
      refine shifts_plain_here fun start setting c e es hc hcons => ?_
      exact carriesAt_nested hc hcons (shifts_declarationBody ht ih type start)
    case list =>
      refine shifts_plain_here fun start setting c e es hc hcons => ?_
      have hlist := carries_listBody (ih (.declaration type)) start
      refine (carriesAt_nested hc hcons hlist).bind fun list d _ hd => ?_
      exact carries_someAdd ht (n := .collection list.1) rfl rfl list.2 setting d hd

/-- Whatever the shape, a value of the schema table is read in the context as it is alone. -/
theorem shifts_valueOf (kind : ValueKind) : Shifts x (valueOf kind) :=
  Carries.levels.bind fun levels => shifts_valueWithin ht levels kind

end Trees

/-! ## Two contexts -/

/-- What was read from `s` up to `u` is what was read from `s'` up to `u'`, but for the place in the
tree: an id of the one is an id of the other moved by the difference of the sizes. -/
structure Corresponds (s s' : ParseState) (id id' : Option NodeId) (u u' : ParseState) : Prop where
  /-- The same mistakes were reported, in the same order. -/
  told : ∃ ds, u.build.diagnostics.messages = s.build.diagnostics.messages ++ ds ∧
    u'.build.diagnostics.messages = s'.build.diagnostics.messages ++ ds
  /-- The answers are both none, or nodes in the same place. -/
  answer : id' = id.map (s.build.tree.moved s'.build.tree)
  /-- The same nodes were appended, and nothing else in the trees was changed. -/
  made : ∃ es : Array Entry,
    u.build.tree = { s.build.tree with entries := s.build.tree.entries ++ es } ∧
    u'.build.tree = { s'.build.tree with
      entries := s'.build.tree.entries ++ es.map (.rename (s.build.tree.moved s'.build.tree)) } ∧
    ∀ e ∈ es, e.From s.build.tree.size
  /-- The answer is one of them. -/
  new : ∀ x ∈ id, s.build.tree.size ≤ x ∧ x < u.build.tree.size
  /-- What is open is as deep as before. -/
  depth : u.depth = s.depth ∧ u'.depth = s'.depth

variable {s s' : ParseState} {value rest rest' : List Event}

/-- A well-formed value is read to its end where nothing is around it. -/
theorem exists_valueOf_alone (kind : ValueKind) (setting : Setting) (depth : Nat)
    (hvalue : Event.Value value []) : ∃ id d,
      valueOf kind setting { events := value, depth } = .ok id d ∧ d.events = [] ∧
        d.depth = depth ∧ ∀ x ∈ id, x < d.build.tree.size := by
  let c : ParseState := { events := value, depth }
  have hreaches : Reaches (valueOf kind) setting c [] [] :=
    reaches_valueOf kind Tree.sound_empty (by simpa [c] using hvalue)
  have hreads := hreaches.post (E := fun _ _ => False)
  obtain ⟨id, d, hok, hevents, -⟩ := hreads.exists_ok fun _ _ h => h
  have hgave := (yields_valueOf kind setting c Tree.sound_empty).of_ok hok
  have htakes : c.Takes d := (takes_valueOf kind setting c).of_ok hok
  refine ⟨id, d, hok, hevents, htakes.depth, fun x hx => ?_⟩
  exact (hgave.made.root x (by simpa using hx)).1

/-- A state in which a value stands is the value alone, put into the context of it. -/
theorem fill_alone (hs : s.events = value ++ rest) :
    Context.fill ⟨s.build, rest⟩ { events := value, depth := s.depth } = s := by
  obtain ⟨events, ⟨tree, diagnostics⟩, depth⟩ := s
  cases hs
  simp [Context.fill, Build.graft]

/-- What is read of a well-formed value does not depend on what was built and told before it, nor on
the events that follow it. -/
theorem context_independent (kind : ValueKind) (setting : Setting) (ht : s.build.tree.Sound)
    (ht' : s'.build.tree.Sound) (hdepth : s'.depth = s.depth) (hvalue : Event.Value value [])
    (hs : s.events = value ++ rest) (hs' : s'.events = value ++ rest') :
    ∃ id u id' u', valueOf kind setting s = .ok id u ∧ valueOf kind setting s' = .ok id' u' ∧
      u.events = rest ∧ u'.events = rest' ∧ Corresponds s s' id id' u u' := by
  obtain ⟨id, d, hok, hevents, hd, hid⟩ := exists_valueOf_alone kind setting s.depth hvalue
  have hc : ({} : Tree).Loose := Tree.loose_empty
  -- Both states are the same value in a context, so both runs are the one alone in that context.
  obtain ⟨hrun, hloose⟩ := shifts_valueOf (x := ⟨s.build, rest⟩) ht kind setting _ hc id d hok
  obtain ⟨hrun', -⟩ := shifts_valueOf (x := ⟨s'.build, rest'⟩) ht' kind setting _ hc id d hok
  rw [fill_alone hs] at hrun
  rw [← hdepth, fill_alone hs'] at hrun'
  refine ⟨_, _, _, _, hrun, hrun', ?_, ?_, ?_⟩
  · simp [Context.fill, hevents]
  · simp [Context.fill, hevents]
  have hmoved := Tree.moved_comp_shift s.build.tree s'.build.tree
  constructor
  case told => exact ⟨d.build.diagnostics.messages, rfl, rfl⟩
  case answer => rw [Option.map_map, hmoved]
  case made =>
    refine ⟨d.build.tree.entries.map (.rename s.build.tree.shift), rfl, ?_, fun e he => ?_⟩
    · have hrename : Entry.rename (s.build.tree.moved s'.build.tree) ∘ .rename s.build.tree.shift
          = .rename s'.build.tree.shift := by
        funext e
        rw [Function.comp_apply, Entry.rename_rename, hmoved]
      rw [Array.map_map, hrename]
      rfl
    · obtain ⟨alone, halone, rfl⟩ := Array.mem_map.mp he
      exact hloose.from_rename halone
  case new =>
    intro x hx
    obtain ⟨y, hy, rfl⟩ := Option.map_eq_some_iff.mp hx
    exact ⟨Tree.size_le_shift, Tree.shift_lt_size_graft (hid y hy)⟩
  case depth => exact ⟨hd, hd.trans hdepth.symm⟩

/-- A list of texts that holds something else becomes node 1 of an empty tree, and node 2 where
there is a node already. -/
theorem context_independent_of_list :
    let value := [.sequenceStart none, .scalar "a" none, .mappingStart none, .mappingEnd,
      .sequenceEnd].map (Event.mk · default default)
    let s : ParseState := { events := value }
    let s' : ParseState := ⟨value ++ value, ⟨({} : Tree).append (.collection []) default, {}⟩, 0⟩
    ∃ u u', valueOf .stringList ⟨"m.yml", {}⟩ s = .ok (some 1) u ∧
      valueOf .stringList ⟨"m.yml", {}⟩ s' = .ok (some 2) u' ∧ u.events = [] ∧
      u'.events = value ∧ Corresponds s s' (some 1) (some 2) u u' := by
  intro value s s'
  have hvalue : Event.Value value [] :=
    .sequence rfl (.cons (.scalar rfl) (.cons (.mapping rfl .nil rfl) .nil)) rfl
  have ht : s.build.tree.Sound := Tree.sound_empty
  have ht' : s'.build.tree.Sound :=
    Tree.Reachable.sound ⟨[.add (.collection []) default], rfl⟩
  have hs : s.events = value ++ [] := (List.append_nil value).symm
  have hs' : s'.events = value ++ value := rfl
  have hdepth : s'.depth = s.depth := rfl
  obtain ⟨id, u, id', u', hok, hok', hu, hu', h⟩ :=
    context_independent .stringList ⟨"m.yml", {}⟩ ht ht' hdepth hvalue hs hs'
  have hid : (match valueOf .stringList ⟨"m.yml", {}⟩ s with
    | .ok given _ => given
    | .error .. => none) = some 1 := by decide +kernel
  rw [hok] at hid
  obtain rfl : id = some 1 := hid
  obtain rfl : id' = some 2 := h.answer
  exact ⟨u, u', hok, hok', hu, hu', h⟩

end Parse

end InfraModule
