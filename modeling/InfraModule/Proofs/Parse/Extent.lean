import InfraModule.Parse.Declaration
import InfraModule.Proofs.Parse.Cursor

/-!
# What readers take

A reader of a value that succeeds has taken exactly what skipping would take, whatever it found and
reported on the way, and one that fails at a well-formed value has an excuse (`ParseM.Takes`). What
is read of the contents of a container ends with the container (`ParseM.ClosesAt`).
-/

namespace InfraModule

open ParseState ParseM

/-! ## Readers -/

namespace ParseM

variable {α β : Type} {setting : Setting} {s u : ParseState} {e : Event} {es : List Event}
  {container : Container}

/-- The reader takes nothing, and fails only by misusing the tree. -/
def Stays (m : ParseM α) : Prop :=
  ∀ setting s, Post m setting s (fun _ u => s.Stays u) fun error _ => ∃ te, error = .tree te

/-- The reader takes one value whenever it succeeds. -/
abbrev TakesAt (m : ParseM α) (setting : Setting) (s : ParseState) : Prop :=
  Post m setting s (fun _ u => s.Takes u) fun error _ => s.Excuses error

/-- The reader takes one value whenever it succeeds, wherever it starts. -/
def Takes (m : ParseM α) : Prop :=
  ∀ setting s, TakesAt m setting s

/-- The reader of the contents of a container closes the container whenever it succeeds. -/
abbrev ClosesAt (container : Container) (m : ParseM α) (setting : Setting) (s : ParseState) :
    Prop :=
  Post m setting s (fun _ u => s.Closes u) fun error _ => s.ExcusesContents container error

/-- To return a value takes nothing. -/
theorem Stays.pure (a : α) : Stays (Pure.pure a : ParseM α) := fun _ s =>
  ParseState.Stays.refl s

/-- Two readers in a row that take nothing take nothing. -/
theorem Stays.bind {m : ParseM α} {f : α → ParseM β} (hm : Stays m) (hf : ∀ a, Stays (f a)) :
    Stays (m >>= f) := fun setting s =>
  (hm setting s).bind fun a u hu => (hf a setting u).mono (fun _ _ hv => hu.trans hv) fun _ _ h => h

/-- What is built takes nothing. -/
theorem Stays.build (step : BuildM α) : Stays (build step) := by
  intro setting s
  rw [post_build]
  -- Whatever is built, the cursor is not touched.
  unfold Result.Post
  split
  · exact ⟨rfl, rfl⟩
  · exact ⟨_, rfl⟩

/-- To report takes nothing. -/
theorem Stays.report (message : String) (l : Location) : Stays (report message l) :=
  Stays.build _

/-- What a function makes of the result takes nothing more. -/
theorem Stays.map {m : ParseM α} (g : α → β) (hm : Stays m) : Stays (g <$> m) := by
  intro setting s
  rw [post_map]
  exact hm setting s

/-- A reader for each element of a list takes nothing if none of them does. -/
theorem Stays.forM {f : α → ParseM PUnit} (hf : ∀ a, Stays (f a)) (xs : List α) :
    Stays (xs.forM f) := by
  induction xs with
  | nil => exact Stays.pure PUnit.unit
  | cons x xs ih => exact (hf x).bind fun _ => ih

/-- Skipping takes one value. -/
theorem Takes.skip : Takes skip := by
  intro setting s
  rw [TakesAt, post_skip]
  split
  · next es h => exact ⟨h, rfl⟩
  · next es h =>
    -- A value that is there in full is skipped.
    refine fun lost rest hvalue => Or.inr ⟨rfl, ?_⟩
    rintro rfl
    rw [List.append_nil] at hvalue
    simp [hvalue.skipValue] at h

/-- What takes nothing may follow a value that was taken. -/
theorem Stays.after {m : ParseM α} (hm : Stays m) (hsu : s.Takes u) :
    Post m setting u (fun _ v => s.Takes v) fun error _ => s.Excuses error :=
  (hm setting u).mono (fun _ _ hv => hsu.trans_stays hv) fun _ _ h => excuses_of_tree h

/-- A reader that takes a value, and after it one that takes nothing, take one value. -/
theorem Takes.bind_stays {m : ParseM α} {f : α → ParseM β} (hm : Takes m)
    (hf : ∀ a, Stays (f a)) : Takes (m >>= f) := fun setting s =>
  (hm setting s).bind fun a _ hu => (hf a).after hu

/-- A reader that takes nothing, and after it one that takes a value, take one value. -/
theorem Stays.bind_takes {m : ParseM α} {f : α → ParseM β} (hm : Stays m)
    (hf : ∀ a, Takes (f a)) : Takes (m >>= f) := fun setting s =>
  post_bind.mpr <| (hm setting s).mono
    (fun a u hu =>
      (hf a setting u).mono (fun _ _ hv => hu.trans_takes hv) fun _ _ h => hu.excuses h)
    fun _ _ h => excuses_of_tree h

/-- A value that is refused is taken as a whole. -/
theorem Takes.refuse (message : String) : Takes (refuse message : ParseM (Option α)) := by
  intro setting s
  unfold ParseM.refuse
  refine post_bind_here excuses_of_nil fun e es hs => ?_
  exact (Stays.report message _).bind_takes
    (fun _ => Takes.skip.bind_stays fun _ => Stays.pure none) setting s

/-- A value that is too deep is taken as a whole. -/
theorem Takes.tooDeep : Takes (tooDeep : ParseM (Option α)) :=
  Takes.refuse _

/-- A reader that takes a scalar takes one value. -/
theorem takes_of_leaf (hs : s.events = e :: es) (he : e.kind.role = .leaf) :
    s.Takes { s with events := es } :=
  ⟨by rw [hs, Event.skipValue_cons_leaf he], rfl⟩

/-! ### Containers -/

/-- A loop of which each step takes an element comes to the end of its container, unless a step
gives up. `G` is what holds if one does. -/
theorem passes_foldUntilClose {σ : Type} {step : σ → ParseM (Option σ)} {G : Prop}
    (hstep : ∀ acc s, AtValue s → Post (step acc) setting s
      (fun r u => s.Turns container u ∧ (r = none → G))
      fun error _ => s.ExcusesElement container error) (acc : σ) :
    Post (foldUntilClose container step acc) setting s
      (fun r u => s.Passes container u ∧ (AtClose container u ∨ (r = none ∧ G)))
      fun error _ => s.ExcusesContents container error := by
  -- The invariant of the loop is that elements of the container have been passed.
  refine Result.Post.mono (post_foldUntilClose (I := fun (_ : σ) u => s.Passes container u)
    (G := fun u => s.Passes container u ∧ G) (E := fun error _ => s.ExcusesContents container error)
    (fun acc u hu hvalue => ?step) (fun acc u hu hclose hvalue error _ hnil => ?stuck) acc
    (ParseState.Passes.refl container s)) (fun r u hu => ?_) fun _ _ h => h
  case step =>
    refine (hstep acc u hvalue).mono (fun r v hv => ?_) fun _ _ h => h.contents hvalue hu
    obtain ⟨hturns, hr⟩ := hv
    have hpasses := hu.trans (hturns.passes hvalue)
    cases r with
    | some acc' => exact Or.inl ⟨acc', rfl, hpasses, hturns.length_lt hvalue⟩
    | none => exact Or.inr ⟨rfl, hpasses, hr rfl⟩
  case stuck => exact (excusesContents_of_stuck hclose hvalue hnil).passes hu
  rcases hu with ⟨acc', rfl, hpasses, hclose⟩ | ⟨rfl, hpasses, hG⟩
  · exact ⟨hpasses, Or.inl hclose⟩
  · exact ⟨hpasses, Or.inr ⟨rfl, hG⟩⟩

/-- Readers of one value each read the elements of a sequence. -/
theorem passes_collect {item : ParseM (Option α)} (hitem : Takes item) :
    Post (collect .sequence item) setting s
      (fun _ u => s.Passes .sequence u ∧ AtClose .sequence u)
      fun error _ => s.ExcusesContents .sequence error := by
  unfold collect
  refine (passes_foldUntilClose (G := False) (fun items u hu => ?_) _).bind fun r u hu => ?_
  · exact (hitem setting u).bind fun r v hv => ⟨hv, by simp⟩
  · exact ⟨hu.1, by simpa using hu.2⟩

/-- Readers that open a container and close it take one value. -/
theorem takes_nested {body : ParseM α} (hs : s.events = e :: es) (he : container.Starts e.kind)
    (hbody : ∀ u, ClosesAt container body setting u) : TakesAt (nested body) setting s := by
  rw [TakesAt, post_nested]
  exact (hbody _).mono (fun _ _ hu => hu.takes hs he.role) fun _ _ h => h.excuses hs he

/-- After its elements, the end of the container is taken. -/
theorem closes_closeFrom (start : Location) (h : s.Passes container u)
    (hclose : AtClose container u) : Post (closeFrom start) setting u (fun _ v => s.Closes v)
      fun error _ => s.ExcusesContents container error := by
  obtain ⟨e, es, hevents, he⟩ := hclose
  rw [post_closeFrom hevents]
  exact h.closes hevents he

end ParseM

namespace Parse

variable {α : Type} {setting : Setting} {s : ParseState} {container : Container}

/-- A key takes one value. If it is no scalar, it takes the value behind it as well. -/
theorem turns_key (setting : Setting) (s : ParseState) : Post key setting s
    (fun k u => (k.isSome = true ∧ s.Takes u) ∨ (k = none ∧ s.Turns .mapping u))
    fun error _ => s.ExcusesElement .mapping error := by
  unfold key
  refine post_bind_current (fun hnil => (excuses_of_nil hnil).key) fun e es hs => ?_
  -- Where the key is no scalar, it and the value behind it are skipped as one entry.
  have hskip (l : Location) : Post (do
      report "expected a literal key" l
      skip
      skip
      return none) setting s (fun (k : Option Key) u =>
        (k.isSome = true ∧ s.Takes u) ∨ (k = none ∧ s.Turns .mapping u))
      fun error _ => s.ExcusesElement .mapping error := by
    have hfirst : TakesAt (do report "expected a literal key" l; skip) setting s :=
      (Stays.report _ l).bind_takes (fun _ => Takes.skip) setting s
    refine Post.bind (f := fun _ => do skip; return none)
      (hfirst.mono_error fun _ _ h => h.key) fun _ u hu => ?_
    refine Post.bind ((Takes.skip setting u).mono_error fun _ _ h => h.value hu) fun _ v hv => ?_
    exact Or.inr ⟨rfl, u, hu, hv⟩
  cases hkind : e.kind with
  | scalar text tag =>
    have htakes : s.Takes { s with events := s.events.tail } := by
      rw [hs]
      exact takes_of_leaf hs (by rw [hkind]; rfl)
    refine post_bind_here (fun hnil => (excuses_of_nil hnil).key) fun _ _ _ => ?_
    exact Or.inl ⟨rfl, htakes⟩
  | _ => exact post_bind_here (fun hnil => (excuses_of_nil hnil).key) fun _ _ _ => hskip _

/-! ### Uninterpreted values -/

/-- An entry of an uninterpreted mapping takes a key and a value, and goes on with the next. -/
theorem turns_rawEntry {value : ParseM (Option RawValue)} (hvalue : Takes value)
    (entries : List (Key × RawValue)) : Post (rawEntry value entries) setting s
      (fun r u => s.Turns .mapping u ∧ (r = none → False))
      fun error _ => s.ExcusesElement .mapping error := by
  unfold rawEntry
  refine (turns_key setting s).bind fun k u hu => ?_
  -- A key that was skipped has taken its value with it.
  rcases hu with ⟨hk, hu⟩ | ⟨rfl, hu⟩
  · obtain ⟨k, rfl⟩ := Option.isSome_iff_exists.mp hk
    refine Post.bind ((hvalue setting u).mono_error fun _ _ h => h.value hu) fun r v hv => ?_
    have hturns : s.Turns .mapping v := ⟨u, hu, hv⟩
    cases r with
    | none => exact ⟨hturns, by simp⟩
    | some r => exact ⟨hturns, by simp⟩
  · exact ⟨hu, by simp⟩

/-- An uninterpreted value is taken as a whole, whatever depth is left. -/
theorem takes_rawValueWithin (levels : Nat) : Takes (rawValueWithin levels) := by
  induction levels using Nat.strongRecOn with
  | _ levels ih =>
    intro setting s
    unfold rawValueWithin
    refine post_bind_here excuses_of_nil fun e es hs => ?_
    rw [post_bind, post_current hs]
    cases hkind : e.kind with
    | scalar text tag =>
      rw [post_bind, post_advance, hs]
      exact takes_of_leaf hs (by rw [hkind]; rfl)
    | sequenceStart tag =>
      cases levels with
      | zero => exact Takes.tooDeep setting s
      | succ levels =>
        have hitem : Takes (rawValueWithin levels) := ih levels (Nat.lt_succ_self levels)
        have hstarts : Container.sequence.Starts e.kind := ⟨tag, hkind⟩
        refine takes_nested hs hstarts fun u => ?_
        refine (passes_collect hitem).bind fun items v hv => ?_
        exact (closes_closeFrom _ hv.1 hv.2).bind fun _ _ hw => hw
    | mappingStart tag =>
      cases levels with
      | zero => exact Takes.tooDeep setting s
      | succ levels =>
        have hvalue : Takes (rawValueWithin levels) := ih levels (Nat.lt_succ_self levels)
        have hstarts : Container.mapping.Starts e.kind := ⟨tag, hkind⟩
        refine takes_nested hs hstarts fun u => ?_
        refine (passes_foldUntilClose (fun entries v _ => turns_rawEntry hvalue entries) _).bind
          fun r v hv => ?_
        exact (closes_closeFrom _ hv.1 (by simpa using hv.2)).bind fun _ _ hw => hw
    | _ => exact Takes.refuse _ setting s

/-- A reader that depends on the levels that are left takes one value if it does for any number. -/
theorem takes_of_levels {m : Nat → ParseM α} (h : ∀ levels, Takes (m levels)) :
    Takes (levels >>= m) := by
  intro setting s
  rw [TakesAt, post_bind, post_levels]
  exact h _ setting s

/-- An uninterpreted value is taken as a whole. -/
theorem takes_rawValue : Takes rawValue :=
  takes_of_levels takes_rawValueWithin

/-! ### Literals, expressions and lists of texts -/

/-- A scalar is taken as a whole, also where it is none or cannot be converted. -/
theorem takes_scalar (message : String) (convert : String → Option Literal) :
    Takes (scalar message convert) := by
  intro setting s
  unfold scalar
  refine post_bind_current excuses_of_nil fun e es hs => ?_
  split
  · next text hkind =>
    cases convert text with
    | none => exact Takes.refuse message setting s
    | some literal =>
      refine post_bind_here excuses_of_nil fun _ _ _ => ?_
      rw [post_bind, post_advance, hs]
      exact ((Stays.build _).map some).after (takes_of_leaf hs (by rw [hkind]; rfl))
  · exact Takes.refuse message setting s

/-- An expression is taken as a whole, whatever depth is left. -/
theorem takes_expressionWithin (levels : Nat) : Takes (expressionWithin levels) := by
  refine (takes_rawValueWithin levels).bind_stays fun r => ?_
  cases r with
  | none => exact Stays.pure none
  | some r => exact Stays.build _

/-- A condition is taken as a whole, whatever depth is left. -/
theorem takes_conditionWithin (levels : Nat) : Takes (conditionWithin levels) := by
  refine (takes_rawValueWithin levels).bind_stays fun r => ?_
  cases r with
  | none => exact Stays.pure none
  | some r => exact Stays.build _

/-- A reader of an untagged container need take one value only where the container starts. -/
theorem takes_plain {body : ParseM (Option α)} (hbody : ∀ setting s e es, s.events = e :: es →
      container.Starts e.kind → TakesAt body setting s) : Takes (plain container body) := by
  intro setting s
  unfold plain atPlain
  rw [TakesAt, post_bind]
  refine post_bind_current excuses_of_nil fun e es hs => ?_
  rw [post_pure]
  -- Elsewhere the value is refused, which skips it.
  by_cases hkind : e.kind = container.plainStart
  · simp only [hkind, decide_true, if_true]
    exact hbody setting s e es hs (hkind ▸ container.starts_plainStart)
  · simp only [hkind, decide_false]
    exact Takes.refuse _ setting s

/-- A reader of an untagged container may look where it stands first. -/
theorem takes_plain_here {body : Location → ParseM (Option α)}
    (hbody : ∀ start setting s e es, s.events = e :: es → container.Starts e.kind →
      TakesAt (body start) setting s) : Takes (plain container (here >>= body)) := by
  refine takes_plain fun setting s e es hs he => ?_
  exact post_bind_here excuses_of_nil fun d _ _ => hbody _ setting s e es hs he

/-- A list of texts is taken as a whole, whatever depth is left. -/
theorem takes_stringListWithin (levels : Nat) : Takes (stringListWithin levels) := by
  refine takes_plain_here fun start setting s e es hs he => ?_
  cases levels with
  | zero => exact Takes.tooDeep setting s
  | succ levels =>
    refine Post.bind (takes_nested hs he fun u => ?_)
      fun items u hu => ((Stays.build _).map some).after hu
    refine (passes_collect (takes_scalar _ _)).bind fun items v hv => ?_
    exact (closes_closeFrom _ hv.1 hv.2).bind fun _ _ hw => hw

/-! ### Declarations -/

/-- The value of a known key is taken as a whole. -/
theorem takes_property {value : ValueReader} (hvalue : ∀ kind, Takes (value kind)) (draft : Draft)
    (known : Property) : Takes (property value draft known) := by
  refine (hvalue known.value).bind_stays fun id => ?_
  by_cases hkeyword : draft.kind.isKeyword known.key = true
  · simp only [hkeyword, if_true]
    cases id with
    | none => exact Stays.pure _
    | some id => exact Stays.pure _
  · simp only [hkeyword]
    exact Stays.pure _

/-- What is done for a key is to read or to skip its value. -/
theorem turns_entry {value : ValueReader} (hvalue : ∀ kind, Takes (value kind))
    (type : DeclarationType) (draft : Option Draft) : Post (entry type value draft) setting s
      (fun r u => s.Turns .mapping u ∧ (r = none → True))
      fun error _ => s.ExcusesElement .mapping error := by
  unfold entry
  refine (turns_key setting s).bind fun k u hu => ?_
  rcases hu with ⟨hk, hu⟩ | ⟨rfl, hu⟩
  · obtain ⟨k, rfl⟩ := Option.isSome_iff_exists.mp hk
    -- Behind a key one value remains to be taken, in whatever way.
    have hafter {m : ParseM (Option (Option Draft))} (hm : Takes m) : Post m setting u
        (fun r v => s.Turns .mapping v ∧ (r = none → True))
        fun error _ => s.ExcusesElement .mapping error :=
      (hm setting u).mono (fun _ _ hv => ⟨⟨u, hu, hv⟩, fun _ => trivial⟩) fun _ _ h => h.value hu
    have hskip (message : String) (r : Option (Option Draft)) :
        Takes (do report message k.location; skip; return r) :=
      (Stays.report message _).bind_takes fun _ => Takes.skip.bind_stays fun _ => Stays.pure r
    dsimp only
    split
    · exact hafter (hskip _ _)
    · next draft hdraft =>
      split
      · exact hafter (hskip _ _)
      · next known hknown =>
        split
        · exact hafter (hskip _ _)
        · exact hafter (takes_property hvalue draft known)
  · exact ⟨hu, fun _ => trivial⟩

/-- An entry that is skipped is a key and its value. -/
theorem turns_skipEntry : Post (do skip; skip; return some ()) setting s
    (fun r u => s.Turns .mapping u ∧ (r = none → False))
    fun error _ => s.ExcusesElement .mapping error := by
  refine Post.bind ((Takes.skip setting s).mono_error fun _ _ h => h.key) fun _ u hu => ?_
  refine Post.bind ((Takes.skip setting u).mono_error fun _ _ h => h.value hu) fun _ v hv => ?_
  exact ⟨⟨u, hu, hv⟩, by simp⟩

/-- The entries that are left are skipped up to the end of their mapping. -/
theorem passes_skipEntries : Post skipEntries setting s
    (fun _ u => s.Passes .mapping u ∧ AtClose .mapping u)
    fun error _ => s.ExcusesContents .mapping error := by
  unfold skipEntries
  exact post_map.mpr ((passes_foldUntilClose (fun _ u _ => turns_skipEntry) _).mono
    (fun r u hu => ⟨hu.1, by simpa using hu.2⟩) fun _ _ h => h)

/-- To report missing keys takes nothing. -/
theorem stays_reportMissing (keys : List String) (l : Location) : Stays (reportMissing keys l) := by
  unfold reportMissing
  split
  · exact Stays.pure _
  · exact Stays.report _ l

/-- To begin a declaration takes nothing. -/
theorem stays_emptyDraft (type : DeclarationType) (start : Location) :
    Stays (emptyDraft type start) := by
  unfold emptyDraft
  split
  · split
    · exact Stays.pure _
    · exact (stays_reportMissing _ start).bind fun _ => Stays.pure _
  · exact (Stays.report _ start).bind fun _ => Stays.pure _

/-- To bind properties takes nothing. -/
theorem stays_bindAll (id : NodeId) (values : List (String × NodeId)) : Stays (bindAll id values) :=
  Stays.forM (fun _ => (Stays.build _).map _) values

/-- To add the default version takes nothing. -/
theorem stays_addDefaultVersion (draft : Draft) (id : NodeId) (l : Location) :
    Stays (addDefaultVersion draft id l) := by
  unfold addDefaultVersion
  split
  · exact Stays.bind (fun _ s => ParseState.Stays.refl s) fun _ =>
      (Stays.build _).bind fun _ => stays_bindAll id _
  · exact Stays.pure _

/-- To complete a declaration takes nothing. -/
theorem stays_finish (draft : Draft) (start l : Location) : Stays (finish draft start l) := by
  refine (stays_reportMissing _ start).bind fun _ => ?_
  split
  · exact Stays.pure none
  · exact (Stays.build _).bind fun id => (stays_bindAll id _).bind fun _ =>
      (stays_addDefaultVersion draft id l).bind fun _ => Stays.pure _

/-- A declaration that has been given up skips the rest of its mapping; either way the mapping is
closed. -/
theorem closes_declarationBody {value : ValueReader} (hvalue : ∀ kind, Takes (value kind))
    (type : DeclarationType) (start : Location) :
    ClosesAt .mapping (declarationBody type value start) setting s := by
  unfold declarationBody
  refine Post.bind
    (passes_foldUntilClose (fun draft u _ => turns_entry hvalue type draft) none) fun r u hu => ?_
  obtain ⟨hpasses, hclose⟩ := hu
  cases r with
  | none =>
    refine Post.bind (passes_skipEntries.mono_error fun _ _ h => h.passes hpasses) fun _ v hv => ?_
    -- The loop that gave up and the one that skips are passes over the same mapping.
    obtain ⟨e, es, hevents, he⟩ := hv.2
    rw [post_bind, post_advance, hevents]
    exact (hpasses.trans hv.1).closes hevents he
  | some draft =>
    have hclose' : AtClose .mapping u := by simpa using hclose
    refine Post.bind (closes_closeFrom start hpasses hclose') fun l v hv => ?_
    -- Once the mapping is closed nothing more is taken.
    have hrest (m : ParseM (Option NodeId)) (hm : Stays m) : Post m setting v
        (fun _ w => s.Closes w) fun error _ => s.ExcusesContents .mapping error :=
      (hm setting v).mono (fun _ w hw => hv.trans_stays hw) fun _ _ h _ _ _ _ _ => Or.inl h
    cases draft with
    | some draft => exact hrest _ (stays_finish draft start l)
    | none =>
      refine hrest _ ((stays_emptyDraft type start).bind fun draft => ?_)
      cases draft with
      | none => exact Stays.pure none
      | some draft => exact stays_finish draft start l

/-! ### Lists of declarations -/

/-- To compare a name with those before it takes nothing. -/
theorem stays_uniqueName? (id : NodeId) : Stays (uniqueName? id) := by
  unfold uniqueName?
  refine Stays.bind (fun _ s => ParseState.Stays.refl s) fun state => ?_
  refine Stays.bind (fun _ s => ParseState.Stays.refl s) fun setting => ?_
  split
  · exact Stays.pure _
  · exact Stays.pure _

/-- An element takes one value and never gives up the list. -/
theorem turns_element {declaration : ParseM (Option NodeId)} (h : Takes declaration)
    (items : Items) : Post (element declaration items) setting s
      (fun r u => s.Turns .sequence u ∧ (r = none → False))
      fun error _ => s.ExcusesElement .sequence error := by
  unfold element
  refine Post.bind (h setting s) fun id u hu => ?_
  cases id with
  | none => exact ⟨hu, by simp⟩
  | some id =>
    refine Post.bind ((stays_uniqueName? id).after hu) fun name v hv => ?_
    cases name with
    | none => exact ⟨hv, by simp⟩
    | some name =>
      dsimp only
      split
      · exact ⟨⟨hv.events, hv.depth⟩, by simp⟩
      · exact ⟨hv, by simp⟩

/-- What is read of a list of declarations ends with the list. -/
theorem closes_listBody {declaration : ParseM (Option NodeId)} (h : Takes declaration)
    (start : Location) : ClosesAt .sequence (listBody declaration start) setting s := by
  unfold listBody
  refine Post.bind
    (passes_foldUntilClose (fun items u _ => turns_element h items) _) fun r u hu => ?_
  exact (closes_closeFrom start hu.1 (by simpa using hu.2)).bind fun _ _ hv => hv

/-! ### All shapes -/

/-- Values other than declarations and lists of them are read over their whole extent in any
case. -/
theorem takes_valueWithin_of_declarations {levels : Nat}
    (hdeclaration : ∀ type, Takes (valueWithin levels (.declaration type)))
    (hlist : ∀ type, Takes (valueWithin levels (.declarationList type))) (kind : ValueKind) :
    Takes (valueWithin levels kind) := by
  cases kind with
  | string | int | bool =>
    unfold valueWithin
    exact takes_scalar _ _
  | expression =>
    unfold valueWithin
    exact takes_expressionWithin levels
  | condition =>
    unfold valueWithin
    exact takes_conditionWithin levels
  | object | list =>
    unfold valueWithin
    exact takes_plain fun setting s e es hs he => takes_expressionWithin levels setting s
  | stringList =>
    unfold valueWithin
    exact takes_stringListWithin levels
  | declaration type => exact hdeclaration type
  | declarationList type => exact hlist type

/-- Whatever the shape, a value of the schema table is read over its whole extent. -/
theorem takes_valueWithin (levels : Nat) (kind : ValueKind) : Takes (valueWithin levels kind) := by
  induction levels generalizing kind with
  | zero =>
    have hdeep {container : Container} :
        Takes (plain container do let _ ← here; (tooDeep : ParseM (Option NodeId))) :=
      takes_plain_here fun _ setting s _ _ _ _ => Takes.tooDeep setting s
    refine takes_valueWithin_of_declarations (fun type => ?_) (fun type => ?_) kind
    · exact hdeep
    · exact hdeep
  | succ levels ih =>
    refine takes_valueWithin_of_declarations (fun type => ?declaration) (fun type => ?list) kind
    case declaration =>
      refine takes_plain_here fun start setting s e es hs he => ?_
      exact takes_nested hs he fun u => closes_declarationBody ih type start
    case list =>
      refine takes_plain_here fun start setting s e es hs he => ?_
      refine Post.bind (takes_nested hs he fun u =>
        closes_listBody (ih (.declaration type)) start) fun r u hu => ?_
      exact ((Stays.build _).map some).after hu

/-- A value of any kind is taken as a whole. -/
theorem takes_valueOf (kind : ValueKind) : Takes (valueOf kind) :=
  takes_of_levels fun levels => takes_valueWithin levels kind

end Parse

end InfraModule
