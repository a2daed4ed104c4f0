import InfraModule.Proofs.Parse.Meter
import InfraModule.Proofs.Parse.Progress

/-!
# Termination

The events that readers take pay for all that is counted (`Metered.Pays`): a turn of a loop is paid
for by the first event that it takes, and an opened container by the event that starts it. So what
is done for a list of events, well-formed or not, is bounded by the number of events, whatever the
limit on nesting is.
-/

namespace InfraModule

open ParseM

/-! ## What is counted -/

namespace Metered

variable {m n : Nat} {x y z : Metered}

/-- The events taken from one state to another pay for what is counted between them, with so many to
spare. -/
structure Pays (x : Metered) (n : Nat) (y : Metered) : Prop where
  /-- What is left is the end of what there was. -/
  suffix : y.events <:+ x.events
  /-- The events to spare are gone. -/
  length : y.events.length + n ≤ x.events.length
  /-- Each turn is paid for, and there are events to spare. -/
  turns : y.turns + y.events.length + n ≤ x.turns + x.events.length
  /-- Each container that was opened is paid for. -/
  opened : y.opened + y.events.length ≤ x.opened + x.events.length
  /-- What was open at a time was open before or is paid for. -/
  deepest : y.deepest ≤ max x.deepest (x.depth + x.events.length)
  /-- What is open was open before or is paid for. -/
  depth : y.depth + y.events.length ≤ x.depth + x.events.length

/-- Where nothing happens nothing is owed. -/
theorem Pays.refl (x : Metered) : x.Pays 0 x where
  suffix := List.suffix_rfl
  length := Nat.le_refl _
  turns := Nat.le_refl _
  opened := Nat.le_refl _
  deepest := Nat.le_max_left _ _
  depth := Nat.le_refl _

/-- Payments of two runs in a row add up. -/
theorem Pays.trans (h : x.Pays m y) (h' : y.Pays n z) : x.Pays (m + n) z where
  suffix := h'.suffix.trans h.suffix
  length := by have := h.length; have := h'.length; omega
  turns := by have := h.turns; have := h'.turns; omega
  opened := by have := h.opened; have := h'.opened; omega
  deepest := by have := h.deepest; have := h'.deepest; have := h.depth; omega
  depth := by have := h.depth; have := h'.depth; omega

/-- To have less to spare is always possible. -/
theorem Pays.of_le (h : x.Pays m y) (hn : n ≤ m) : x.Pays n y :=
  { h with
    length := by have := h.length; omega
    turns := by have := h.turns; omega }

/-- What only takes events has them to spare. -/
theorem pays_of_consumes {u : ParseState} (h : x.toParseState.Consumes n u) :
    x.Pays n { x with toParseState := u } := by
  have hlength := h.length
  have hdepth := h.depth
  refine ⟨h.suffix, h.length, ?_, ?_, Nat.le_max_left _ _, ?_⟩
  all_goals dsimp only; omega

/-- The first event that a turn takes pays for the turn. -/
theorem Pays.of_tick (h : Pays { x with turns := x.turns + 1 } 1 y) : x.Pays 0 y :=
  { h with
    length := by have := h.length; dsimp only at this; omega
    turns := by have := h.turns; dsimp only at this; omega }

/-- The event that starts a container pays for opening it. -/
theorem Pays.of_nested {e : Event} {es : List Event} (hx : x.events = e :: es)
    (h : Pays { x with
      events := x.events.tail
      depth := x.depth + 1
      opened := x.opened + 1
      deepest := max x.deepest (x.depth + 1) } 0 y) : x.Pays 1 y := by
  obtain ⟨hsuffix, hlength, hturns, hopened, hdeepest, hdepth⟩ := h
  simp only [hx, List.tail_cons] at hsuffix hlength hturns hopened hdeepest hdepth
  refine ⟨hx ▸ hsuffix.trans (List.suffix_cons e es), ?_, ?_, ?_, ?_, ?_⟩
  all_goals rw [hx, List.length_cons]; omega

/-- Closing what was opened costs nothing. -/
theorem Pays.close (h : x.Pays n y) : x.Pays n { y with depth := y.depth - 1 } :=
  { h with depth := by have := h.depth; dsimp only; omega }

end Metered

namespace MeterM

open ParseState

variable {α β σ : Type} {n : Nat} {setting : Setting} {x : Metered} {container : Container}

/-- Whatever comes of the reader, `P` holds of the state that it leaves. -/
abbrev Ends (m : MeterM α) (setting : Setting) (x : Metered) (P : Metered → Prop) : Prop :=
  Result.Post (m setting) x (fun _ y => P y) fun _ y => P y

/-- The events that the reader takes pay for what it counts. -/
def Pays (m : MeterM α) : Prop :=
  ∀ setting x, Ends m setting x (x.Pays 0)

/-- The events that the reader takes pay for what it counts, and what is offered is to spare. -/
abbrev SavesAt (m : MeterM α) (setting : Setting) (x : Metered) : Prop :=
  ∀ n, x.Offers n → Ends m setting x (x.Pays n)

/-- At a value, the reader has an event to spare, even if it fails. -/
def Saves (m : MeterM α) : Prop :=
  ∀ setting x, SavesAt m setting x

/-- Of two counting readers in a row, the condition on the second is what the first has to reach. -/
theorem post_bind {m : MeterM α} {f : α → MeterM β} {Q : β → Metered → Prop}
    {E : ParseError → Metered → Prop} : Result.Post ((m >>= f) setting) x Q E ↔
      Result.Post (m setting) x (fun a y => Result.Post (f a setting) y Q E) E :=
  Result.post_bind

/-- A change of the state is judged by the state that it leaves. -/
theorem post_modify {g : Metered → Metered} {Q : PUnit → Metered → Prop}
    {E : ParseError → Metered → Prop} :
    Result.Post ((modify g : MeterM PUnit) setting) x Q E ↔ Q ⟨⟩ (g x) := Iff.rfl

/-- A reader with an event to spare pays for what it counts. -/
theorem Saves.pays {m : MeterM α} (hm : Saves m) : Pays m := fun setting x =>
  hm setting x 0 (offers_zero _)

/-- To return a value costs nothing. -/
theorem Pays.pure (a : α) : Pays (Pure.pure a : MeterM α) := fun _ x => Metered.Pays.refl x

/-- What was spared before a reader that pays for itself is still to spare after it. -/
theorem Pays.after {m : MeterM α} (hm : Pays m) {y : Metered} (h : x.Pays n y) :
    Ends m setting y (x.Pays n) :=
  (hm setting y).mono (fun _ _ hz => h.trans hz) fun _ _ hz => h.trans hz

/-- Two readers in a row that pay for what they count pay together. -/
theorem Pays.bind {m : MeterM α} {f : α → MeterM β} (hm : Pays m) (hf : ∀ a, Pays (f a)) :
    Pays (m >>= f) := fun setting x =>
  post_bind.mpr ((hm setting x).mono (fun a _ hy => (hf a).after hy) fun _ _ hy => hy)

/-- What the first of two readers spares is to spare if the second pays for itself. -/
theorem SavesAt.bind_pays {m : MeterM α} {f : α → MeterM β} (hm : SavesAt m setting x)
    (hf : ∀ a, Pays (f a)) : SavesAt (m >>= f) setting x := fun n hx =>
  post_bind.mpr ((hm n hx).mono (fun a _ hy => (hf a).after hy) fun _ _ hy => hy)

/-- A reader with an event to spare has it still when one follows that pays for itself. -/
theorem Saves.bind_pays {m : MeterM α} {f : α → MeterM β} (hm : Saves m)
    (hf : ∀ a, Pays (f a)) : Saves (m >>= f) := fun setting x =>
  (hm setting x).bind_pays hf

/-- A reader without loops leaves the counts as they are. -/
theorem post_free {m : ParseM α} {Q : α → Metered → Prop} {E : ParseError → Metered → Prop} :
    Result.Post (free m setting) x Q E ↔ Post m setting x.toParseState
      (fun a u => Q a { x with toParseState := u })
      fun e u => E e { x with toParseState := u } := by
  unfold free Post Result.Post
  dsimp only
  cases m setting x.toParseState <;> rfl

/-- A reader without loops that does not go back has nothing to pay for. -/
theorem Pays.free {m : ParseM α} (hm : Recedes m) : Pays (free m) := fun setting x =>
  post_free.mpr ((hm setting x.toParseState).mono (fun _ _ hu => Metered.pays_of_consumes hu)
    fun _ _ hu => Metered.pays_of_consumes hu)

/-- A reader without loops that takes an event has it to spare. -/
theorem Saves.free {m : ParseM α} (hm : Consumes m) : Saves (free m) := fun setting x n hx =>
  post_free.mpr ((hm n setting x.toParseState hx).mono
    (fun _ _ hu => Metered.pays_of_consumes hu) fun _ _ hu => Metered.pays_of_consumes hu)

/-- A reader may look at the cursor first. -/
theorem Saves.here {f : Location → MeterM α}
    (hf : ∀ l setting x e es, x.events = e :: es → SavesAt (f l) setting x) :
    Saves (MeterM.free here >>= f) := by
  intro setting x n hx
  rw [Ends, post_bind, post_free]
  rcases x.nil_or_cons with hnil | ⟨e, es, hevents⟩
  · refine (post_here_of_nil hnil).mpr ?_
    exact Metered.pays_of_consumes (hx.consumes_self hnil)
  · exact (post_here hevents).mpr (hf _ setting x e es hevents n hx)

/-- An opened container is paid for by the event that starts it. -/
theorem savesAt_nested {body : MeterM α} (hbody : Pays body) {e : Event} {es : List Event}
    (hx : x.events = e :: es) : SavesAt (nested body) setting x := by
  intro n hn
  unfold nested
  refine Result.Post.mono (Q := fun _ y => x.Pays 1 y) (E := fun _ y => x.Pays 1 y) ?_
    (fun _ _ hy => hy.of_le hn.le_one) fun _ _ hy => hy.of_le hn.le_one
  rw [post_bind, post_modify, post_bind, post_free, post_advance, post_bind]
  refine (hbody setting _).mono (fun a y hy => ?_) fun _ y hy => Metered.Pays.of_nested hx hy
  exact (Metered.Pays.of_nested hx hy).close

section Loops

variable {step : σ → MeterM (Option σ)} (hstep : ∀ acc, Saves (step acc))

include hstep

/-- Each turn is begun at a value only, so it is paid for by an event that it takes. -/
theorem pays_foldWithin (turns : List Event) (acc : σ) :
    Pays (foldWithin container step turns acc) := by
  induction turns generalizing acc with
  | nil => exact fun _ x => Metered.Pays.refl x
  | cons turn turns ih =>
    intro setting x
    unfold foldWithin
    rw [Ends, post_bind, post_free]
    refine post_atClose (fun _ => ?_) (fun hvalue => ?_) fun _ _ _ _ _ => Metered.Pays.refl x
    · exact Metered.Pays.refl x
    · simp only [Bool.false_eq_true, if_false]
      rw [post_bind, tick, post_modify, post_bind]
      have hturn := hstep acc setting { x with turns := x.turns + 1 } 1 (offers_one hvalue)
      refine hturn.mono (fun answer y hy => ?_) fun _ y hy => hy.of_tick
      cases answer with
      | none => exact hy.of_tick
      | some acc => exact (ih acc).after hy.of_tick

/-- A loop pays for its turns if each turn has an event to spare. -/
theorem pays_foldUntilClose (acc : σ) : Pays (foldUntilClose container step acc) :=
  fun setting x => pays_foldWithin hstep x.events acc setting x

end Loops

/-- Collecting the elements of a container pays for its turns if reading an element spares an
event. -/
theorem pays_collect {item : MeterM (Option α)} (hitem : Saves item) :
    Pays (collect container item) :=
  (pays_foldUntilClose (fun _ => hitem.bind_pays fun _ => Pays.pure _) _).bind fun _ =>
    Pays.pure _

end MeterM

/-! ## Counting copies -/

namespace Meter

open MeterM Parse

variable {α : Type} {setting : Setting} {x : Metered} {container : Container}

/-- An uninterpreted entry spares the event of its key. -/
theorem saves_rawEntry {value : MeterM (Option RawValue)} (hvalue : Pays value)
    (entries : List (Key × RawValue)) : Saves (rawEntry value entries) := by
  unfold rawEntry
  refine (Saves.free consumes_key).bind_pays fun k => ?_
  cases k with
  | none => exact Pays.pure _
  | some k =>
    refine hvalue.bind fun r => ?_
    cases r with
    | none => exact Pays.pure _
    | some r => exact Pays.pure _

/-- The span of a container's end and the answer for the container cost nothing. -/
theorem pays_closeFrom {β : Type} (start : Location) (answer : Location → β) :
    Pays (do return answer (← free (closeFrom start))) :=
  (Pays.free (Recedes.closeFrom start)).bind fun _ => Pays.pure _

/-- An uninterpreted value has an event to spare, whatever depth is left. -/
theorem saves_rawValueWithin (levels : Nat) : Saves (rawValueWithin levels) := by
  induction levels using Nat.strongRecOn with
  | _ levels ih =>
    unfold rawValueWithin
    refine Saves.here fun start setting x e es hevents n hx => ?_
    rw [MeterM.Ends, MeterM.post_bind, post_free, post_current hevents]
    cases e.kind with
    | scalar text tag =>
      rw [MeterM.post_bind, post_free, post_advance]
      exact Metered.pays_of_consumes (hx.consumes_tail hevents)
    | sequenceStart tag =>
      cases levels with
      | zero => exact Saves.free Consumes.tooDeep setting x n hx
      | succ levels =>
        have hitems : Pays (collect .sequence (rawValueWithin levels)) :=
          pays_collect (ih levels (Nat.lt_succ_self levels))
        exact savesAt_nested (hitems.bind fun items => pays_closeFrom start _) hevents n hx
    | mappingStart tag =>
      cases levels with
      | zero => exact Saves.free Consumes.tooDeep setting x n hx
      | succ levels =>
        have hentry := saves_rawEntry (ih levels (Nat.lt_succ_self levels)).pays
        have hentries : Pays (foldUntilClose .mapping (rawEntry (rawValueWithin levels)) []) :=
          pays_foldUntilClose hentry []
        exact savesAt_nested (hentries.bind fun entries => pays_closeFrom start _) hevents n hx
    | _ => exact Saves.free (Consumes.refuse _) setting x n hx

/-- An expression has an event to spare, whatever depth is left. -/
theorem saves_expressionWithin (levels : Nat) : Saves (expressionWithin levels) := by
  refine (saves_rawValueWithin levels).bind_pays fun r => ?_
  cases r with
  | none => exact Pays.pure none
  | some r => exact Pays.free (Recedes.build _)

/-- A condition has an event to spare, whatever depth is left. -/
theorem saves_conditionWithin (levels : Nat) : Saves (conditionWithin levels) := by
  refine (saves_rawValueWithin levels).bind_pays fun r => ?_
  cases r with
  | none => exact Pays.pure none
  | some r => exact Pays.free (Recedes.build _)

/-- A plain container has an event to spare if its body has. -/
theorem saves_plain {body : MeterM (Option α)} (hbody : Saves body) :
    Saves (plain container body) := by
  intro setting x n hx
  unfold plain atPlain
  rw [MeterM.Ends, MeterM.post_bind, post_free, ParseM.post_bind]
  rcases x.nil_or_cons with hnil | ⟨e, es, hevents⟩
  · exact (post_current_of_nil hnil).mpr (Metered.pays_of_consumes (hx.consumes_self hnil))
  · rw [post_current hevents, post_pure]
    split
    · exact hbody setting x n hx
    · exact Saves.free (Consumes.refuse _) setting x n hx

/-- A list of texts has an event to spare, whatever depth is left. -/
theorem saves_stringListWithin (levels : Nat) : Saves (stringListWithin levels) := by
  refine saves_plain (Saves.here fun start setting x e es hevents => ?_)
  cases levels with
  | zero => exact Saves.free Consumes.tooDeep setting x
  | succ levels =>
    have hitems : Pays (collect .sequence (free string)) :=
      pays_collect (Saves.free (consumes_scalar _ _))
    exact (savesAt_nested (hitems.bind fun items => pays_closeFrom start _) hevents).bind_pays
      fun list => Pays.free ((Recedes.build _).map some)

/-- The value of a known key pays for what is counted if values do. -/
theorem pays_property {value : ValueReader} (hvalue : ∀ kind, Saves (value kind)) (draft : Draft)
    (known : Property) : Pays (property value draft known) := by
  refine (hvalue known.value).pays.bind fun id => ?_
  dsimp only
  split
  · cases id with
    | none => exact Pays.pure none
    | some id => exact Pays.pure _
  · exact Pays.pure _

/-- The key pays for an entry; its value pays for itself. -/
theorem saves_entry {value : ValueReader} (hvalue : ∀ kind, Saves (value kind))
    (type : DeclarationType) (draft : Option Draft) : Saves (entry type value draft) := by
  unfold entry
  refine (Saves.free consumes_key).bind_pays fun k => ?_
  cases k with
  | none => exact Pays.pure _
  | some k =>
    have hskip (message : String) (r : Option (Option Draft)) :
        Pays (free do report message k.location; skip; return r) :=
      Pays.free ((Recedes.build _).bind fun _ =>
        Consumes.skip.recedes.bind fun _ => Recedes.pure r)
    dsimp only
    split
    · exact hskip _ _
    · next draft hdraft =>
      split
      · exact hskip _ _
      · next known hknown =>
        split
        · exact hskip _ _
        · exact pays_property hvalue draft known

/-- An entry that is skipped takes an event. -/
theorem consumes_skipEntry : Consumes (do skip; skip; return some ()) :=
  Consumes.skip.bind_recedes fun _ => Consumes.skip.recedes.bind fun _ => Recedes.pure _

/-- Skipping the entries that are left pays for its turns. -/
theorem pays_skipEntries : Pays skipEntries := fun setting x =>
  Result.post_map.mpr (pays_foldUntilClose (fun _ => Saves.free consumes_skipEntry) () setting x)

/-- The body of a declaration pays for what is counted if values spare an event. -/
theorem pays_declarationBody {value : ValueReader} (hvalue : ∀ kind, Saves (value kind))
    (type : DeclarationType) (start : Location) : Pays (declarationBody type value start) := by
  unfold declarationBody
  refine (pays_foldUntilClose (saves_entry hvalue type) none).bind fun r => ?_
  cases r with
  | none =>
    exact pays_skipEntries.bind fun _ => (Pays.free Recedes.advance).bind fun _ => Pays.pure none
  | some draft =>
    refine (Pays.free (Recedes.closeFrom start)).bind fun location => ?_
    cases draft with
    | some draft => exact Pays.free (recedes_finish draft start location)
    | none =>
      refine (Pays.free (recedes_emptyDraft type start)).bind fun draft => ?_
      cases draft with
      | none => exact Pays.pure none
      | some draft => exact Pays.free (recedes_finish draft start location)

/-- An element of a list has an event to spare if a declaration has. -/
theorem saves_element {declaration : MeterM (Option NodeId)} (h : Saves declaration)
    (items : Items) : Saves (element declaration items) :=
  h.bind_pays fun id => Pays.free (recedes_element id items)

/-- A list of declarations pays for what is counted if declarations spare an event. -/
theorem pays_listBody {declaration : MeterM (Option NodeId)} (h : Saves declaration)
    (start : Location) : Pays (listBody declaration start) :=
  (pays_foldUntilClose (saves_element h) {}).bind fun _ => pays_closeFrom start _

/-- Whatever the shape, the events of a value pay for all that is done to read it. -/
theorem saves_valueWithin (levels : Nat) (kind : ValueKind) : Saves (valueWithin levels kind) := by
  -- By induction on the levels; a declaration and a list of declarations open one each.
  induction levels using Nat.strongRecOn generalizing kind with
  | _ levels ih =>
    cases kind with
    | string | int | bool =>
      unfold valueWithin
      exact Saves.free (consumes_scalar _ _)
    | expression =>
      unfold valueWithin
      exact saves_expressionWithin levels
    | condition =>
      unfold valueWithin
      exact saves_conditionWithin levels
    | object | list =>
      unfold valueWithin
      exact saves_plain (saves_expressionWithin levels)
    | stringList =>
      unfold valueWithin
      exact saves_stringListWithin levels
    | declaration type =>
      unfold valueWithin
      refine saves_plain (Saves.here fun start setting x e es hevents => ?_)
      cases levels with
      | zero => exact Saves.free Consumes.tooDeep setting x
      | succ levels =>
        have hbody := pays_declarationBody (ih levels (Nat.lt_succ_self levels)) type start
        exact savesAt_nested hbody hevents
    | declarationList type =>
      unfold valueWithin
      refine saves_plain (Saves.here fun start setting x e es hevents => ?_)
      cases levels with
      | zero => exact Saves.free Consumes.tooDeep setting x
      | succ levels =>
        have hbody := pays_listBody (ih levels (Nat.lt_succ_self levels) (.declaration type)) start
        exact (savesAt_nested hbody hevents).bind_pays fun list =>
          Pays.free ((Recedes.build _).map some)

/-- A reader that is asked for pays for what is counted, whatever levels are left. -/
theorem pays_atLevels {reader : Nat → MeterM (Option α)} (h : ∀ levels, Saves (reader levels)) :
    Pays (atLevels reader) :=
  Pays.bind (Pays.free fun _ s => ParseState.Consumes.refl s) fun levels =>
    (h levels).pays.bind fun _ => Pays.pure _

/-- The events that a request takes pay for all that is done for it. -/
theorem pays_perform (request : Request) : Pays (perform request) := by
  have hscalar (message : String) (convert : String → Option Literal) :
      Recedes (given (scalar message convert)) := (consumes_scalar message convert).recedes.map _
  cases request with
  | declaration type => exact pays_atLevels fun levels => saves_valueWithin levels _
  | declarationList type => exact pays_atLevels fun levels => saves_valueWithin levels _
  | valueOf kind => exact pays_atLevels fun levels => saves_valueWithin levels kind
  | expression => exact pays_atLevels saves_expressionWithin
  | condition => exact pays_atLevels saves_conditionWithin
  | stringList => exact pays_atLevels saves_stringListWithin
  | rawValue => exact pays_atLevels saves_rawValueWithin
  | string | int | bool => exact Pays.free (hscalar _ _)
  | key => exact Pays.free (consumes_key.recedes.map _)
  | start | finishDocument =>
    exact Pays.free (((Recedes.expect _).bind fun _ => Recedes.expect _).map some)

end Meter

/-! ## Loops and requests -/

namespace Parse

open MeterM

variable {σ : Type} {setting : Setting} {s : ParseState} {container : Container}
  {step : σ → ParseM (Option σ)}

/-- The loops of readers: over which container they go, and what they do in a turn. -/
inductive Loop : Container → (σ : Type) → (σ → ParseM (Option σ)) → Prop
  /-- The entries of a declaration. -/
  | entries (type : DeclarationType) (levels : Nat) :
    Loop .mapping _ (entry type (valueWithin levels))
  /-- The elements of a list of declarations. -/
  | elements (type : DeclarationType) (levels : Nat) :
    Loop .sequence _ (element (valueWithin levels (.declaration type)))
  /-- The items of a list of texts. -/
  | texts : Loop .sequence _ fun texts => do return some (texts ++ (← string).toList)
  /-- The items of an uninterpreted sequence. -/
  | rawItems (levels : Nat) :
    Loop .sequence _ fun items => do return some (items ++ (← rawValueWithin levels).toList)
  /-- The entries of an uninterpreted mapping. -/
  | rawEntries (levels : Nat) : Loop .mapping _ (rawEntry (rawValueWithin levels))
  /-- The entries that are skipped when a declaration has been given up. -/
  | skipped : Loop .mapping Unit fun _ => do
      skip
      skip
      return some ()

/-- What a counting copy takes of a value, the reader takes. -/
theorem length_lt_of_saves {α : Type} {m : MeterM α} {reader : ParseM α} (hm : Saves m)
    (he : Erases m reader) (hs : AtValue s) :
    (Result.final (reader setting s)).events.length < s.events.length := by
  have hpays := Result.post_final.mp (hm setting { s with } 1 (ParseState.offers_one hs))
  have hlength := hpays.length
  rw [← he setting { s with }]
  cases h : m setting { s with } with
  | ok a y =>
    rw [h] at hlength
    exact hlength
  | error e y =>
    rw [h] at hlength
    exact hlength

/-- A turn of a loop takes an event, even if it fails. -/
theorem Loop.length_lt (h : Loop container σ step) (acc : σ) (hs : AtValue s) :
    (Result.final (step acc setting s)).events.length < s.events.length := by
  have hitem {α : Type} {m : MeterM (Option α)} {reader : ParseM (Option α)} (hm : Saves m)
      (he : Erases m reader) (items : List α) : (Result.final
        ((do return some (items ++ (← reader).toList) : ParseM (Option (List α))) setting
          s)).events.length < s.events.length :=
    length_lt_of_saves (hm.bind_pays fun _ => Pays.pure _)
      (he.bind fun r => Erases.pure (some (items ++ r.toList))) hs
  cases h with
  | entries type levels =>
    exact length_lt_of_saves (Meter.saves_entry (Meter.saves_valueWithin levels) type acc)
      (Meter.erases_entry (Meter.erases_valueWithin levels) type acc) hs
  | elements type levels =>
    exact length_lt_of_saves (Meter.saves_element (Meter.saves_valueWithin levels _) acc)
      (Meter.erases_element (Meter.erases_valueWithin levels _) acc) hs
  | texts => exact hitem (Saves.free (consumes_scalar _ _)) (Erases.free _) acc
  | rawItems levels =>
    exact hitem (Meter.saves_rawValueWithin levels) (Meter.erases_rawValueWithin levels) acc
  | rawEntries levels =>
    exact length_lt_of_saves (Meter.saves_rawEntry (Meter.saves_rawValueWithin levels).pays acc)
      (Meter.erases_rawEntry (Meter.erases_rawValueWithin levels) acc) hs
  | skipped => exact length_lt_of_saves (Saves.free Meter.consumes_skipEntry) (Erases.free _) hs

/-- Reading ends, whatever the events are. A loop is the one without a count of its turns, and each
turn takes an event or more even if it fails; what a container holds is read where the event that
starts it is gone; and no request goes back. So for any request the turns of loops, the containers
that are opened and the depth to which calls are nested are bounded by the events that it takes. -/
theorem terminates (setting : Setting) :
    (∀ (container : Container) (σ : Type) (step : σ → ParseM (Option σ)),
      Loop container σ step → ∀ (acc : σ) (s : ParseState),
        foldUntilClose container step acc setting s = (do
          if ← atClose container then
            return some acc
          match ← step acc with
          | some acc => foldUntilClose container step acc
          | none => return none : ParseM (Option σ)) setting s ∧
        ∀ u, atClose container setting s = .ok false u →
          (Result.final (step acc setting u)).events.length < s.events.length) ∧
    (∀ (α : Type) (body body' : ParseM α) (s : ParseState), s.events ≠ [] →
      (∀ u, u.events.length < s.events.length → body setting u = body' setting u) →
        nested body setting s = nested body' setting s) ∧
    ∀ (request : Request) (s : ParseState),
      let result := Meter.perform request setting { s with }
      let u := Result.final result
      erase result = request.perform setting s ∧
      u.events <:+ s.events ∧
      u.turns + u.events.length ≤ s.events.length ∧
      u.opened + u.events.length ≤ s.events.length ∧
      u.deepest ≤ s.depth + s.events.length := by
  refine ⟨fun container σ step hloop acc s => ⟨?_, fun u hu => ?_⟩, ?_, fun request s => ?_⟩
  · exact foldUntilClose_eq (fun acc s hs => hloop.length_lt acc hs) acc s
  · obtain ⟨rfl, hvalue⟩ := atValue_of_atClose hu
    exact hloop.length_lt acc hvalue
  · exact fun α body body' s hs h => nested_congr hs h
  · have hpays := Result.post_final.mp (Meter.pays_perform request setting { s with })
    have hturns := hpays.turns
    have hopened := hpays.opened
    have hdeepest := hpays.deepest
    refine ⟨Meter.erases_perform request setting { s with }, hpays.suffix, ?_, ?_, ?_⟩
    · simpa using hturns
    · simpa using hopened
    · simpa using hdeepest

/-- Of a module whose list of items is closed at the wrong place, three turns of loops and three
containers are read, nested in each other, for the six events before that place. -/
theorem terminates_unbalanced :
    let events := [.mappingStart none, .scalar "Module" none, .scalar "m" none,
      .scalar "Items" none, .sequenceStart none, .mappingStart none,
      EventKind.sequenceEnd].map (Event.mk · default default)
    let u := Result.final
      (Meter.perform (.declaration (.concrete .module)) ⟨"m.yml", {}⟩ { events })
    (u.turns = 3 ∧ u.opened = 3 ∧ u.deepest = 3 ∧ u.events.length = 1) ∧
      u.turns + u.events.length ≤ events.length := by
  intro events
  have hbounds := (terminates ⟨"m.yml", {}⟩).2.2 (.declaration (.concrete .module)) { events }
  refine ⟨by decide +kernel, ?_⟩
  generalize Meter.perform _ _ _ = result at hbounds ⊢
  exact hbounds.2.2.1

end Parse

end InfraModule
