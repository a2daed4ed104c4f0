import InfraModule.Proofs.Parse.Session

/-!
# Counting readers

Each reader that loops, or calls itself for what a container holds, has a counting copy here
(`Meter`). The copies do what the readers do, and count the turns of their loops and the containers
that they open, and keep the most that were open at a time. All other readers are taken as they are
(`MeterM.free`). Forgetting the counts gives the readers back (`MeterM.Erases`), so that what holds
of the counts holds of the readers.
-/

namespace InfraModule

open ParseM

/-- A state of reading, with what it took to come to it. -/
structure Metered extends ParseState where
  /-- The turns of loops that were begun. -/
  turns : Nat := 0
  /-- The containers that were opened; what each holds is read by a nested call. -/
  opened : Nat := 0
  /-- The most containers that were open at a time. -/
  deepest : Nat := 0

/-- Readers that count. -/
abbrev MeterM := ReaderT Setting (EStateM ParseError Metered)

namespace MeterM

variable {α β σ : Type}

/-- A reader that has no loops and opens nothing. -/
def free (m : ParseM α) : MeterM α := fun setting x =>
  match m setting x.toParseState with
  | .ok a u => .ok a { x with toParseState := u }
  | .error e u => .error e { x with toParseState := u }

/-- Counts a turn of a loop. -/
def tick : MeterM Unit :=
  modify fun x => { x with turns := x.turns + 1 }

/-- Counts a container that is opened and reads what it holds. -/
def nested (body : MeterM α) : MeterM α := do
  modify fun x => { x with
    depth := x.depth + 1
    opened := x.opened + 1
    deepest := max x.deepest (x.depth + 1) }
  free advance
  let answer ← body
  modify fun x => { x with depth := x.depth - 1 }
  return answer

/-- The loop over a container, with each turn counted that its end does not stop. -/
def foldWithin (container : Container) (step : σ → MeterM (Option σ)) :
    List Event → σ → MeterM (Option σ)
  | [], _ => throw .unexpectedEnd
  | _ :: turns, acc => do
    if ← free (atClose container) then
      return some acc
    tick
    match ← step acc with
    | some acc => foldWithin container step turns acc
    | none => return none

/-- The loop over a container. -/
def foldUntilClose (container : Container) (step : σ → MeterM (Option σ)) (acc : σ) :
    MeterM (Option σ) := do
  foldWithin container step (← get).events acc

/-- All that `item` reads up to the end of a container, in order. -/
def collect (container : Container) (item : MeterM (Option α)) : MeterM (List α) := do
  let items ← foldUntilClose container (fun items => do return some (items ++ (← item).toList)) []
  return items.getD []

end MeterM

/-! ## Counting copies -/

namespace Meter

open MeterM Parse

/-- A counting copy of a reader of the shapes in the schema table. -/
abbrev ValueReader := ValueKind → MeterM (Option NodeId)

/-- One entry of a mapping. -/
def rawEntry (value : MeterM (Option RawValue)) (entries : List (Key × RawValue)) :
    MeterM (Option (List (Key × RawValue))) := do
  let some key ← free key | return some entries
  let some value ← value | return some entries
  return some (entries ++ [(key, value)])

/-- An uninterpreted value. -/
def rawValueWithin (levels : Nat) : MeterM (Option RawValue) := do
  let start ← free here
  match (← free current).kind with
  | .scalar text tag =>
    free advance
    return some (.scalar tag start text)
  | .sequenceStart tag =>
    match levels with
    | 0 => free tooDeep
    | levels + 1 =>
      nested do
        let items ← collect .sequence (rawValueWithin levels)
        return some (.sequence tag (← free (closeFrom start)) items)
  | .mappingStart tag =>
    match levels with
    | 0 => free tooDeep
    | levels + 1 =>
      nested do
        let entries ← foldUntilClose .mapping (rawEntry (rawValueWithin levels)) []
        return some (.mapping tag (← free (closeFrom start)) (entries.getD []))
  | _ => free (refuse "expected a map, sequence, or literal")

/-- A value with a meaning. -/
def expressionWithin (levels : Nat) : MeterM (Option NodeId) := do
  let some value ← rawValueWithin levels | return none
  free (build (Resolve.value value))

/-- A condition. -/
def conditionWithin (levels : Nat) : MeterM (Option NodeId) := do
  let some value ← rawValueWithin levels | return none
  free (build (Resolve.condition value))

/-- An untagged container. -/
def plain {α : Type} (container : Container) (body : MeterM (Option α)) : MeterM (Option α) := do
  if ← free (atPlain container) then body
  else free (refuse s!"expected a {container.name}")

/-- A list of texts. -/
def stringListWithin (levels : Nat) : MeterM (Option NodeId) :=
  plain .sequence do
    let start ← free here
    match levels with
    | 0 => free tooDeep
    | _ + 1 =>
      let (items, location) ← nested do
        let items ← collect .sequence (free string)
        return (items, ← free (closeFrom start))
      free (some <$> add (.collection items) location)

/-- The value of a key that belongs to the draft's kind. -/
def property (value : ValueReader) (draft : Draft) (property : Property) :
    MeterM (Option (Option Draft)) := do
  let id ← value property.value
  let draft := { draft with seen := property.key :: draft.seen }
  if draft.kind.isKeyword property.key then
    match id with
    | some id => return some (some { draft with keyword := some id })
    | none => return none
  else
    return some (some { draft with values := draft.values ++ (id.map (property.key, ·)).toList })

/-- One entry of a declaration's mapping. -/
def entry (type : DeclarationType) (value : ValueReader) (draft : Option Draft) :
    MeterM (Option (Option Draft)) := do
  let some key ← free key | return some draft
  match draft <|> (type.resolveFirst key.text).map ({ kind := · }) with
  | none =>
    free do
      report s!"unexpected item keyword '{key.text}'" key.location
      skip
      return none
  | some draft =>
    match draft.kind.property? key.text with
    | none =>
      free do
        report s!"unexpected key '{key.text}'" key.location
        skip
        return some (some draft)
    | some known =>
      if known.key ∈ draft.seen then
        free do
          report s!"duplicate key '{key.text}'" key.location
          skip
          return some (some draft)
      else
        property value draft known

/-- Skips the entries up to the end of a mapping. -/
def skipEntries : MeterM Unit :=
  discard <| foldUntilClose .mapping
    (fun _ => free do
      skip
      skip
      return some ()) ()

/-- A declaration whose mapping has been opened. -/
def declarationBody (type : DeclarationType) (value : ValueReader) (start : Location) :
    MeterM (Option NodeId) := do
  match ← foldUntilClose .mapping (entry type value) none with
  | none =>
    skipEntries
    free advance
    return none
  | some draft =>
    let location ← free (closeFrom start)
    let draft ← match draft with
      | some draft => pure (some draft)
      | none => free (emptyDraft type start)
    match draft with
    | some draft => free (finish draft start location)
    | none => return none

/-- One element of a list of declarations. -/
def element (declaration : MeterM (Option NodeId)) (items : Items) : MeterM (Option Items) := do
  free (Parse.element (pure (← declaration)) items)

/-- A list of declarations whose sequence has been opened, and its span. -/
def listBody (declaration : MeterM (Option NodeId)) (start : Location) :
    MeterM (List NodeId × Location) := do
  let items ← foldUntilClose .sequence (element declaration) {}
  return ((items.getD {}).ids, ← free (closeFrom start))

/-- A value of the schema table with at most `levels` containers nested in each other. -/
def valueWithin (levels : Nat) : ValueReader
  | .string => free string
  | .int => free int
  | .bool => free bool
  | .expression => expressionWithin levels
  | .condition => conditionWithin levels
  | .object => plain .mapping (expressionWithin levels)
  | .list => plain .sequence (expressionWithin levels)
  | .stringList => stringListWithin levels
  | .declaration type =>
    plain .mapping do
      let start ← free here
      match levels with
      | 0 => free tooDeep
      | levels + 1 => nested (declarationBody type (valueWithin levels) start)
  | .declarationList type =>
    plain .sequence do
      let start ← free here
      match levels with
      | 0 => free tooDeep
      | levels + 1 =>
        let (items, location) ← nested (listBody (valueWithin levels (.declaration type)) start)
        free (some <$> add (.collection items) location)

/-- A reader at the number of levels that may still be opened. -/
def atLevels {α : Type} (reader : Nat → MeterM (Option α)) : MeterM (Option Unit) := do
  let answer ← reader (← free levels)
  return answer.map fun _ => ()

/-- Does what a request asks for. -/
def perform : Request → MeterM (Option Unit)
  | .declaration type => atLevels fun levels => valueWithin levels (.declaration type)
  | .declarationList type => atLevels fun levels => valueWithin levels (.declarationList type)
  | .valueOf kind => atLevels fun levels => valueWithin levels kind
  | .expression => atLevels expressionWithin
  | .condition => atLevels conditionWithin
  | .stringList => atLevels stringListWithin
  | .rawValue => atLevels rawValueWithin
  | request => free request.perform

end Meter

/-! ## Forgetting the counts -/

namespace MeterM

variable {α β σ : Type} {container : Container}

/-- A result without the counts. -/
def erase : EStateM.Result ParseError Metered α → EStateM.Result ParseError ParseState α
  | .ok a x => .ok a x.toParseState
  | .error e x => .error e x.toParseState

/-- Without its counts, the counting reader is the reader. -/
def Erases (m : MeterM α) (reader : ParseM α) : Prop :=
  ∀ setting x, erase (m setting x) = reader setting x.toParseState

namespace Erases

variable {m : MeterM α} {r : ParseM α}

/-- To return a value counts nothing. -/
theorem pure (a : α) : Erases (Pure.pure a) (Pure.pure a) := fun _ _ => rfl

/-- To fail counts nothing. -/
theorem throw (e : ParseError) :
    Erases (throwThe ParseError e : MeterM α) (throwThe ParseError e) := fun _ _ => rfl

/-- A reader without loops is its own copy. -/
theorem free (r : ParseM α) : Erases (free r) r := by
  intro setting x
  unfold MeterM.free
  cases r setting x.toParseState <;> rfl

/-- Two copies in a row are a copy of the two readers in a row. -/
theorem bind {f : α → MeterM β} {g : α → ParseM β} (hm : Erases m r)
    (hf : ∀ a, Erases (f a) (g a)) : Erases (m >>= f) (r >>= g) := by
  intro setting x
  have hfirst := hm setting x
  change erase ((m setting >>= fun a => f a setting) x)
    = (r setting >>= fun a => g a setting) x.toParseState
  cases h : m setting x with
  | ok a y =>
    rw [h] at hfirst
    rw [Result.bind_of_ok h, Result.bind_of_ok hfirst.symm]
    exact hf a setting y
  | error e y =>
    rw [h] at hfirst
    rw [Result.bind_of_error h, Result.bind_of_error hfirst.symm]
    rfl

/-- What a reader does with its answer costs nothing. -/
theorem map (hm : Erases m r) (f : α → β) : Erases (do return f (← m)) (f <$> r) := by
  rw [map_eq_pure_bind]
  exact hm.bind fun a => pure (f a)

/-- A copy whose answer is dropped is a copy of the reader whose answer is dropped. -/
theorem discard (hm : Erases m r) : Erases (discard m) (discard r) := by
  change Erases ((fun _ => ()) <$> m) ((fun _ => ()) <$> r)
  rw [map_eq_pure_bind]
  exact hm.map _

/-- Copies of both branches make a copy of the choice. -/
theorem ite {c : Prop} [Decidable c] {m' : MeterM α} {r' : ParseM α} (h : Erases m r)
    (h' : Erases m' r') : Erases (if c then m else m') (if c then r else r') := by
  split
  · exact h
  · exact h'

/-- Counting a turn does nothing else. -/
theorem tick {f : Unit → MeterM α} (hf : Erases (f ()) r) : Erases (tick >>= f) r :=
  fun setting x => hf setting { x with turns := x.turns + 1 }

/-- A nested copy is a copy of the nested reader. -/
theorem nested {body : MeterM α} (hbody : Erases body r) : Erases (nested body) (ParseM.nested r) := by
  unfold MeterM.nested ParseM.nested
  refine bind (fun _ _ => rfl) fun _ => (free advance).bind fun _ => hbody.bind fun a => ?_
  exact bind (fun _ _ => rfl) fun _ => pure a

/-! ### Loops -/

section Loops

variable {step : σ → MeterM (Option σ)} {reader : σ → ParseM (Option σ)}
  (hstep : ∀ acc, Erases (step acc) (reader acc))

include hstep

/-- A loop of so many turns is copied turn by turn. -/
theorem foldWithin (turns : List Event) (acc : σ) :
    Erases (foldWithin container step turns acc)
      (ParseM.foldWithin container reader turns acc) := by
  induction turns generalizing acc with
  | nil => exact throw _
  | cons turn turns ih =>
    unfold MeterM.foldWithin ParseM.foldWithin
    refine (free _).bind fun closed => ?_
    cases closed with
    | true => exact pure _
    | false =>
      refine tick ((hstep acc).bind fun answer => ?_)
      cases answer with
      | none => exact pure _
      | some acc => exact ih acc

/-- A loop is copied turn by turn. -/
theorem foldUntilClose (acc : σ) :
    Erases (foldUntilClose container step acc)
      (ParseM.foldUntilClose container reader acc) :=
  fun setting x => foldWithin hstep x.events acc setting x

end Loops

/-- Collecting the elements of a container is copied element by element. -/
theorem collect {item : MeterM (Option α)} {r : ParseM (Option α)} (hitem : Erases item r) :
    Erases (collect container item) (ParseM.collect container r) :=
  (foldUntilClose (fun _ => hitem.bind fun _ => pure _) _).bind fun _ => pure _

end Erases

end MeterM

namespace Meter

open MeterM Parse

variable {α : Type} {container : Container}

/-- The copy for uninterpreted entries is one of their reader. -/
theorem erases_rawEntry {value : MeterM (Option RawValue)} {reader : ParseM (Option RawValue)}
    (hvalue : Erases value reader) (entries : List (Key × RawValue)) :
    Erases (rawEntry value entries) (Parse.rawEntry reader entries) := by
  unfold rawEntry Parse.rawEntry
  refine (Erases.free _).bind fun k => ?_
  cases k with
  | none => exact Erases.pure _
  | some k =>
    refine hvalue.bind fun r => ?_
    cases r with
    | none => exact Erases.pure _
    | some r => exact Erases.pure _

/-- The copy for uninterpreted values is one of their reader. -/
theorem erases_rawValueWithin (levels : Nat) :
    Erases (rawValueWithin levels) (Parse.rawValueWithin levels) := by
  induction levels using Nat.strongRecOn with
  | _ levels ih =>
    unfold rawValueWithin Parse.rawValueWithin
    refine (Erases.free _).bind fun start => (Erases.free _).bind fun e => ?_
    cases e.kind with
    | scalar text tag => exact (Erases.free _).bind fun _ => Erases.pure _
    | sequenceStart tag =>
      cases levels with
      | zero => exact Erases.free _
      | succ levels =>
        have hitem := ih levels (Nat.lt_succ_self levels)
        exact Erases.nested (hitem.collect.bind fun items =>
          (Erases.free _).bind fun location => Erases.pure _)
    | mappingStart tag =>
      cases levels with
      | zero => exact Erases.free _
      | succ levels =>
        have hentry := erases_rawEntry (ih levels (Nat.lt_succ_self levels))
        exact Erases.nested ((Erases.foldUntilClose hentry _).bind fun entries =>
          (Erases.free _).bind fun location => Erases.pure _)
    | _ => exact Erases.free _

/-- The copy for expressions is one of their reader. -/
theorem erases_expressionWithin (levels : Nat) :
    Erases (expressionWithin levels) (Parse.expressionWithin levels) := by
  refine (erases_rawValueWithin levels).bind fun r => ?_
  cases r with
  | none => exact Erases.pure none
  | some r => exact Erases.free _

/-- The copy for conditions is one of their reader. -/
theorem erases_conditionWithin (levels : Nat) :
    Erases (conditionWithin levels) (Parse.conditionWithin levels) := by
  refine (erases_rawValueWithin levels).bind fun r => ?_
  cases r with
  | none => exact Erases.pure none
  | some r => exact Erases.free _

/-- The copy for plain containers is one of their reader. -/
theorem erases_plain {body : MeterM (Option α)} {reader : ParseM (Option α)}
    (hbody : Erases body reader) : Erases (plain container body) (Parse.plain container reader) := by
  refine (Erases.free _).bind fun found => ?_
  cases found with
  | true => exact hbody
  | false => exact Erases.free _

/-- The copy for lists of texts is one of their reader. -/
theorem erases_stringListWithin (levels : Nat) :
    Erases (stringListWithin levels) (Parse.stringListWithin levels) := by
  refine erases_plain ((Erases.free _).bind fun start => ?_)
  cases levels with
  | zero => exact Erases.free _
  | succ levels =>
    have hlist : Erases (collect .sequence (free Parse.string))
        (ParseM.collect .sequence Parse.string) := (Erases.free _).collect
    exact (Erases.nested (hlist.bind fun items =>
      (Erases.free _).bind fun location => Erases.pure _)).bind fun list => Erases.free _

/-- The copy for values of known keys is one of their reader. -/
theorem erases_property {value : ValueReader} {reader : Parse.ValueReader}
    (hvalue : ∀ kind, Erases (value kind) (reader kind)) (draft : Draft) (known : Property) :
    Erases (property value draft known) (Parse.property reader draft known) := by
  refine (hvalue known.value).bind fun id => ?_
  refine Erases.ite ?_ (Erases.pure _)
  cases id with
  | none => exact Erases.pure none
  | some id => exact Erases.pure _

/-- The copy for entries of declarations is one of their reader. -/
theorem erases_entry {value : ValueReader} {reader : Parse.ValueReader}
    (hvalue : ∀ kind, Erases (value kind) (reader kind)) (type : DeclarationType)
    (draft : Option Draft) :
    Erases (entry type value draft) (Parse.entry type reader draft) := by
  unfold entry Parse.entry
  refine (Erases.free _).bind fun k => ?_
  cases k with
  | none => exact Erases.pure _
  | some k =>
    dsimp only
    cases draft <|> (type.resolveFirst k.text).map fun kind => { kind : Draft } with
    | none => exact Erases.free _
    | some draft =>
      dsimp only
      cases draft.kind.property? k.text with
      | none => exact Erases.free _
      | some known => exact Erases.ite (Erases.free _) (erases_property hvalue draft known)

/-- The copy for entries that are skipped is one of their reader. -/
theorem erases_skipEntries : Erases skipEntries Parse.skipEntries :=
  (Erases.foldUntilClose (fun _ => Erases.free _) _).discard

/-- The copy for the body of a declaration is one of its reader. -/
theorem erases_declarationBody {value : ValueReader} {reader : Parse.ValueReader}
    (hvalue : ∀ kind, Erases (value kind) (reader kind)) (type : DeclarationType)
    (start : Location) :
    Erases (declarationBody type value start) (Parse.declarationBody type reader start) := by
  unfold declarationBody Parse.declarationBody
  refine (Erases.foldUntilClose (erases_entry hvalue type) none).bind fun r => ?_
  cases r with
  | none => exact erases_skipEntries.bind fun _ => (Erases.free _).bind fun _ => Erases.pure none
  | some draft =>
    refine (Erases.free _).bind fun location => ?_
    cases draft with
    | some draft => exact Erases.free _
    | none =>
      refine (Erases.free _).bind fun draft => ?_
      cases draft with
      | none => exact Erases.pure none
      | some draft => exact Erases.free _

/-- The copy for elements of a list of declarations is one of their reader. -/
theorem erases_element {declaration : MeterM (Option NodeId)}
    {reader : ParseM (Option NodeId)} (h : Erases declaration reader) (items : Items) :
    Erases (element declaration items) (Parse.element reader items) := by
  have hbind : Parse.element reader items
      = reader >>= fun id => Parse.element (Pure.pure id) items := by
    unfold Parse.element
    rfl
  rw [hbind]
  exact h.bind fun id => Erases.free _

/-- The copy for lists of declarations is one of their reader. -/
theorem erases_listBody {declaration : MeterM (Option NodeId)}
    {reader : ParseM (Option NodeId)} (h : Erases declaration reader) (start : Location) :
    Erases (listBody declaration start) (Parse.listBody reader start) :=
  (Erases.foldUntilClose (erases_element h) _).bind fun _ =>
    (Erases.free _).bind fun _ => Erases.pure _

/-- The copies of the readers of all shapes give the readers back. -/
theorem erases_valueWithin (levels : Nat) (kind : ValueKind) :
    Erases (valueWithin levels kind) (Parse.valueWithin levels kind) := by
  -- By induction on the levels, as the readers are defined.
  induction levels using Nat.strongRecOn generalizing kind with
  | _ levels ih =>
    cases kind with
    | string | int | bool =>
      unfold valueWithin Parse.valueWithin
      exact Erases.free _
    | expression =>
      unfold valueWithin Parse.valueWithin
      exact erases_expressionWithin levels
    | condition =>
      unfold valueWithin Parse.valueWithin
      exact erases_conditionWithin levels
    | object | list =>
      unfold valueWithin Parse.valueWithin
      exact erases_plain (erases_expressionWithin levels)
    | stringList =>
      unfold valueWithin Parse.valueWithin
      exact erases_stringListWithin levels
    | declaration type =>
      unfold valueWithin Parse.valueWithin
      refine erases_plain ((Erases.free _).bind fun start => ?_)
      cases levels with
      | zero => exact Erases.free _
      | succ levels =>
        exact (erases_declarationBody (ih levels (Nat.lt_succ_self levels)) type start).nested
    | declarationList type =>
      unfold valueWithin Parse.valueWithin
      refine erases_plain ((Erases.free _).bind fun start => ?_)
      cases levels with
      | zero => exact Erases.free _
      | succ levels =>
        have hitem := ih levels (Nat.lt_succ_self levels) (.declaration type)
        exact (erases_listBody hitem start).nested.bind fun list => Erases.free _

/-- The copy that starts with all levels that are left is one of the request's reader, which gives a
node or none. -/
theorem erases_atLevels {reader : Nat → MeterM (Option α)} {r : Nat → ParseM (Option α)}
    (h : ∀ levels, Erases (reader levels) (r levels)) :
    Erases (atLevels reader) (given (levels >>= r)) := by
  unfold atLevels given
  rw [map_bind]
  refine (Erases.free _).bind fun levels => (h levels).map _

/-- The copy of what a request asks for gives it back. -/
theorem erases_perform (request : Request) : Erases (perform request) request.perform := by
  cases request with
  | declaration type => exact erases_atLevels fun levels => erases_valueWithin levels _
  | declarationList type => exact erases_atLevels fun levels => erases_valueWithin levels _
  | valueOf kind => exact erases_atLevels fun levels => erases_valueWithin levels kind
  | expression => exact erases_atLevels erases_expressionWithin
  | condition => exact erases_atLevels erases_conditionWithin
  | stringList => exact erases_atLevels erases_stringListWithin
  | rawValue => exact erases_atLevels erases_rawValueWithin
  | start | string | int | bool | key | finishDocument => exact Erases.free _

end Meter

end InfraModule
