import InfraModule.Error
import InfraModule.Event.Skip
import InfraModule.Options
import InfraModule.Resolve

/-!
# Reading from events

A reader takes values off the front of a list of events, builds nodes for them and reports mistakes.
This module holds what all readers share: the state that they change, the event at the cursor,
skipping, the limit on nesting, and the loop over what a container holds.

The limit is passed down as the number of `levels` that may still be opened, so that readers recurse
on it; the state counts those that are open. Each turn of the loop over a container takes at least
one event, so it has a turn for each event that is left: when the turns are used up, so are the
events.
-/

namespace InfraModule

/-- What stays the same while a document is read. -/
structure Setting where
  /-- The file that holds the document. -/
  file : String
  /-- The choices of how to read it. -/
  options : Options := {}

/-- How far a document has been read. -/
structure ParseState where
  /-- The events not yet taken; the cursor is at the first. -/
  events : List Event
  /-- What has been built. -/
  build : Build := {}
  /-- How many containers and declarations are open. -/
  depth : Nat := 0

/-- Readers. A failure keeps the state that it found. -/
abbrev ParseM := ReaderT Setting (EStateM ParseError ParseState)

/-- The two kinds of container. -/
inductive Container where
  | mapping
  | sequence
  deriving DecidableEq

namespace Container

/-- The container in words. -/
def name : Container → String
  | .mapping => "map"
  | .sequence => "sequence"

/-- The event that starts the container when it has no tag. -/
def plainStart : Container → EventKind
  | .mapping => .mappingStart none
  | .sequence => .sequenceStart none

/-- The event that ends the container. -/
def close : Container → EventKind
  | .mapping => .mappingEnd
  | .sequence => .sequenceEnd

end Container

namespace ParseM

/-! ## What is built -/

/-- Does a step of building. -/
def build {α : Type} (step : BuildM α) : ParseM α := fun _ ⟨events, build, depth⟩ =>
  match step build with
  | .ok answer build => .ok answer ⟨events, build, depth⟩
  | .error error build => .error (.tree error) ⟨events, build, depth⟩

/-- Adds a node. -/
def add (node : Node) (location : Location) : ParseM NodeId :=
  build (.onTree (.add node location))

/-- Reports an error at a place of the document. -/
def report (message : String) (location : Location) : ParseM Unit :=
  build (.report message location)

/-! ## The cursor -/

/-- The event at the cursor; there must be one. -/
def current : ParseM Event := do
  match (← get).events with
  | e :: _ => return e
  | [] => throw .unexpectedEnd

/-- The span of the event at the cursor. -/
def here : ParseM Location := do
  return (← current).location (← read).file

/-- Takes the event at the cursor, if there is one. -/
def advance : ParseM Unit :=
  modify fun state => { state with events := state.events.tail }

/-- Skips the value at the cursor. -/
def skip : ParseM Unit := do
  let state ← get
  match Event.skipValue state.events with
  | .ok events => set { state with events }
  | .error events =>
    set { state with events }
    throw .unexpectedEnd

/-- Reports the value at the cursor and skips it, so that nothing is read. -/
def refuse {α : Type} (message : String) : ParseM (Option α) := do
  report message (← here)
  skip
  return none

/-- Takes an event that must be of a given kind. -/
def expect (kind : EventKind) : ParseM Unit := do
  let e ← current
  unless e.kind = kind do
    throw (.unexpectedEvent kind e.kind e.start)
  advance

/-! ## Nesting -/

/-- How many levels may still be opened. -/
def levels : ParseM Nat := do
  return (← read).options.maxDepth - (← get).depth

/-- Refuses a value that would need a level more than there are. -/
def tooDeep {α : Type} : ParseM (Option α) :=
  refuse "maximum nesting depth exceeded"

/-- Takes the start of a container and reads what follows one level deeper. -/
def nested {α : Type} (body : ParseM α) : ParseM α := do
  modify fun state => { state with depth := state.depth + 1 }
  advance
  let answer ← body
  modify fun state => { state with depth := state.depth - 1 }
  return answer

/-! ## Containers -/

/-- Whether the end of a container is at the cursor. The end of another kind of container fails, and
so does the frame of a document. -/
def atClose (container : Container) : ParseM Bool := do
  let e ← current
  match e.kind.role with
  | .closing =>
    if e.kind = container.close then return true
    else throw (.unexpectedEvent container.close e.kind e.start)
  | .framing => throw .unexpectedEnd
  | .leaf | .opening => return false

/-- Steps until the end of a container is at the cursor, at most once for each of the given events.
-/
def foldWithin {σ : Type} (container : Container) (step : σ → ParseM (Option σ)) :
    List Event → σ → ParseM (Option σ)
  | [], _ => throw .unexpectedEnd
  | _ :: turns, acc => do
    if ← atClose container then
      return some acc
    match ← step acc with
    | some acc => foldWithin container step turns acc
    | none => return none

/-- Steps until the end of a container is at the cursor, or until a step gives up. Each step must
take at least one event. -/
def foldUntilClose {σ : Type} (container : Container) (step : σ → ParseM (Option σ)) (acc : σ) :
    ParseM (Option σ) := do
  foldWithin container step (← get).events acc

/-- All that `item` reads up to the end of a container, in order. -/
def collect {α : Type} (container : Container) (item : ParseM (Option α)) : ParseM (List α) := do
  let items ← foldUntilClose container (fun items => do return some (items ++ (← item).toList)) []
  return items.getD []

/-- The span from the start of a container through its end, which is taken. -/
def closeFrom (start : Location) : ParseM Location := do
  let location := start.through (← here)
  advance
  return location

end ParseM

end InfraModule
