import InfraModule.Event

/-!
# Skipping a value

Skipping drops a scalar, or a container with all that it holds up to its end. The end of the
container around the cursor and the framing of documents are left in place, so that skipping never
leaves the construct that it started in. Containers are told apart by count, not by kind.
-/

namespace InfraModule.Event

/-- Drops events up to the end of the innermost `depth` open containers. Where the events run out,
or framing comes first, the error is what was left to read at that point. -/
def skipOpen : Nat → List Event → Except (List Event) (List Event)
  | 0, events => .ok events
  | _ + 1, [] => .error []
  | depth + 1, e :: events =>
    match e.kind.role with
    | .leaf => skipOpen (depth + 1) events
    | .opening => skipOpen (depth + 2) events
    | .closing => skipOpen depth events
    | .framing => .error (e :: events)

/-- Drops the value that the events start with. -/
def skipValue : List Event → Except (List Event) (List Event)
  | [] => .error []
  | e :: events =>
    match e.kind.role with
    | .leaf => .ok events
    | .opening => skipOpen 1 events
    | .closing => .ok (e :: events)
    | .framing => .ok (e :: events)

/-- The events left after skipping, whether or not it failed. -/
def afterSkip (events : List Event) : List Event :=
  match skipValue events with
  | .ok rest => rest
  | .error rest => rest

end InfraModule.Event
