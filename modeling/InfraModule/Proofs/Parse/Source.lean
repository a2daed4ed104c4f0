import InfraModule.Parse.Value
import InfraModule.Proofs.Event.Source
import InfraModule.Proofs.Parse.Basic

/-!
# Steps on the events of a value

Where the events of a value are ahead, whatever follows them, the single steps of reading go past
it: a literal key is taken, and a value that is refused, or an entry whose key is no scalar, is told
and skipped. What is told comes behind what was told before (`Build.tell`).
-/

namespace InfraModule

/-- The span in a file. -/
def Span.location (span : Span) (file : String) : Location :=
  ⟨file, span.start, span.stop⟩

/-- An event over a span stands there. -/
@[simp] theorem Event.location_over (span : Span) (kind : EventKind) (file : String) :
    (Event.over span kind).location file = span.location file := rfl

/-- What was built, with diagnostics told after those before. -/
def Build.tell (b : Build) (ds : List Diagnostic) : Build :=
  { b with diagnostics := ⟨b.diagnostics.messages ++ ds.toArray⟩ }

namespace Build

variable {b : Build} {ds ds' : List Diagnostic}

/-- To tell nothing changes nothing. -/
@[simp] theorem tell_nil : b.tell [] = b := by
  simp [tell]

/-- What is told in two parts is told in one. -/
@[simp] theorem tell_tell : (b.tell ds).tell ds' = b.tell (ds ++ ds') := by
  simp [tell]

/-- To record an error is to tell it behind what was told before. -/
theorem tell_error (message : String) (l : Location) :
    { b with diagnostics := b.diagnostics.error message l } = b.tell [⟨.error, message, l⟩] := by
  simp [tell, Diagnostics.error, Diagnostics.push]

end Build

namespace Source

/-- Whether the value is a scalar. -/
def isScalar : Source → Bool
  | .scalar .. => true
  | _ => false

/-- The text of a scalar; a container has none. -/
def text : Source → String
  | .scalar _ _ text => text
  | _ => ""

/-- The span of the first event. -/
def first : Source → Span
  | .scalar span .. => span
  | .sequence first .. => first
  | .mapping first .. => first

/-- The value as a key. -/
def key (file : String) (a : Source) : Key :=
  ⟨a.text, a.first.location file⟩

/-- A mistake that is told where the value starts. -/
def mistake (a : Source) (file message : String) : Diagnostic :=
  ⟨.error, message, a.first.location file⟩

/-- The events of a value start with one that stands on its first span. -/
theorem exists_events (a : Source) : ∃ kind es, a.events = .over a.first kind :: es := by
  cases a with
  | scalar | sequence | mapping => exact ⟨_, _, by rw [events, first]⟩

end Source

namespace ParseM

variable {α σ : Type} {setting : Setting} {s u : ParseState} {b : Build} {depth : Nat}
  {c : Event} {rest : List Event} {container : Container}

/-- A reader that can only do one thing does it. -/
theorem eq_ok_of_post {m : ParseM α} {a : α}
    (h : Post m setting s (fun a' u' => a' = a ∧ u' = u) fun _ _ => False) :
    m setting s = .ok a u := by
  obtain ⟨_, _, hok, rfl, rfl⟩ := h.exists_ok fun _ _ h => h
  exact hok

/-- Where the first of two readers succeeds, the second goes on from there. -/
theorem bind_of_run {m : ParseM α} {f : α → ParseM σ} {a : α} (h : m setting s = .ok a u) :
    (m >>= f) setting s = f a setting u :=
  Result.bind_of_ok h

/-- To report is to tell the error behind what was told before. -/
theorem report_eq_ok (message : String) (l : Location) :
    report message l setting ⟨rest, b, depth⟩
      = .ok () ⟨rest, b.tell [⟨.error, message, l⟩], depth⟩ :=
  eq_ok_of_post (post_report.mpr ⟨rfl, by rw [Build.tell_error]⟩)

/-- Where the events of a value are ahead, a value is at the cursor. -/
theorem atValue_events (a : Source) (rest : List Event) (b : Build) (depth : Nat) :
    AtValue ⟨a.events ++ rest, b, depth⟩ :=
  (a.value rest).exists_cons

/-- Skipping the events of a value leaves what follows them. -/
theorem skip_events (a : Source) : skip setting ⟨a.events ++ rest, b, depth⟩
    = .ok () ⟨rest, b, depth⟩ :=
  skip_of_skipValue (a.value rest).skipValue

/-- A value that is refused is told and skipped. -/
theorem refuse_events (message : String) (a : Source) :
    (refuse message : ParseM (Option α)) setting ⟨a.events ++ rest, b, depth⟩
      = .ok none ⟨rest, b.tell [a.mistake setting.file message], depth⟩ := by
  obtain ⟨kind, es, hevents⟩ := a.exists_events
  have hhere : here setting ⟨a.events ++ rest, b, depth⟩
      = .ok (a.first.location setting.file) ⟨a.events ++ rest, b, depth⟩ := by
    refine eq_ok_of_post ((post_here (by rw [hevents]; rfl)).mpr ⟨?_, rfl⟩)
    rw [Event.location_over]
  exact (bind_of_run hhere).trans ((bind_of_run (report_eq_ok message _)).trans
    (bind_of_run (skip_events a)))

end ParseM

namespace Parse

open ParseM Source

variable {setting : Setting} {b : Build} {depth : Nat} {rest : List Event}

/-- A scalar is taken as a key. -/
theorem key_scalar {a : Source} (ha : a.isScalar = true) :
    Parse.key setting ⟨a.events ++ rest, b, depth⟩
      = .ok (some (a.key setting.file)) ⟨rest, b, depth⟩ := by
  cases a with
  | scalar span tag text =>
    refine eq_ok_of_post ?_
    unfold Parse.key
    rw [post_bind, post_current rfl]
    exact ⟨rfl, rfl⟩
  | sequence | mapping => cases ha

/-- A key that is no scalar is told and skipped with its value. -/
theorem key_container {a : Source} (ha : a.isScalar = false) (value : Source) :
    Parse.key setting ⟨a.events ++ (value.events ++ rest), b, depth⟩
      = .ok none ⟨rest, b.tell [a.mistake setting.file "expected a literal key"], depth⟩ := by
  obtain ⟨kind, es, hevents⟩ := a.exists_events
  have hhead : (⟨a.events ++ (value.events ++ rest), b, depth⟩ : ParseState).events
      = .over a.first kind :: (es ++ (value.events ++ rest)) := by
    rw [hevents, List.cons_append]
  have hkind (text : String) (tag : Option String) : kind ≠ .scalar text tag := by
    cases a with
    | scalar => cases ha
    | sequence | mapping =>
      simp only [events, List.cons.injEq, Event.over_inj] at hevents
      simp [← hevents.1.2]
  refine eq_ok_of_post ?_
  unfold Parse.key
  rw [post_bind, post_current hhead]
  split
  · next text tag h => exact (hkind text tag h).elim
  · rw [post_bind, post_here hhead, post_bind, post_report, post_bind]
    refine (Result.post_of_ok (skip_events a)).mpr ?_
    rw [post_bind]
    refine (Result.post_of_ok (skip_events value)).mpr ⟨rfl, ?_⟩
    rw [Event.location_over, Build.tell_error, mistake]

end Parse

end InfraModule
