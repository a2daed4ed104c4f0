import InfraModule.Source

/-!
# Diagnostics

A recoverable mistake in a document is recorded as a `Diagnostic` and never raised as an error, so
that reading goes on with the next construct. `Diagnostics` only grows: recording appends.
-/

namespace InfraModule

/-- How grave a diagnostic is. -/
inductive Severity where
  /-- The result must not be used for generating code. -/
  | error
  /-- The result can be used. -/
  | warning
  deriving DecidableEq, Inhabited

/-- The label that opens a diagnostic of this severity. -/
def Severity.label : Severity → String
  | .error => "ERROR"
  | .warning => "WARNING"

/-- The severity as it is named in exported diagnostics. -/
def Severity.name : Severity → String
  | .error => "error"
  | .warning => "warning"

/-- One message, tied to the place it is about. -/
structure Diagnostic where
  /-- How grave the problem is. -/
  severity : Severity
  /-- What the problem is. -/
  message : String
  /-- Where the problem is. -/
  location : Location
  deriving DecidableEq, Inhabited

namespace Diagnostic

/-- Whether the diagnostic is an error. -/
def isError (d : Diagnostic) : Bool :=
  d.severity == .error

/-- The diagnostic on one line: label, message and place. -/
def display (d : Diagnostic) : String :=
  d.severity.label ++ ": " ++ d.message ++ " @ " ++ d.location.display

end Diagnostic

/-- The diagnostics recorded so far, oldest first. -/
structure Diagnostics where
  /-- The recorded diagnostics, oldest first. -/
  messages : Array Diagnostic := #[]
  deriving DecidableEq, Inhabited

namespace Diagnostics

/-- The recorded diagnostics as a list, oldest first. -/
def toList (ds : Diagnostics) : List Diagnostic :=
  ds.messages.toList

/-- Records a diagnostic after all others. -/
def push (ds : Diagnostics) (d : Diagnostic) : Diagnostics :=
  ⟨ds.messages.push d⟩

/-- Records an error. -/
def error (ds : Diagnostics) (message : String) (location : Location) : Diagnostics :=
  ds.push ⟨.error, message, location⟩

/-- Records a warning. -/
def warning (ds : Diagnostics) (message : String) (location : Location) : Diagnostics :=
  ds.push ⟨.warning, message, location⟩

/-- How many diagnostics were recorded. -/
def size (ds : Diagnostics) : Nat :=
  ds.messages.size

/-- Whether nothing was recorded. -/
def isEmpty (ds : Diagnostics) : Bool :=
  ds.messages.isEmpty

/-- How many errors were recorded. -/
def errorCount (ds : Diagnostics) : Nat :=
  ds.toList.countP Diagnostic.isError

/-- Whether any error was recorded. -/
def hasErrors (ds : Diagnostics) : Bool :=
  ds.toList.any Diagnostic.isError

/-- At first there are no diagnostics. -/
@[simp] theorem toList_empty : ({} : Diagnostics).toList = [] := rfl

/-- A diagnostic is recorded behind those before. -/
@[simp] theorem toList_push (ds : Diagnostics) (d : Diagnostic) :
    (ds.push d).toList = ds.toList ++ [d] := by
  simp [push, toList]

/-- An error is recorded behind the diagnostics before. -/
@[simp] theorem toList_error (ds : Diagnostics) (message : String) (location : Location) :
    (ds.error message location).toList = ds.toList ++ [⟨.error, message, location⟩] :=
  toList_push ..

/-- Two records are equal when they list the same diagnostics. -/
theorem ext_toList {a b : Diagnostics} (h : a.toList = b.toList) : a = b := by
  obtain ⟨⟨la⟩⟩ := a
  obtain ⟨⟨lb⟩⟩ := b
  simpa [toList] using h

end Diagnostics

end InfraModule
