import InfraModule.Diagnostic

/-!
# Diagnostics as JSON text

The exported form of a list of diagnostics: an array of objects, indented by two spaces a level,
with a fixed order of members. Strings are escaped only where JSON demands it: the quote, the
backslash and the characters below U+0020.
-/

namespace InfraModule

namespace Json

/-- The hexadecimal digit of a number below sixteen, in lower case. -/
def hexDigit (n : Nat) : Char :=
  if n < 10 then Char.ofNat (0x30 + n) else Char.ofNat (0x61 + (n - 10))

/-- A character inside a JSON string: the short escape where there is one, `\u` and four digits for
the other control characters, and the character itself otherwise. -/
def escapeChar (c : Char) : List Char :=
  match c.toNat with
  | 0x22 => ['\\', c]
  | 0x5c => ['\\', c]
  | 0x08 => ['\\', 'b']
  | 0x0c => ['\\', 'f']
  | 0x0a => ['\\', 'n']
  | 0x0d => ['\\', 'r']
  | 0x09 => ['\\', 't']
  | n => if n < 0x20 then ['\\', 'u', '0', '0', hexDigit (n / 16), hexDigit (n % 16)] else [c]

/-- A text as a JSON string, quotes included. -/
def quote (s : String) : String :=
  String.ofList ('\x22' :: (s.toList.flatMap escapeChar ++ ['\x22']))

/-- The line break and indentation that open a line `depth` levels deep. -/
def newline (depth : Nat) : String :=
  String.ofList ('\n' :: List.replicate (2 * depth) ' ')

/-- Items between brackets, each on a line of its own one level deeper than `depth`; an empty
collection has no line break. -/
def block (opening closing : String) (depth : Nat) (items : List String) : String :=
  match items with
  | [] => opening ++ closing
  | _ =>
    opening ++ ",".intercalate (items.map (newline (depth + 1) ++ ·)) ++ newline depth ++ closing

/-- A JSON object with its members in the given order. -/
def object (depth : Nat) (members : List (String × String)) : String :=
  block "\x7b" "\x7d" depth (members.map fun (key, value) => quote key ++ ": " ++ value)

/-- A JSON array. -/
def array (depth : Nat) (items : List String) : String :=
  block "[" "]" depth items

end Json

/-- A location as a JSON object that starts `depth` levels deep. -/
def Location.toJson (depth : Nat) (l : Location) : String :=
  Json.object depth [
    ("file_path", Json.quote l.file),
    ("line_start", toString l.start.line),
    ("column_start", toString l.start.column),
    ("line_end", toString l.stop.line),
    ("column_end", toString l.stop.column)]

/-- A diagnostic as a JSON object that starts `depth` levels deep. -/
def Diagnostic.toJson (depth : Nat) (d : Diagnostic) : String :=
  Json.object depth [
    ("severity", Json.quote d.severity.name),
    ("message", Json.quote d.message),
    ("location", d.location.toJson (depth + 1))]

/-- All recorded diagnostics as one JSON array. -/
def Diagnostics.toJson (ds : Diagnostics) : String :=
  Json.array 0 (ds.toList.map (Diagnostic.toJson 1))

end InfraModule
