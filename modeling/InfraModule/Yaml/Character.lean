import InfraModule.Yaml.Version

/-!
# Classes of characters in YAML

The classes that decide where a token ends. Each is a predicate on characters; where a text may
have ended, the predicates on an optional character are used, for which the end of the text counts
as the end of a line and of a word.
-/

namespace InfraModule.Yaml

/-- The characters that a text may hold. Version 1.1 excludes control characters. -/
def isAllowed (v : Version) (c : Char) : Bool :=
  match v with
  | .v11 =>
    c == '\t' || c == '\n' || c == '\r' || c == '\u0085' || (' ' ≤ c && c ≤ '~') ||
      ('\u00a0' ≤ c && c ≤ '\ufffd') || 0x10000 ≤ c.toNat
  | .v12 => true

/-- The characters that end a line. Version 1.1 counts three more among them. -/
def isBreak (v : Version) (c : Char) : Bool :=
  c == '\n' || c == '\r' || (v == .v11 && (c == '\u0085' || c == '\u2028' || c == '\u2029'))

/-- The character that a line end stands for inside a scalar: the line and paragraph separators
stand for themselves, and every other line end for a line feed. -/
def lineEnd (c : Char) : Char :=
  if c == '\u2028' || c == '\u2029' then c else '\n'

/-- The characters that stand between words of a line. -/
def isBlank (c : Char) : Bool :=
  c == ' ' || c == '\t'

/-- The characters that separate the parts of a flow collection. -/
def isFlow (c : Char) : Bool :=
  c == ',' || c == '[' || c == ']' || c == '\x7b' || c == '\x7d'

/-- The characters of directive names and tag handles. -/
def isWord (c : Char) : Bool :=
  c.isAlphanum || c == '_' || c == '-'

/-- The characters of a tag that is written in full. -/
def isUri (v : Version) (c : Char) : Bool :=
  isWord c || ";/?:@&=+$,.!~*'()[]%".toList.contains c || (v == .v12 && c == '#')

/-- The characters of a tag that is written in short. -/
def isTag (v : Version) (c : Char) : Bool :=
  isUri v c && !isFlow c && !(v == .v12 && c == '!')

/-- The characters of anchors. -/
def isAnchor (v : Version) (c : Char) : Bool :=
  match v with
  | .v11 => isWord c
  | .v12 => !isBreak v c && !isBlank c && !isFlow c && c != '\ufeff'

/-- The characters that may follow an anchor at once in version 1.1, apart from those that end a
word. -/
def isAfterAnchor (c : Char) : Bool :=
  "?:,]\x7d%@\x60".toList.contains c

/-- The value of a hexadecimal digit. -/
def hexDigit? (c : Char) : Option Nat :=
  if '0' ≤ c ∧ c ≤ '9' then some (c.toNat - '0'.toNat)
  else if 'a' ≤ c ∧ c ≤ 'f' then some (c.toNat - 'a'.toNat + 10)
  else if 'A' ≤ c ∧ c ≤ 'F' then some (c.toNat - 'A'.toNat + 10)
  else none

/-- The character with a given code point; surrogates and greater numbers have none. -/
def char? (n : Nat) : Option Char :=
  if h : n.isValidChar then some (Char.ofNatAux n h) else none

/-- Whether a line ends before `c`. -/
def endsLine (v : Version) (c : Option Char) : Bool :=
  c.all (isBreak v)

/-- Whether a word ends before `c`. -/
def endsWord (v : Version) (c : Option Char) : Bool :=
  c.all fun c => isBlank c || isBreak v c

end InfraModule.Yaml
