import InfraModule.Yaml.Token.Basic

/-!
# Tags, anchors and directives

A tag is written in full between `!<` and `>`, or in short as a handle and a suffix. Characters may
be written as `%` and two hexadecimal digits for each byte of their encoding. In version 1.2 the
bytes are read as one number, the code point. In version 1.1 each byte is kept as a character of its
own, and a NUL ends the tag.
-/

namespace InfraModule.Yaml.TokenM

/-- How many bytes an encoded character has whose first byte is given. -/
def encodedLength? (byte : Nat) : Option Nat :=
  if byte < 0x80 then some 1
  else if byte < 0xc0 then none
  else if byte < 0xe0 then some 2
  else if byte < 0xf0 then some 3
  else if byte < 0xf8 then some 4
  else none

/-- Takes one encoded byte. -/
def readByte : TokenM Nat := do
  let c ← cursor
  demand (c.isAt '%')
  let high ← (c.peekAt? 1).bind hexDigit?
  let low ← (c.peekAt? 2).bind hexDigit?
  move (Cursor.skipTexts 3)
  return 16 * high + low

/-- Takes the bytes of an encoded character. -/
def readEncoded : TokenM (List Nat) := do
  let first ← readByte
  let length ← encodedLength? first
  let mut bytes := [first]
  for _ in List.range (length - 1) do
    let byte ← readByte
    demand (0x80 ≤ byte && byte < 0xc0)
    bytes := bytes ++ [byte]
  return bytes

/-- The text that the bytes of an encoded character stand for. -/
def decode? (v : Version) (bytes : List Nat) : Option String :=
  match v with
  | .v11 => (bytes.mapM char?).map String.ofList
  | .v12 => (char? (bytes.foldl (256 * · + ·) 0)).map Char.toString

/-- Takes a character, which may be encoded. -/
def readUriChar : TokenM String := do
  let c ← (← peek? : Option Char)
  if c == '%' then
    decode? (← version) (← readEncoded)
  else
    skipText
    return c.toString

/-- Takes the characters of a class, decoding those that are encoded. -/
def readUri (p : Char → Bool) : TokenM String := do
  let mut text := ""
  for _ in ← rest do
    unless (← peek?).any p do break
    text := text ++ (← readUriChar)
  return text

/-- The part of a decoded text that counts. -/
def cutUri (v : Version) (text : String) : String :=
  match v with
  | .v11 => String.ofList (text.toList.takeWhile (· ≠ '\x00'))
  | .v12 => text

/-- Takes a handle: a `!`, letters, and another `!`, which is missing where this is no handle. -/
def readHandle : TokenM String := do
  demand ((← cursor).isAt '!')
  skipText
  let name ← takeWhile isWord
  if (← cursor).isAt '!' then
    skipText
    return "!" ++ name ++ "!"
  else
    return "!" ++ name

/-- Takes the handle and the suffix of a tag in short form. A single `!` is a tag without handle. -/
def readShortTag : TokenM (String × String) := do
  let version ← version
  let handle ← readHandle
  let suffix ← readUri (isTag version)
  if handle.length ≥ 2 && handle.endsWith "!" then
    demand !suffix.isEmpty
    return (handle, cutUri version suffix)
  else
    let suffix := cutUri version (String.ofList (handle.toList.drop 1) ++ suffix)
    return if suffix.isEmpty then ("", "!") else ("!", suffix)

/-- Takes the suffix of a tag that is written in full. -/
def readFullTag : TokenM (String × String) := do
  let version ← version
  move (Cursor.skipTexts 2)
  let suffix ← readUri (isUri version)
  demand (version == .v12 || !suffix.isEmpty)
  demand ((← cursor).isAt '>')
  skipText
  return ("", cutUri version suffix)

/-- The characters that may follow a tag at once in a flow collection, apart from those that end a
word. -/
def isAfterTag (v : Version) (c : Char) : Bool :=
  match v with
  | .v11 => c == ','
  | .v12 => isFlow c

/-- Takes a tag. -/
def tag : TokenM Unit := do
  startWord
  let start ← place
  let full := (← cursor).peekAt? 1 == some '<'
  let (handle, suffix) ← if full then readFullTag else readShortTag
  let c ← cursor
  demand (c.endsWordAt 0 || ((← inFlow) && c.peek?.any (isAfterTag c.version)))
  push (.tag handle suffix) start

/-- Takes an anchor or an alias. -/
def anchor (token : String → Token) : TokenM Unit := do
  startWord
  let start ← place
  skipText
  let name ← takeWhile (isAnchor (← version))
  demand !name.isEmpty
  let c ← cursor
  demand (c.version == .v12 || c.endsWordAt 0 || c.peek?.any isAfterAnchor)
  push (token name) start

/-! ## Directives -/

/-- The greatest number of digits in a version. -/
def maxVersionDigits : Nat := 9

/-- Takes a part of a version. -/
def readVersionNumber : TokenM Nat := do
  let digits ← takeWhile Char.isDigit
  demand (0 < digits.length && digits.length ≤ maxVersionDigits)
  return digits.toList.foldl (fun n c => 10 * n + (c.toNat - '0'.toNat)) 0

/-- Takes the version that a directive gives. A text of version 1.1 may also claim to be of version
1.2; for one of version 1.2 it does not matter. -/
def readVersion : TokenM Token := do
  skipBlanks
  let major ← readVersionNumber
  demand ((← cursor).isAt '.')
  skipText
  let minor ← readVersionNumber
  demand ((← version) == .v12 || (major == 1 && (minor == 1 || minor == 2)))
  return .versionDirective

/-- Takes the start that a directive gives for the tags of a handle. -/
def readTagDirective : TokenM Token := do
  let version ← version
  skipBlanks
  let handle ← readHandle
  demand (handle == "!" || handle.endsWith "!")
  let c ← cursor
  demand (version == .v12 || c.atBlank)
  skipBlanks
  let next ← peek?
  demand (next.any fun c => c == '!' || isTag version c || (version == .v11 && isUri version c))
  let first ← readUriChar
  let start := first ++ (← readUri (isUri version))
  demand ((← cursor).endsWordAt 0)
  return .tagDirective handle (cutUri version start)

/-- Takes a directive. In version 1.2 one with an unknown name counts as a tag directive without
content, and in version 1.1 it is an error. -/
def directive : TokenM Unit := do
  unrollIndent (-1)
  removeKey
  allowKey false
  let start ← place
  skipText
  let name ← takeWhile isWord
  demand (!name.isEmpty && (← cursor).endsWordAt 0)
  let token ← match name with
    | "YAML" => readVersion
    | "TAG" => readTagDirective
    | _ => do
      demand ((← version) == .v12)
      skipLine
      pure (.tagDirective "" "")
  discard <| skipGap true
  demandLineEnd
  skipBreak
  push token start

end InfraModule.Yaml.TokenM
