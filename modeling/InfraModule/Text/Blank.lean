/-!
# Blank space around a text

The characters with the Unicode property `White_Space`, and a text without those at its ends.
-/

namespace InfraModule.Text

/-- The characters with the Unicode property `White_Space`. -/
def isBlank (c : Char) : Bool :=
  let n := c.toNat
  (0x09 ≤ n && n ≤ 0x0d) || n == 0x20 || n == 0x85 || n == 0xa0 || n == 0x1680 ||
    (0x2000 ≤ n && n ≤ 0x200a) || n == 0x2028 || n == 0x2029 || n == 0x202f || n == 0x205f ||
    n == 0x3000

/-- The characters of a text without the blank ones at its start and at its end. -/
def trimChars (cs : List Char) : List Char :=
  ((cs.dropWhile isBlank).reverse.dropWhile isBlank).reverse

/-- A text without the blank characters at its start and at its end. -/
def trim (s : String) : String :=
  String.ofList (trimChars s.toList)

/-- A text with the letters `A` to `Z` in lower case and all else unchanged. -/
def lowerAscii (s : String) : String :=
  String.ofList (s.toList.map Char.toLower)

end InfraModule.Text
