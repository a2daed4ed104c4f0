/-!
# Integers of 64 bits as decimal text

A text denotes an integer when it is an optional sign followed by at least one ASCII digit, with
nothing before, between or after. `read?` also demands that the number fits in 64 signed bits.
`write` is the shortest such text: no plus sign and no leading zero.
-/

namespace InfraModule.Text.Integer

/-- The number that a non-empty list of ASCII digits denotes. -/
def digits? (cs : List Char) : Option Nat :=
  if cs ≠ [] ∧ cs.all Char.isDigit then some (Nat.ofDigitChars 10 cs 0) else none

/-- The integer that an optional sign and digits denote. -/
def signed? : List Char → Option Int
  | '+' :: cs => (digits? cs).map Int.ofNat
  | '-' :: cs => (digits? cs).map fun n => -Int.ofNat n
  | cs => (digits? cs).map Int.ofNat

/-- The integers that 64 bits hold in two's complement. -/
def Fits (n : Int) : Prop :=
  -9223372036854775808 ≤ n ∧ n ≤ 9223372036854775807

instance (n : Int) : Decidable (Fits n) :=
  inferInstanceAs (Decidable (_ ∧ _))

/-- The integer of 64 bits that a text denotes. -/
def read? (s : String) : Option Int :=
  (signed? s.toList).filter fun n => decide (Fits n)

/-- The decimal text of an integer. -/
def write (n : Int) : String :=
  let digits := Nat.toDigits 10 n.natAbs
  String.ofList (if n < 0 then '-' :: digits else digits)

end InfraModule.Text.Integer
