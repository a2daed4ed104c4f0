/-!
# Natural numbers of 64 bits in several bases

The unsigned numbers that a plain scalar of YAML can denote: decimal digits without a leading zero,
or digits in base 16, 8 or 2 after `0x`, `0o` or `0b`; a plus sign may come first.
-/

namespace InfraModule.Text.Unsigned

/-- The value of a digit, letters of either case counting from ten. -/
def digit? (c : Char) : Option Nat :=
  if '0' ≤ c ∧ c ≤ '9' then some (c.toNat - '0'.toNat)
  else if 'a' ≤ c ∧ c ≤ 'z' then some (c.toNat - 'a'.toNat + 10)
  else if 'A' ≤ c ∧ c ≤ 'Z' then some (c.toNat - 'A'.toNat + 10)
  else none

/-- The number that a non-empty list of digits denotes in a base. -/
def inBase? (base : Nat) (cs : List Char) : Option Nat :=
  if cs.isEmpty then none
  else cs.foldlM (fun n c => do
    let d ← digit? c
    if d < base then some (base * n + d) else none) 0

/-- The number that digits denote, the base being shown by how they start. -/
def magnitude? : List Char → Option Nat
  | ['0'] => some 0
  | '0' :: 'x' :: cs => inBase? 16 cs
  | '0' :: 'o' :: cs => inBase? 8 cs
  | '0' :: 'b' :: cs => inBase? 2 cs
  | '0' :: _ => none
  | cs => inBase? 10 cs

/-- The number of 64 bits that a text denotes. -/
def read? (s : String) : Option Nat :=
  let n := match s.toList with
    | '+' :: cs => magnitude? cs
    | cs => magnitude? cs
  n.filter (· ≤ 18446744073709551615)

example : read? "18446744073709551615" = some 18446744073709551615 := by decide +kernel
example : read? "18446744073709551616" = none := by decide +kernel
example : read? "+0x1F" = some 31 := by decide +kernel
example : read? "007" = none := by decide +kernel

end InfraModule.Text.Unsigned
