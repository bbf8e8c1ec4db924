/-!
# Decimal digits and whole numbers

Whole numbers are read from decimal digits with an optional sign. Two readings are needed:
the value of an integer literal, which fits in a signed word of 64 bits, and the size of an
array, which fits in an unsigned one and takes no minus sign.
-/

namespace ClassCheck.Number

/-- The value of a run of decimal digits, the most significant first. -/
def ofDigits (cs : List Char) : Nat :=
  cs.foldl (fun n c => 10 * n + (c.toNat - '0'.toNat)) 0

/-- The value of a text that is one or more decimal digits and nothing else. -/
def digits? (cs : List Char) : Option Nat :=
  if cs ≠ [] ∧ cs.all Char.isDigit then some (ofDigits cs) else none

/-- The least integer literal, `-2 ^ 63`. -/
def minInteger : Int := -9223372036854775808

/-- The greatest integer literal, `2 ^ 63 - 1`. -/
def maxInteger : Int := 9223372036854775807

/-- The largest size of an array, `2 ^ 64 - 1`. -/
def maxSize : Nat := 18446744073709551615

/-- An integer in range, kept out otherwise. -/
def inRange? (value : Int) : Option Int :=
  if minInteger ≤ value ∧ value ≤ maxInteger then some value else none

/-- Read an integer literal: an optional sign and digits, in range. -/
def readInteger? (s : String) : Option Int :=
  match s.toList with
  | '-' :: cs => (digits? cs).bind fun n => inRange? (-(n : Int))
  | '+' :: cs => (digits? cs).bind fun n => inRange? n
  | cs => (digits? cs).bind fun n => inRange? n

/-- Read an array size: digits after an optional plus sign, in range. -/
def readSize? (s : String) : Option Nat :=
  let value := match s.toList with
    | '+' :: cs => digits? cs
    | cs => digits? cs
  value.filter (· ≤ maxSize)

/-- How many decimal digits a number has. -/
def digitCount (n : Nat) : Nat := (Nat.toDigits 10 n).length

end ClassCheck.Number
