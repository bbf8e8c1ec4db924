import ClassCheck.Number.Binary64

/-!
# The shortest decimal of a floating-point value

A finite value is written with the fewest digits that read back to it, and among those with
the digits nearest to it; of two equally near ones the larger is taken. Magnitudes from
`10 ^ (-4)` up to but not including `10 ^ 16` are written with a decimal point and at least one
digit after it, all others with an exponent.
-/

namespace ClassCheck.Number

/-- The decimal `digits * 10 ^ exponent`. -/
structure Decimal where
  /-- The digits as one whole number. -/
  digits : Nat
  /-- The power of ten that they are counted in. -/
  exponent : Int
  deriving DecidableEq, Repr

/-- The quotient `num / den` divided by `10 ^ e`, as a quotient of naturals. -/
def scaleDownTen (num den : Nat) (e : Int) : Nat × Nat :=
  if 0 ≤ e then (num, den * Nat.pow 10 e.toNat) else (num * Nat.pow 10 (-e).toNat, den)

/-- The least `k` with `num / den < 10 ^ k`, for a positive quotient. -/
def decimalScale (num den : Nat) : Int :=
  if den ≤ num then digitCount (num / den)
  else 1 - (digitCount ((den - 1) / num) : Int)

/-- Move trailing zeros of the digits into the exponent; `bound` limits how many. -/
def Decimal.trim : Nat → Decimal → Decimal
  | 0, d => d
  | bound + 1, d =>
    if d.digits ≠ 0 ∧ d.digits % 10 = 0 then trim bound ⟨d.digits / 10, d.exponent + 1⟩ else d

/-- Whether a decimal reads back as the value `m * 2 ^ q`. -/
def readsBack (m : Nat) (q : Int) (d : Decimal) : Bool :=
  Binary64.ofDecimal false d.digits d.exponent = .finite false m q

/-- The best decimal with `count` digits that reads back as `m * 2 ^ q`, which is the quotient
`num / den` below `10 ^ scale`: the nearer of the two neighbours on the grid of that many
digits, the larger one if both are equally near. -/
def candidate? (m : Nat) (q : Int) (num den : Nat) (scale : Int) (count : Nat) : Option Decimal :=
  let grid := scale - count
  let (n, d) := scaleDownTen num den grid
  let below : Decimal := ⟨n / d, grid⟩
  let above : Decimal := ⟨n / d + 1, grid⟩
  match readsBack m q below, readsBack m q above with
  | true, true => some (if 2 * (n % d) < d then below else above)
  | true, false => some below
  | false, true => some above
  | false, false => none

/-- The exact decimal of `m * 2 ^ q`. -/
def exactDecimal (m : Nat) (q : Int) : Decimal :=
  if 0 ≤ q then ⟨m * Nat.pow 2 q.toNat, 0⟩ else ⟨m * Nat.pow 5 (-q).toNat, q⟩

/-- The fewest digits that read back as the positive value `m * 2 ^ q`. -/
def shortest (m : Nat) (q : Int) : Decimal :=
  let (num, den) := scaleDown m 1 (-q)
  let scale := decimalScale num den
  let found := (List.range' 1 17).findSome? (candidate? m q num den scale)
  let d := found.getD (exactDecimal m q)
  d.trim (digitCount d.digits)

/-- Digits before and after the point, for the digits `ds` with the point after the first
`point` of them; missing places are filled with zeros. -/
def placePoint (ds : List Char) (point : Int) : List Char :=
  if point ≤ 0 then '0' :: '.' :: (List.replicate (-point).toNat '0' ++ ds)
  else
    let n := point.toNat
    let whole := ds.take n ++ List.replicate (n - ds.length) '0'
    let fraction := if ds.length ≤ n then ['0'] else ds.drop n
    whole ++ '.' :: fraction

/-- The digits `ds` with the point after the first, and an exponent. -/
def withExponent (ds : List Char) (exponent : Int) : List Char :=
  let mantissa := match ds with
    | d :: e :: rest => d :: '.' :: e :: rest
    | _ => ds
  mantissa ++ 'e' :: (toString exponent).toList

/-- Text of a decimal: positional in the middle range, with an exponent outside it. -/
def Decimal.chars (d : Decimal) : List Char :=
  let ds := Nat.toDigits 10 d.digits
  let point := d.exponent + ds.length
  if -4 < point ∧ point ≤ 16 then placePoint ds point else withExponent ds (point - 1)

/-- Text of a floating-point value. -/
def Binary64.text : Binary64 → String
  | .nan => "NaN"
  | .infinite negative => if negative then "-inf" else "inf"
  | .finite negative m q =>
    let magnitude := if m = 0 then ['0', '.', '0'] else (shortest m q).chars
    String.ofList (if negative then '-' :: magnitude else magnitude)

end ClassCheck.Number
