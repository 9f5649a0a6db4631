import Marginalia.Binary64

/-!
# The shortest decimal of a double

A double is written with the fewest digits that read back as the same double, and among those with
the digits nearest to it, without an exponent. For each number of digits from 1 to 17 the two
neighbours of the double on that decimal grid are tested; the first grid with a hit wins.
-/

namespace Marginalia.Binary64

/-- A decimal `digits · 10 ^ exponent`. -/
structure Decimal where
  digits : Nat
  exponent : Int
  deriving DecidableEq, Repr

namespace Decimal

/-- A decimal as a quotient. -/
def ratio (d : Decimal) : Nat × Nat :=
  if 0 ≤ d.exponent then (d.digits * Nat.pow 10 d.exponent.toNat, 1)
  else (d.digits, Nat.pow 10 (-d.exponent).toNat)

/-- A decimal in plain digits, with a point only if a digit other than zero follows it. -/
def text (d : Decimal) : Text :=
  let ds := Text.ofNat d.digits
  if 0 ≤ d.exponent then
    if d.digits == 0 then ['0'] else ds ++ List.replicate d.exponent.toNat '0'
  else
    let places := (-d.exponent).toNat
    let padded := List.replicate (places + 1 - ds.length) '0' ++ ds
    let whole := padded.take (padded.length - places)
    match Text.dropEndWhile (· == '0') (padded.drop (padded.length - places)) with
    | [] => whole
    | fraction => whole ++ '.' :: fraction

end Decimal

/-- The numbers that round to a finite positive double: from `low / unit` to `high / unit`, where
the ends belong to them only if the significand is even. -/
structure RoundingInterval where
  low : Nat
  high : Nat
  unit : Nat
  closed : Bool

/-- The rounding interval of a double. Below a power of two the doubles are twice as dense. -/
def roundingInterval (significand : Nat) (exponent : Int) : RoundingInterval :=
  let below := if significand == 1 <<< 52 && leastExponent < exponent then 1 else 2
  let closed := significand % 2 == 0
  if 0 ≤ exponent then
    let s := 1 <<< exponent.toNat
    ⟨(4 * significand - below) * s, (4 * significand + 2) * s, 4, closed⟩
  else ⟨4 * significand - below, 4 * significand + 2, 4 * (1 <<< (-exponent).toNat), closed⟩

/-- Whether a decimal lies in a rounding interval. -/
def RoundingInterval.contains (i : RoundingInterval) (d : Decimal) : Bool :=
  let (n, m) := d.ratio
  if i.closed then i.low * m ≤ n * i.unit && n * i.unit ≤ i.high * m
  else i.low * m < n * i.unit && n * i.unit < i.high * m

/-- The neighbours of `n / d` among the multiples of `10 ^ e`, the nearer first. -/
def neighbours (n d : Nat) (e : Int) : List Decimal :=
  let (a, b) := if 0 ≤ e then (n, d * Nat.pow 10 e.toNat) else (n * Nat.pow 10 (-e).toNat, d)
  let q := a / b
  if 2 * (a % b) < b then [⟨q, e⟩, ⟨q + 1, e⟩] else [⟨q + 1, e⟩, ⟨q, e⟩]

/-- An exponent such that `n / d` is less than its power of ten, and not less than a thousandth. -/
def decimalMagnitude (n d : Nat) : Int :=
  ((Nat.toDigits 10 n).length : Int) - (Nat.toDigits 10 d).length + 1

/-- The shortest decimal in a rounding interval; grids of `count` sizes from the coarsest are
tried. -/
def shortestFrom (i : RoundingInterval) (n d : Nat) : Nat → Int → Decimal
  | 0, e => ⟨0, e⟩
  | count + 1, e =>
    match (neighbours n d e).find? i.contains with
    | some x => x
    | none => shortestFrom i n d count (e - 1)

/-- The shortest decimal of a finite positive double. -/
def shortest (significand : Nat) (exponent : Int) : Decimal :=
  let (n, d) := ratio significand exponent
  shortestFrom (roundingInterval significand exponent) n d 22 (decimalMagnitude n d)

/-- A double as text. -/
def text : Binary64 → Text
  | .finite negative significand exponent =>
    (if negative then ['-'] else []) ++
      (if significand == 0 then ['0'] else (shortest significand exponent).text)
  | .infinite negative => (if negative then ['-'] else []) ++ "inf".toList
  | .nan => "NaN".toList

end Marginalia.Binary64
