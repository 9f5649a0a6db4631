import Marginalia.Text

/-!
# Doubles

Numbers of 64 bits with a binary exponent, as exact values. Everything that has to round is computed
from an exact quotient of natural numbers by `roundDiv`, so that no operation rounds twice.
-/

namespace Marginalia

/-- The natural number nearest to `n / d`; of two that are equally near, the even one. -/
def roundDiv (n d : Nat) : Nat :=
  let q := n / d
  let r := n % d
  if d < 2 * r || (d == 2 * r && q % 2 == 1) then q + 1 else q

/-- A double. A finite one is `significand · 2 ^ exponent`, negated if so marked; the significand
has at most 53 bits, and it has fewer only if the exponent is the least. -/
inductive Binary64 where
  | finite (negative : Bool) (significand : Nat) (exponent : Int)
  | infinite (negative : Bool)
  | nan
  deriving DecidableEq, Repr

namespace Binary64

/-- The exponent of the smallest doubles. -/
def leastExponent : Int := -1074

/-- The exponent of the greatest doubles. -/
def greatestExponent : Int := 971

/-- The quotient `n / d` in units of `2 ^ e`, as a quotient. -/
def inUnits (n d : Nat) (e : Int) : Nat × Nat :=
  if 0 ≤ e then (n, d * (1 <<< e.toNat)) else (n * (1 <<< (-e).toNat), d)

/-- The exponent with which a positive quotient has a significand of 53 bits, or the least one. -/
def exponentOf (n d : Nat) : Int :=
  let guess : Int := (n.log2 : Int) - d.log2 - 52
  let (a, b) := inUnits n d guess
  max leastExponent (if a < b * (1 <<< 52) then guess - 1 else guess)

/-- The double nearest to `n / d`, negated if so marked. -/
def ofRatio (negative : Bool) (n d : Nat) : Binary64 :=
  if n == 0 then .finite negative 0 leastExponent
  else
    let e := exponentOf n d
    let (a, b) := inUnits n d e
    let m := roundDiv a b
    let (m, e) := if m == 1 <<< 53 then (1 <<< 52, e + 1) else (m, e)
    if greatestExponent < e then .infinite negative else .finite negative m e

/-- The absolute value of a finite double as a quotient. -/
def ratio (significand : Nat) (exponent : Int) : Nat × Nat :=
  if 0 ≤ exponent then (significand * (1 <<< exponent.toNat), 1)
  else (significand, 1 <<< (-exponent).toNat)

/-- The double nearest to `digits · 10 ^ exponent`. Values far out of range are told by their number
of digits, without computing the power. -/
def ofDecimal (negative : Bool) (digits : Nat) (exponent : Int) : Binary64 :=
  let magnitude : Int := (Nat.toDigits 10 digits).length + exponent
  if digits == 0 || magnitude < -330 then .finite negative 0 leastExponent
  else if 320 < magnitude then .infinite negative
  else if 0 ≤ exponent then ofRatio negative (digits * Nat.pow 10 exponent.toNat) 1
  else ofRatio negative digits (Nat.pow 10 (-exponent).toNat)

/-- The 64 bits of a double; there is no agreed one for a value that is no number. -/
def bits? : Binary64 → Option Nat
  | .finite negative significand exponent =>
    let magnitude :=
      if significand < 1 <<< 52 then significand
      else (exponent - leastExponent + 1).toNat * (1 <<< 52) + (significand - 1 <<< 52)
    some ((if negative then 1 <<< 63 else 0) + magnitude)
  | .infinite negative => some ((if negative then 1 <<< 63 else 0) + 2047 * (1 <<< 52))
  | .nan => none

/-! ## Reading -/

/-- The digits at the start of a text. -/
def digitsOf (t : Text) : Text := t.takeWhile Char.isDigit

/-- The exponent of a number: nothing, or `e`, perhaps a sign, and digits up to the end. -/
def exponent? : Text → Option Int
  | [] => some 0
  | c :: r =>
    if c == 'e' || c == 'E' then
      let (negative, ds) :=
        match r with
        | '-' :: ds => (true, ds)
        | '+' :: ds => (false, ds)
        | ds => (false, ds)
      if !ds.isEmpty && ds.all Char.isDigit then
        let n : Int := Nat.ofDigitChars 10 ds 0
        some (if negative then -n else n)
      else none
    else none

/-- A number without a sign: digits with a point anywhere among them or none, at least one digit,
and perhaps an exponent. -/
def unsigned? (negative : Bool) (t : Text) : Option Binary64 :=
  let whole := digitsOf t
  let (fraction, r) :=
    match t.drop whole.length with
    | '.' :: r => (digitsOf r, r.drop (digitsOf r).length)
    | r => ([], r)
  if whole.isEmpty && fraction.isEmpty then none
  else (exponent? r).map fun e =>
    ofDecimal negative (Nat.ofDigitChars 10 (whole ++ fraction) 0) (e - fraction.length)

/-- The double that a text names: a number, `inf`, `infinity` or `nan`, perhaps with a sign. Capital
and small letters are not told apart. -/
def parse? (t : Text) : Option Binary64 :=
  let (negative, r) :=
    match t with
    | '-' :: r => (true, r)
    | '+' :: r => (false, r)
    | r => (false, r)
  let lower := r.map Char.toLower
  if lower == "inf".toList || lower == "infinity".toList then some (.infinite negative)
  else if lower == "nan".toList then some .nan
  else unsigned? negative r

/-! ## Seconds -/

/-- Nanoseconds in a second. -/
def nanosPerSecond : Nat := 1000000000

/-- Why a number of seconds is no duration. -/
inductive DurationFault where
  | negative
  | tooBigOrNaN
  deriving DecidableEq, Repr

/-- The wording of the fault. -/
def DurationFault.message : DurationFault → Text
  | .negative => "cannot convert float seconds to Duration: value is negative".toList
  | .tooBigOrNaN =>
    "cannot convert float seconds to Duration: value is either too big or NaN".toList

/-- A number of seconds in nanoseconds, rounded to nearest with ties to even. Seconds must fit in 64
bits; a negative zero counts as zero. -/
def toNanos : Binary64 → Except DurationFault Nat
  | .finite negative significand exponent =>
    if negative && significand != 0 then .error .negative
    else
      let (n, d) := ratio significand exponent
      if (1 <<< 64) * d ≤ n then .error .tooBigOrNaN else .ok (roundDiv (n * nanosPerSecond) d)
  | .infinite true => .error .negative
  | .infinite false => .error .tooBigOrNaN
  | .nan => .error .tooBigOrNaN

/-- A duration in seconds: the sum, rounded, of its whole seconds and its rounded rest. -/
def ofNanos (nanos : Nat) : Binary64 :=
  match ofRatio false (nanos / nanosPerSecond) 1,
    ofRatio false (nanos % nanosPerSecond) nanosPerSecond with
  | .finite _ m₁ e₁, .finite _ m₂ e₂ =>
    let (n₁, d₁) := ratio m₁ e₁
    let (n₂, d₂) := ratio m₂ e₂
    ofRatio false (n₁ * d₂ + n₂ * d₁) (d₁ * d₂)
  | _, _ => .nan

end Binary64

end Marginalia
