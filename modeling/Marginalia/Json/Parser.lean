import Marginalia.Json

/-!
# Reading JSON

A strict reader: it takes one value with blanks around it and nothing else. Values are nested at
most 127 deep, and a number that is not a 64-bit integer must lie in the range of a double.

Each reader takes a text and returns what it leaves. The readers of nested values carry fuel, which
`JsonValue.parse?` computes from the length of the text; each character is paid for at most twice.
-/

namespace Marginalia.JsonValue

/-- Drops the blanks of JSON. -/
def skipBlanks (t : Text) : Text :=
  t.dropWhile fun c => c == ' ' || c == '\n' || c == '\t' || c == '\r'

/-! ## Strings -/

/-- The value of a hexadecimal digit. -/
def hexValue? (c : Char) : Option Nat :=
  if c.isDigit then some (c.toNat - '0'.toNat)
  else if 'a' ≤ c && c ≤ 'f' then some (c.toNat - 'a'.toNat + 10)
  else if 'A' ≤ c && c ≤ 'F' then some (c.toNat - 'A'.toNat + 10)
  else none

/-- The value of the four hexadecimal digits at the start of a text. -/
def fourDigits? : Text → Option Nat
  | a :: b :: c :: d :: _ => do
    let a ← hexValue? a
    let b ← hexValue? b
    let c ← hexValue? c
    let d ← hexValue? d
    return ((a * 16 + b) * 16 + c) * 16 + d
  | _ => none

/-- The character of an escape `\u`, read behind the `u`, and how many characters it takes. A
character outside of the first plane is written as two surrogates; a surrogate alone is refused. -/
def unicodeEscape? (t : Text) : Option (Char × Nat) := do
  let high ← fourDigits? t
  if 0xDC00 ≤ high ∧ high ≤ 0xDFFF then none
  else if 0xD800 ≤ high ∧ high ≤ 0xDBFF then
    match t.drop 4 with
    | '\\' :: 'u' :: r => do
      let low ← fourDigits? r
      if 0xDC00 ≤ low ∧ low ≤ 0xDFFF then
        return (Char.ofNat (0x10000 + (high - 0xD800) * 0x400 + (low - 0xDC00)), 10)
      else none
    | _ => none
  else return (Char.ofNat high, 4)

/-- The character of an escape, read behind its backslash, and how many characters it takes. -/
def escape? : Text → Option (Char × Nat)
  | [] => none
  | c :: r =>
    if c == '"' || c == '\\' || c == '/' then some (c, 1)
    else if c == 'b' then some ('\x08', 1)
    else if c == 'f' then some ('\x0c', 1)
    else if c == 'n' then some ('\n', 1)
    else if c == 'r' then some ('\r', 1)
    else if c == 't' then some ('\t', 1)
    else if c == 'u' then (unicodeEscape? r).map fun (c, n) => (c, n + 1)
    else none

/-- The characters of a string and what follows it, read behind the opening quote. The first `skip`
characters belong to an escape that has been read. -/
def stringBody? (skip : Nat) : Text → Option (Text × Text)
  | [] => none
  | c :: r =>
    match skip with
    | n + 1 => stringBody? n r
    | 0 =>
      if c == '"' then some ([], r)
      else if c == '\\' then
        match escape? r with
        | some (d, n) => (stringBody? n r).map fun (t, rest) => (d :: t, rest)
        | none => none
      else if c.toNat < 0x20 then none
      else (stringBody? 0 r).map fun (t, rest) => (c :: t, rest)

/-! ## Numbers -/

/-- The greatest integer of 64 bits. -/
def maxWord : Nat := UInt64.size - 1

/-- A significand that is being read. Once a digit does not fit in 64 bits it is full, and further
digits only count for the exponent. -/
structure Significand where
  value : Nat
  exponent : Int
  full : Bool := false

/-- Reads digits before the point. -/
def Significand.whole (s : Significand) (digits : Text) : Significand :=
  digits.foldl
    (fun s c =>
      let v := s.value * 10 + (c.toNat - '0'.toNat)
      if s.full || maxWord < v then { s with exponent := s.exponent + 1, full := true }
      else { s with value := v })
    s

/-- Reads digits behind the point. -/
def Significand.fraction (s : Significand) (digits : Text) : Significand :=
  digits.foldl
    (fun s c =>
      let v := s.value * 10 + (c.toNat - '0'.toNat)
      if s.full || maxWord < v then { s with full := true }
      else { s with value := v, exponent := s.exponent - 1 })
    { s with full := false }

/-- A number rounded to 53 significant binary digits, ties to even. -/
def roundToDouble (n : Nat) : Nat :=
  let unit := 1 <<< (n.log2 - 52)
  let q := n / unit
  let r := n % unit
  (if unit < 2 * r || (unit == 2 * r && q % 2 == 1) then q + 1 else q) * unit

/-- Whether `significand · 10 ^ exponent`, computed in doubles, is finite. -/
def inDoubleRange (significand : Nat) (exponent : Int) : Bool :=
  significand == 0 || exponent < 0 ||
    (exponent ≤ 308 &&
      roundToDouble significand * roundToDouble (Nat.pow 10 exponent.toNat) < 1 <<< 1024 -
        1 <<< 970)

/-- The digits at the start of a text. -/
def digitsOf (t : Text) : Text := t.takeWhile Char.isDigit

/-- The exponent of a number, read behind its `e`, and what follows. -/
def exponent? (t : Text) : Option (Int × Text) :=
  let (negative, r) :=
    match t with
    | '-' :: r => (true, r)
    | '+' :: r => (false, r)
    | r => (false, r)
  match digitsOf r with
  | [] => none
  | ds =>
    let n : Int := Nat.ofDigitChars 10 ds 0
    some (if negative then -n else n, r.drop ds.length)

/-- The digits before the point: a zero alone, or digits that do not start with one. -/
def wholeDigits? (t : Text) : Option Text :=
  match digitsOf t with
  | [] => none
  | '0' :: _ => some ['0']
  | ds => some ds

/-- A number and what follows it, read behind its sign. -/
def unsigned? (negative : Bool) (t : Text) : Option (JsonValue × Text) := do
  let ds ← wholeDigits? t
  let n := Nat.ofDigitChars 10 ds 0
  let s : Significand := ({ value := 0, exponent := 0 } : Significand).whole ds
  let r := t.drop ds.length
  let (s, r, fractional) ←
    match r with
    | '.' :: f =>
      match digitsOf f with
      | [] => none
      | fs => some (s.fraction fs, f.drop fs.length, true)
    | r => some (s, r, false)
  let (exponent, r, exponential) ←
    match r with
    | c :: e =>
      if c == 'e' || c == 'E' then (exponent? e).map fun (x, r) => (s.exponent + x, r, true)
      else some (s.exponent, r, false)
    | [] => some (s.exponent, r, false)
  let fits := if negative then 0 < n && n ≤ 0x8000000000000000 else n ≤ maxWord
  if fits && !fractional && !exponential then
    return (.integer (if negative then -(n : Int) else n), r)
  else if inDoubleRange s.value exponent then return (.decimal negative s.value exponent, r)
  else none

/-- A number and what follows it. -/
def number? : Text → Option (JsonValue × Text)
  | '-' :: r => unsigned? true r
  | r => unsigned? false r

/-! ## Values -/

/-- One of the three words, and what follows it. -/
def word? (t : Text) : Option (JsonValue × Text) :=
  match "null".toList.isPrefixOf? t with
  | some r => some (.null, r)
  | none =>
    match "true".toList.isPrefixOf? t with
    | some r => some (.bool true, r)
    | none => ("false".toList.isPrefixOf? t).map fun r => (.bool false, r)

mutual

/-- A value and what follows it; `depth` is how many more levels may be nested. -/
def value? (fuel depth : Nat) (t : Text) : Option (JsonValue × Text) :=
  match fuel with
  | 0 => none
  | fuel + 1 =>
    match skipBlanks t with
    | [] => none
    | c :: r =>
      if c == '"' then (stringBody? 0 r).map fun (s, rest) => (.string s, rest)
      else if c == '[' then
        match depth with
        | 0 => none
        | depth + 1 =>
          match skipBlanks r with
          | ']' :: rest => some (.array [], rest)
          | r => (elements? fuel depth r).map fun (vs, rest) => (.array vs, rest)
      else if c == '{' then
        match depth with
        | 0 => none
        | depth + 1 =>
          match skipBlanks r with
          | '}' :: rest => some (.object [], rest)
          | r => (members? fuel depth r).map fun (ms, rest) => (.object ms, rest)
      else if c == 'n' || c == 't' || c == 'f' then word? (c :: r)
      else number? (c :: r)

/-- At least one element, up to the closing bracket, and what follows it. -/
def elements? (fuel depth : Nat) (t : Text) : Option (List JsonValue × Text) :=
  match fuel with
  | 0 => none
  | fuel + 1 =>
    match value? fuel depth t with
    | none => none
    | some (v, r) =>
      match skipBlanks r with
      | ',' :: r => (elements? fuel depth r).map fun (vs, rest) => (v :: vs, rest)
      | ']' :: rest => some ([v], rest)
      | _ => none

/-- At least one member, up to the closing brace, and what follows it. -/
def members? (fuel depth : Nat) (t : Text) : Option (List (Text × JsonValue) × Text) :=
  match fuel with
  | 0 => none
  | fuel + 1 =>
    match skipBlanks t with
    | '"' :: r =>
      match stringBody? 0 r with
      | none => none
      | some (k, r) =>
        match skipBlanks r with
        | ':' :: r =>
          match value? fuel depth r with
          | none => none
          | some (v, r) =>
            match skipBlanks r with
            | ',' :: r => (members? fuel depth r).map fun (ms, rest) => ((k, v) :: ms, rest)
            | '}' :: rest => some ([(k, v)], rest)
            | _ => none
        | _ => none
    | _ => none

end

/-- How deep values may be nested. -/
def maxDepth : Nat := 127

/-- The value that a text is. -/
def parse? (t : Text) : Option JsonValue :=
  match value? (2 * t.length + 2) maxDepth t with
  | some (v, rest) => if (skipBlanks rest).isEmpty then some v else none
  | none => none

end Marginalia.JsonValue
