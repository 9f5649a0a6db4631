import Marginalia.Text.Utf8

/-!
# Delimited literals

Where a literal ends once its opener has been read. Reading stops at the closing delimiter, or at an
interpolation `#{`, whose inside is code and is read by the tokenizer.
-/

namespace Marginalia.Source

/-- How a literal is closed. -/
structure Delimiters where
  close : Char
  /-- The opener of a pair that nests. -/
  opener : Option Char
  /-- Whether `#{` starts code. -/
  interpolates : Bool
  deriving DecidableEq, Repr

namespace Delimiters

/-- Delimiters that start with the given character; the four ASCII brackets pair and nest. -/
def ofOpening (c : Char) (interpolates : Bool) : Delimiters :=
  match c with
  | '(' => ⟨')', some '(', interpolates⟩
  | '[' => ⟨']', some '[', interpolates⟩
  | '{' => ⟨'}', some '{', interpolates⟩
  | '<' => ⟨'>', some '<', interpolates⟩
  | _ => ⟨c, none, interpolates⟩

/-- A character class `[…]` can hold the delimiter if that is a slash. -/
def hasClasses (d : Delimiters) : Bool := d.close == '/'

/-- Delimiters are told by the first byte of their UTF-8 form, which is the whole character for
ASCII. -/
def closes (d : Delimiters) (c : Char) : Bool := Utf8.leadByte c == Utf8.leadByte d.close

end Delimiters

/-- Whether a character is outside of ASCII. -/
def isWide (c : Char) : Bool := 0x80 ≤ c.toNat

/-- Why the reading of a literal stops, and how many characters were read. -/
inductive LiteralStop where
  /-- At its closing delimiter. -/
  | closed (length : Nat)
  /-- After the `#{` of an interpolation, at a nesting depth and perhaps in a character class. -/
  | interpolation (length depth : Nat) (inClass : Bool)
  /-- At the end of the program. -/
  | unterminated
  /-- Inside a character that shares its first byte with a delimiter outside of ASCII. -/
  | split
  deriving DecidableEq, Repr

/-- Counts characters read before. -/
def LiteralStop.after (n : Nat) : LiteralStop → LiteralStop
  | .closed length => .closed (n + length)
  | .interpolation length depth inClass => .interpolation (n + length) depth inClass
  | .unterminated => .unterminated
  | .split => .split

/-- Reads a literal from behind its opener, or from behind an interpolation. A backslash takes the
next character with it. -/
def Delimiters.read (d : Delimiters) : Nat → Bool → Text → LiteralStop
  | _, _, [] => .unterminated
  | _, _, ['\\'] => .unterminated
  | depth, inClass, '\\' :: _ :: r => (d.read depth inClass r).after 2
  | depth, inClass, c :: r =>
    if c == '#' && d.interpolates && r.head? == some '{' then .interpolation 2 depth inClass
    else if c == '[' && d.hasClasses then (d.read depth true r).after 1
    else if c == ']' && d.hasClasses then (d.read depth false r).after 1
    else if d.opener == some c then (d.read (depth + 1) inClass r).after 1
    else if d.closes c && !inClass then
      match depth with
      | 0 => if isWide c then .split else .closed 1
      | n + 1 => (d.read n inClass r).after 1
    else (d.read depth inClass r).after 1

end Marginalia.Source
