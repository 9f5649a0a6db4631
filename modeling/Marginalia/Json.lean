import Marginalia.Text

/-!
# JSON values

The values of JSON and their two written forms: on one line without blanks, and over several lines
with two blanks for each level.
-/

namespace Marginalia

/-- A JSON value. An object keeps its members in the order in which they are written, also if one
key occurs twice. -/
inductive JsonValue where
  | null
  | bool (b : Bool)
  /-- A whole number that fits in 64 bits, with or without a sign. -/
  | integer (n : Int)
  /-- Any other number: `significand · 10 ^ exponent`, negated if so marked. -/
  | decimal (negative : Bool) (significand : Nat) (exponent : Int)
  | string (t : Text)
  | array (elements : List JsonValue)
  | object (members : List (Text × JsonValue))

namespace JsonValue

/-- A digit of a hexadecimal number. -/
def hexDigit (n : Nat) : Char := (Nat.digitChar n)

/-- A character inside a string: quotes, backslashes and control characters are escaped. -/
def escapeChar (c : Char) : Text :=
  if c == '"' then ['\\', '"']
  else if c == '\\' then ['\\', '\\']
  else if c == '\n' then ['\\', 'n']
  else if c == '\r' then ['\\', 'r']
  else if c == '\t' then ['\\', 't']
  else if c == '\x08' then ['\\', 'b']
  else if c == '\x0c' then ['\\', 'f']
  else if c.toNat < 0x20 then
    ['\\', 'u', '0', '0', hexDigit (c.toNat / 16), hexDigit (c.toNat % 16)]
  else [c]

/-- A string in quotes. -/
def quote (t : Text) : Text := '"' :: t.flatMap escapeChar ++ ['"']

/-- A value that holds no other values. -/
def scalarText : JsonValue → Text
  | .null => "null".toList
  | .bool b => if b then "true".toList else "false".toList
  | .integer n => Text.ofInt n
  | .decimal negative significand exponent =>
    (if negative then ['-'] else []) ++ Text.ofNat significand ++ 'e' :: Text.ofInt exponent
  | .string t => quote t
  | _ => []

mutual

/-- A value on one line, without blanks. -/
def compact : JsonValue → Text
  | .array elements => '[' :: compactElements elements ++ [']']
  | .object members => '{' :: compactMembers members ++ ['}']
  | v => scalarText v

/-- Elements with commas between them. -/
def compactElements : List JsonValue → Text
  | [] => []
  | [v] => compact v
  | v :: vs => compact v ++ ',' :: compactElements vs

/-- Members with commas between them. -/
def compactMembers : List (Text × JsonValue) → Text
  | [] => []
  | [(k, v)] => quote k ++ ':' :: compact v
  | (k, v) :: ms => quote k ++ ':' :: compact v ++ ',' :: compactMembers ms

end

/-- The start of a line at a level. -/
def newLine (level : Nat) : Text := '\n' :: List.replicate (2 * level) ' '

mutual

/-- A value over several lines; `level` is the level of the line on which it starts. -/
def pretty (level : Nat) : JsonValue → Text
  | .array [] => "[]".toList
  | .array (v :: vs) =>
    '[' :: newLine (level + 1) ++ prettyElements (level + 1) (v :: vs) ++ newLine level ++ [']']
  | .object [] => ['{', '}']
  | .object (m :: ms) =>
    '{' :: newLine (level + 1) ++ prettyMembers (level + 1) (m :: ms) ++ newLine level ++ ['}']
  | v => scalarText v

/-- Elements on lines of a level. -/
def prettyElements (level : Nat) : List JsonValue → Text
  | [] => []
  | [v] => pretty level v
  | v :: vs => pretty level v ++ ',' :: newLine level ++ prettyElements level vs

/-- Members on lines of a level. -/
def prettyMembers (level : Nat) : List (Text × JsonValue) → Text
  | [] => []
  | [(k, v)] => quote k ++ ": ".toList ++ pretty level v
  | (k, v) :: ms =>
    quote k ++ ": ".toList ++ pretty level v ++ ',' :: newLine level ++ prettyMembers level ms

end

end JsonValue

end Marginalia
