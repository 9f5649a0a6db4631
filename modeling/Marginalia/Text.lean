/-!
# Texts as lists of characters

A program and everything it prints is a `Text`, the list of its characters, so that a rule about
what follows a place in a program is a rule about a suffix of a list.

This module holds the ways a text is cut: into pieces that keep their line feed, into lines without
their terminators, and at its ends by a class of characters. Nothing is lost by cutting it into
pieces (`flatten_pieces`).
-/

namespace Marginalia

/-- A text, character by character. -/
abbrev Text := List Char

namespace Text

/-- The characters of the Unicode property `White_Space`. -/
def isBlank (c : Char) : Bool :=
  let n := c.toNat
  (9 ≤ n && n ≤ 13) || n == 0x20 || n == 0x85 || n == 0xA0 || n == 0x1680 ||
    (0x2000 ≤ n && n ≤ 0x200A) || n == 0x2028 || n == 0x2029 || n == 0x202F || n == 0x205F ||
    n == 0x3000

/-- Blanks of the ASCII range that separate words on a line: no vertical tab. -/
def isAsciiBlank (c : Char) : Bool :=
  c == ' ' || c == '\t' || c == '\n' || c == '\x0c' || c == '\r'

/-- A list without the longest suffix whose elements all satisfy `p`. -/
def dropEndWhile {α : Type} (p : α → Bool) (l : List α) : List α := (l.reverse.dropWhile p).reverse

/-- The text without blanks at its start. -/
def trimStart (t : Text) : Text := t.dropWhile isBlank

/-- The text without blanks at its end. -/
def trimEnd (t : Text) : Text := dropEndWhile isBlank t

/-- The text without blanks at both ends. -/
def trim (t : Text) : Text := trimEnd (trimStart t)

/-- Whether a text is empty or holds only blanks. -/
def isBlankText (t : Text) : Bool := t.all isBlank

/-- Cuts a list after each occurrence of `x`. No piece is empty; only the last may lack an `x` at
its end. -/
def cutAfter {α : Type} [DecidableEq α] (x : α) : List α → List (List α)
  | [] => []
  | c :: r =>
    if c = x then [x] :: cutAfter x r
    else
      match cutAfter x r with
      | [] => [[c]]
      | p :: ps => (c :: p) :: ps

/-- Cuts a text after each line feed. -/
def pieces (t : Text) : List Text := cutAfter '\n' t

/-- A piece without its terminator: all line feeds and carriage returns at its end are dropped. -/
def lineText (piece : Text) : Text :=
  dropEndWhile (fun c => c == '\n' || c == '\r') piece

/-- What `lineText` drops. -/
def terminator (piece : Text) : Text := piece.drop (lineText piece).length

/-- Drops one line feed at the end, and then one carriage return before it. A carriage return that
no line feed follows stays. -/
def dropLineEnd (piece : Text) : Text :=
  match piece.reverse with
  | '\n' :: '\r' :: r => r.reverse
  | '\n' :: r => r.reverse
  | _ => piece

/-- The lines of a text without their ends (`\n` or `\r\n`). -/
def lines (t : Text) : List Text := (pieces t).map dropLineEnd

/-- How many lines a text has; an unfinished last line counts, an empty one after the last line
feed does not. -/
def lineCount (t : Text) : Nat := (pieces t).length

/-- How many line feeds a text holds. -/
def lineFeeds (t : Text) : Nat := t.count '\n'

/-- A text as messages quote it. -/
def quoted (t : Text) : Text := '\'' :: t ++ ['\'']

/-- A number in decimal digits. -/
def ofNat (n : Nat) : Text := Nat.toDigits 10 n

/-- A whole number in decimal digits, with a sign if it is negative. -/
def ofInt (n : Int) : Text := if n < 0 then '-' :: ofNat n.natAbs else ofNat n.natAbs

/-- The number that decimal digits stand for. There must be a digit, and nothing else. -/
def toNat? (t : Text) : Option Nat :=
  if !t.isEmpty && t.all Char.isDigit then some (Nat.ofDigitChars 10 t 0) else none

/-- The number up to `max` that decimal digits stand for, perhaps after a plus sign. -/
def toNatUpTo? (max : Nat) (t : Text) : Option Nat :=
  let digits :=
    match t with
    | '+' :: r => r
    | r => r
  (toNat? digits).filter (· ≤ max)

/-- The parts before and after the first occurrence of a character. -/
def splitFirst? (c : Char) : Text → Option (Text × Text)
  | [] => none
  | d :: r => if d = c then some ([], r) else (splitFirst? c r).map fun (a, b) => (d :: a, b)

/-! ## Nothing is lost by cutting -/

/-- The parts of a list make it. -/
theorem flatten_cutAfter {α : Type} [DecidableEq α] (x : α) (l : List α) :
    (cutAfter x l).flatten = l := by
  induction l with
  | nil => rfl
  | cons c r ih =>
    unfold cutAfter
    split
    · next h => simp [h, ih]
    · split
      · next hp => simpa [hp] using ih
      · next hp => simpa [hp] using ih

/-- No part is empty. -/
theorem ne_nil_of_mem_cutAfter {α : Type} [DecidableEq α] {x : α} {l p : List α}
    (h : p ∈ cutAfter x l) : p ≠ [] := by
  induction l generalizing p with
  | nil => cases h
  | cons c r ih =>
    unfold cutAfter at h
    split at h
    · rcases List.mem_cons.1 h with rfl | h
      · exact List.cons_ne_nil _ _
      · exact ih h
    · split at h
      · rcases List.mem_singleton.1 h with rfl
        exact List.cons_ne_nil _ _
      · next hp =>
        rcases List.mem_cons.1 h with rfl | h
        · exact List.cons_ne_nil _ _
        · exact ih (by rw [hp]; exact List.mem_cons_of_mem _ h)

/-- The pieces of a text make it. -/
theorem flatten_pieces (t : Text) : (pieces t).flatten = t := flatten_cutAfter ..

/-- No piece is empty. -/
theorem ne_nil_of_mem_pieces {t p : Text} (h : p ∈ pieces t) : p ≠ [] := ne_nil_of_mem_cutAfter h

end Text

end Marginalia
