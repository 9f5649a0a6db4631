import Marginalia.Markers
import Marginalia.Source.Scanner

/-!
# Instrumented programs

A program in which every statement is the argument of a recording call, `RECORD(LINE, (STATEMENT))`.
Only text without line feeds is inserted, so that every line keeps its number.

The insertions are a list of values, sorted by position, and the instrumented text is spliced from
the program and that list.
-/

namespace Marginalia

open Source

/-- A text to be inserted before the character at `position`. -/
structure Insertion where
  position : Nat
  /-- Whether it opens a call, rather than closing one. -/
  opens : Bool
  /-- How many bodies are around its statement. -/
  depth : Nat
  text : Text
  deriving DecidableEq, Repr

namespace Insertion

/-- The order of insertions: by position; at one position closers come before openers, inner closers
before outer ones, and outer openers before inner ones. -/
def le (a b : Insertion) : Bool :=
  if a.position != b.position then a.position < b.position
  else
    match a.opens, b.opens with
    | false, true => true
    | true, false => false
    | true, true => a.depth ≤ b.depth
    | false, false => b.depth ≤ a.depth

/-- The two insertions around a statement. -/
def around (m : Markers) (s : Statement) : List Insertion :=
  [⟨s.start, true, s.depth, m.record ++ '(' :: Text.ofNat s.line ++ ", (".toList⟩,
    ⟨s.stop, false, s.depth, "))".toList⟩]

end Insertion

/-- The insertions for some statements, in order. -/
def insertions (m : Markers) (statements : List Statement) : List Insertion :=
  (statements.flatMap (Insertion.around m)).mergeSort Insertion.le

/-- Inserts texts into what follows position `here` of a program. -/
def splice (here : Nat) (rest : Text) : List Insertion → Text
  | [] => rest
  | i :: is =>
    rest.take (i.position - here) ++ i.text ++
      splice i.position (rest.drop (i.position - here)) is

/-- The instrumented program, given its statements. -/
def instrumentWith (s : Scan) (source : Text) (m : Markers) : Text :=
  splice 0 source (insertions m s.statements)

/-- The instrumented program, or why the program is refused. -/
def instrument (source : Text) (m : Markers) : Except Fault (Except SyntaxError Text) :=
  (scan source).map fun scanned => scanned.map fun s => instrumentWith s source m

end Marginalia
