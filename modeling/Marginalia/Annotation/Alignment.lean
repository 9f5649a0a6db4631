import Marginalia.Text

/-!
# Alignment

In which column the annotations of a program start. Columns count characters. A chunk is a run of
lines that are not blank; its annotations, like those of a file, share one column, which is chosen
by the lines that may be annotated, whether they are or not.
-/

namespace Marginalia

/-- Where annotations start. -/
inductive Alignment where
  /-- Two columns after the code of each line. -/
  | line
  /-- In one column for each run of lines that are not blank. -/
  | chunk
  /-- In one column for the whole program. -/
  | file
  deriving DecidableEq, Repr

namespace Alignment

/-- The name of an alignment. -/
def name : Alignment → Text
  | .line => "line".toList
  | .chunk => "chunk".toList
  | .file => "file".toList

/-- The alignment with a name, which may be in capital letters. -/
def ofName? (t : Text) : Option Alignment :=
  [line, chunk, file].find? fun a => a.name == t.map Char.toLower

/-- The complaint about a name that no alignment has. -/
def unknownName (t : Text) : Text :=
  "unknown alignment ".toList ++ Text.quoted (t.map Char.toLower) ++
    " (expected line, chunk or file)".toList

/-- What alignment needs to know about a line. -/
structure Line where
  /-- How many columns its code takes. -/
  width : Nat
  blank : Bool
  /-- Whether it may be annotated. -/
  annotatable : Bool
  deriving DecidableEq, Repr

/-- Cuts lines into runs that are not blank; a blank line is a run of its own. -/
def runs : List Line → List (List Line)
  | [] => []
  | l :: ls =>
    match runs ls with
    | [] => [[l]]
    | r :: rs =>
      if l.blank || r.any Line.blank then [l] :: r :: rs else (l :: r) :: rs

/-- The greatest width among the lines that may be annotated. -/
def greatestWidth (ls : List Line) : Nat :=
  ((ls.filter Line.annotatable).map Line.width).foldl max 0

/-- The shared column of a run; a blank line has none. -/
def runColumn (run : List Line) : Nat := if run.any Line.blank then 0 else greatestWidth run + 2

/-- The column for each line, as far as lines share one. -/
def columns (a : Alignment) (ls : List Line) : List Nat :=
  match a with
  | .line => ls.map fun _ => 0
  | .file => ls.map fun _ => greatestWidth ls + 2
  | .chunk => (runs ls).flatMap fun run => run.map fun _ => runColumn run

theorem flatten_runs (ls : List Line) : (runs ls).flatten = ls := by
  induction ls with
  | nil => rfl
  | cons l ls ih =>
    unfold runs
    split
    · next h => simpa [h] using ih
    · next h =>
      rw [h] at ih
      split <;> simpa using ih

end Alignment

end Marginalia
