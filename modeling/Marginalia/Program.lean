import Marginalia.Text

/-!
# Programs

A program is kept with a line feed at its end. Whether that line feed was added is remembered, so
that it can be taken away again from any text made of the program.
-/

namespace Marginalia

/-- A program, and what is known about how it is to run. -/
structure Program where
  /-- The text, which ends in a line feed. -/
  body : Text
  /-- Whether the line feed at the end was added. -/
  missingNewline : Bool
  fileName : Option Text := none
  encoding : Option Text := none
  stdin : Text := []
  deriving DecidableEq, Repr

namespace Program

/-- Whether a text ends in a line feed. -/
def endsInLineFeed (t : Text) : Bool := t.getLast? == some '\n'

/-- The program with a given text. -/
def ofSource (source : Text) : Program :=
  if endsInLineFeed source then ⟨source, false, none, none, []⟩
  else ⟨source ++ ['\n'], true, none, none, []⟩

/-- Takes away one line feed at the end of a text, if one was added to the program. -/
def restoreNewline (p : Program) (t : Text) : Text :=
  if p.missingNewline && endsInLineFeed t then t.dropLast else t

theorem endsInLineFeed_body_ofSource (source : Text) : endsInLineFeed (ofSource source).body := by
  unfold ofSource
  split
  · assumption
  · simp [endsInLineFeed]

theorem restoreNewline_body_ofSource (source : Text) :
    (ofSource source).restoreNewline (ofSource source).body = source := by
  unfold ofSource
  split
  · simp [restoreNewline]
  · simp [restoreNewline, endsInLineFeed]

end Program

end Marginalia
