import Marginalia.Text

/-!
# Markers

The words by which recorded values are reported and written down.
-/

namespace Marginalia

/-- The words shared by the instrumented program and the annotated one. -/
structure Markers where
  /-- What a recording call names: it takes a line and a value and returns the value. -/
  record : Text := "::Linewise.record_result".toList
  /-- What introduces the values of a line. -/
  value : Text := "# => ".toList
  /-- What introduces the exceptions of a line, and those that ended the program. -/
  exception : Text := "# ~> ".toList
  /-- What introduces a line of output. -/
  stdout : Text := "# >> ".toList
  deriving DecidableEq, Repr

namespace Markers

/-- The starts by which a comment is known as an annotation. -/
def starts (m : Markers) : List Text :=
  [Text.trimEnd m.value, Text.trimEnd m.exception, Text.trimEnd m.stdout]

/-- Whether a comment is an annotation. -/
def isAnnotation (m : Markers) (comment : Text) : Bool :=
  m.starts.any fun s => s.isPrefixOf comment

end Markers

end Marginalia
