import Marginalia.Text

/-!
# Paths

A path is a text whose parts stand between slashes. Only the name of the last part matters here.
-/

namespace Marginalia.Path

/-- The parts of a path; empty parts and lone dots name nothing. -/
def parts (path : Text) : List Text :=
  (path.splitOn '/').filter fun p => !p.isEmpty && p != ['.']

/-- The name of the file that a path leads to. A path that ends by going up, or that has no parts,
has none. -/
def fileName? (path : Text) : Option Text := (parts path).getLast?.filter (· != ['.', '.'])

/-- The path of something in a directory. -/
def inDirectory (directory name : Text) : Text := directory ++ '/' :: name

end Marginalia.Path
