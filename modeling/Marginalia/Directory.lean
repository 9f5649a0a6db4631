import Marginalia.Failure
import Marginalia.Text.Utf8

/-!
# Directories

A directory of known files, and what is found on a path that starts in it. Nothing is known to lie
outside of it but further directories.
-/

namespace Marginalia

/-- The files below a directory; each has the names that lead to it. -/
structure Directory where
  files : List (List Text × Utf8.Bytes)
  deriving DecidableEq, Repr

namespace Directory

/-- A place that a path has reached. -/
inductive Place where
  /-- The directory itself, or one in it. -/
  | inside (names : List Text)
  /-- A directory outside. -/
  | outside
  | file (bytes : Utf8.Bytes)
  deriving DecidableEq, Repr

/-- The directory of files whose paths are given as texts. -/
def ofPaths (files : List (Text × Utf8.Bytes)) : Directory :=
  ⟨files.map fun (path, bytes) => (path.splitOn '/', bytes)⟩

/-- The place with a name in a directory. -/
def enter (d : Directory) (names : List Text) (name : Text) : Except FileFault Place :=
  let next := names ++ [name]
  match d.files.find? fun f => f.1 == next with
  | some (_, bytes) => .ok (.file bytes)
  | none =>
    if d.files.any fun f => next.isPrefixOf f.1 then .ok (.inside next) else .error .notFound

/-- Goes one part of a path further. -/
def step (d : Directory) (p : Place) (part : Text) : Except FileFault Place :=
  match p with
  | .file _ => .error .notDirectory
  | .outside =>
    if part.isEmpty || part == ['.'] || part == ['.', '.'] then .ok .outside else .error .notFound
  | .inside names =>
    if part.isEmpty || part == ['.'] then .ok p
    else if part == ['.', '.'] then
      .ok (if names.isEmpty then .outside else .inside names.dropLast)
    else d.enter names part

/-- The place to which a path leads. -/
def resolve (d : Directory) (path : Text) : Except FileFault Place :=
  match path with
  | [] => .error .notFound
  | '/' :: r => (r.splitOn '/').foldlM d.step .outside
  | _ => (path.splitOn '/').foldlM d.step (.inside [])

/-- The content of the file to which a path leads. -/
def read (d : Directory) (path : Text) : Except FileFault Utf8.Bytes := do
  match ← d.resolve path with
  | .file bytes => return bytes
  | _ => throw .isDirectory

end Directory

end Marginalia
