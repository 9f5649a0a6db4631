import Marginalia.Annotation
import Marginalia.Binary64
import Marginalia.Failure
import Marginalia.Text.Utf8

/-!
# Settings

A table of texts by name. It is built in three layers, each of which hides the ones before it: the
standard values, the pairs of a settings file, and the environment. A name whose value is empty
counts as not set.

The environment comes as bytes. All its names and values have to be texts, also those that are no
settings; otherwise there are no settings at all.
-/

namespace Marginalia

/-- Names and their values; of several values for one name the last counts. -/
structure Settings where
  pairs : List (Text × Text)
  deriving DecidableEq, Repr

namespace Settings

/-! ## Layers -/

/-- The values that hold where nothing else is set. -/
def standard : List (Text × Text) :=
  [("LINEWISE_INTERPRETER".toList, "ruby".toList), ("LINEWISE_TIMEOUT".toList, "0".toList),
    ("LINEWISE_PORT".toList, "0".toList),
    ("LINEWISE_ALIGNMENT".toList, Alignment.name .chunk),
    ("LINEWISE_DEBUG".toList, "false".toList)]

/-- All names that have a meaning. -/
def names : List Text :=
  ["LINEWISE_INTERPRETER".toList, "LINEWISE_TIMEOUT".toList, "LINEWISE_PORT".toList,
    "LINEWISE_ALIGNMENT".toList, "LINEWISE_DEBUG".toList, "LINEWISE_REQUIRE".toList,
    "LINEWISE_LOAD_PATH".toList, "LINEWISE_MAX_LINE_CAPTURES".toList,
    "LINEWISE_ENCODING".toList, "LINEWISE_RESULT_LENGTH".toList]

/-- The standard values below some pairs. -/
def ofPairs (pairs : List (Text × Text)) : Settings := ⟨standard ++ pairs⟩

/-- Where the settings file lies in the directory of such files. -/
def filePath : Text := "linewise/linewiserc".toList

/-- The texts of lines up to the first that is not UTF-8. -/
def readableLines : List Utf8.Bytes → List Text
  | [] => []
  | line :: lines =>
    match Utf8.decode? line with
    | some t => t :: readableLines lines
    | none => []

/-- The pair that a line of a settings file stands for: a name, `=`, and a value. Empty lines, lines
that start with `#`, and lines without `=` stand for none. -/
def linePair? (line : Text) : Option (Text × Text) :=
  let t := Text.trim line
  -- blanks are gone, so that a comment may be indented
  if t.isEmpty || t.head? == some '#' then none
  else (Text.splitFirst? '=' t).map fun (key, value) => (Text.trim key, Text.trim value)

/-- The pairs of a settings file. -/
def filePairs (bytes : Utf8.Bytes) : List (Text × Text) :=
  (readableLines (Text.cutAfter 10 bytes)).filterMap linePair?

/-- Whether a variable of the environment is a setting. -/
def isSetting (name : Text) : Bool := "LINEWISE_".toList.isPrefixOf name

/-- A variable as it stands in the environment. -/
def inBytes (v : Text × Text) : Utf8.Bytes × Utf8.Bytes := (Utf8.encode v.1, Utf8.encode v.2)

/-- Why there are no settings: the first name or value of the environment that is no text. -/
structure Fault where
  word : Utf8.Bytes
  deriving DecidableEq, Repr

/-- The text of a name or a value of the environment. -/
def wordText (word : Utf8.Bytes) : Except Fault Text :=
  match Utf8.decode? word with
  | some t => .ok t
  | none => .error ⟨word⟩

/-- The variables of an environment. -/
def environmentPairs : List (Utf8.Bytes × Utf8.Bytes) → Except Fault (List (Text × Text))
  | [] => .ok []
  | (name, value) :: rest => do
    let name ← wordText name
    let value ← wordText value
    return (name, value) :: (← environmentPairs rest)

/-- The settings of a file, if there is one, and of an environment. -/
def load (file : Option Utf8.Bytes) (environment : List (Utf8.Bytes × Utf8.Bytes)) :
    Except Fault Settings := do
  let pairs ← environmentPairs environment
  return ofPairs ((file.map filePairs).getD [] ++ pairs.filter fun (name, _) => isSetting name)

/-! ## Values -/

/-- The last value for a name in some pairs. -/
def lookup (name : Text) : List (Text × Text) → Option Text
  | [] => none
  | (n, v) :: r => (lookup name r).or (if n = name then some v else none)

/-- The value of a name that is set. -/
def get? (s : Settings) (name : Text) : Option Text :=
  (lookup name s.pairs).filter fun v => !v.isEmpty

/-- Whether a setting is on: `1`, or `true` in capital or small letters. -/
def isOn (s : Settings) (name : Text) : Bool :=
  (s.get? name).any fun v => v.map Char.toLower == "true".toList || v == ['1']

/-- The greatest number of 64 bits. -/
def greatestCount : Nat := UInt64.size - 1

/-- The greatest number of a port. -/
def greatestPort : Nat := UInt16.size - 1

/-- A setting that is a number of 64 bits. -/
def count? (s : Settings) (name : Text) : Option Nat :=
  (s.get? name).bind (Text.toNatUpTo? greatestCount)

/-- A setting that is a number of seconds, in nanoseconds. -/
def duration? (s : Settings) (name : Text) : Option Nat := do
  let v ← s.get? name
  let seconds ← Binary64.parse? v
  seconds.toNanos.toOption

/-- The entries of a setting that is a list with commas; empty entries are left out. -/
def list (s : Settings) (name : Text) : List Text :=
  match s.get? name with
  | some v => ((v.splitOn ',').map Text.trim).filter fun t => !t.isEmpty
  | none => []

/-- The entries of a setting that is a list of paths with colons. -/
def paths (s : Settings) (name : Text) : List Text :=
  match s.get? name with
  | some v => v.splitOn ':'
  | none => []

/-- How annotations are to be written. -/
def annotateOptions (s : Settings) : Except Failure AnnotateOptions :=
  let name := (s.get? "LINEWISE_ALIGNMENT".toList).getD (Alignment.name .chunk)
  match Alignment.ofName? name with
  | some alignment =>
    .ok { alignment := alignment, maxLength := s.count? "LINEWISE_RESULT_LENGTH".toList }
  | none => .error (.invalidOption (.unknownAlignment name))

end Settings

end Marginalia
