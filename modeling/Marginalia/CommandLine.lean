import Marginalia.Binary64
import Marginalia.CommandLine.Flag
import Marginalia.Settings

/-!
# Command lines

A command line is read word by word. A flag or a file that has been met stays pending until it is
known whether the next word belongs to it; it is settled by the next flag or file, or by the end.
This decides which of two mistakes on one command line is reported: a word that is no flag is
refused at once, also while something is pending.
-/

namespace Marginalia

/-- What a command line asks for. -/
structure CommandLine where
  /-- The file with the program; without one the program comes from standard input. -/
  file : Option Text := none
  /-- A number of seconds. -/
  timeout : Option Binary64 := none
  maxLineCaptures : Option Nat := none
  requireFiles : List Text := []
  loadPathDirs : List Text := []
  encoding : Option Text := none
  /-- The file with the standard input of the program. -/
  programStdin : Option Text := none
  port : Option Nat := none
  interpreter : Option Text := none
  alignment : Option Text := none
  resultLength : Option Nat := none
  clean : Bool := false
  json : Bool := false
  debug : Bool := false
  deriving DecidableEq, Repr

/-- Why a command line asks for nothing. -/
inductive UsageStop where
  /-- A word that is no flag, or a second file. -/
  | unknownArgument
  /-- A flag without its value, or an empty path. -/
  | missingValue
  /-- A value of the wrong kind. -/
  | invalidValue
  /-- A value for a switch. -/
  | unwantedValue
  /-- Something given twice, or two things that exclude each other. -/
  | conflict
  | helpWanted
  | versionWanted
  deriving DecidableEq, Repr

namespace CommandLine

/-! ## Values -/

/-- A path, which must not be empty. -/
def path (value : Text) : Except UsageStop Text :=
  if value.isEmpty then .error .missingValue else .ok value

/-- A value that has been understood. -/
def required {α : Type} : Option α → Except UsageStop α
  | some a => .ok a
  | none => .error .invalidValue

/-- The number of a port. A sign is accepted as far as the number is one of a port. -/
def port? : Text → Option Nat
  | '-' :: r => (Text.toNat? r).filter (· == 0)
  | t => Text.toNatUpTo? Settings.greatestPort t

/-- Something that a word can give: the file, or a flag. -/
inductive Subject where
  | file
  | flag (f : Flag)
  deriving DecidableEq, Repr

/-- Gives a value to something that has one. -/
def assign (c : CommandLine) (value : Text) : Subject → Except UsageStop CommandLine
  | .file => return { c with file := some (← path value) }
  | .flag .timeout => return { c with timeout := some (← required (Binary64.parse? value)) }
  | .flag .maxLineCaptures =>
    return { c with
      maxLineCaptures := some (← required (Text.toNatUpTo? Settings.greatestCount value)) }
  | .flag .requireFile => return { c with requireFiles := c.requireFiles ++ [value] }
  | .flag .loadPath => return { c with loadPathDirs := c.loadPathDirs ++ [← path value] }
  | .flag .encoding => return { c with encoding := some value }
  | .flag .programStdin => return { c with programStdin := some (← path value) }
  | .flag .port => return { c with port := some (← required (port? value)) }
  | .flag .interpreter => return { c with interpreter := some value }
  | .flag .alignment => return { c with alignment := some value }
  | .flag .resultLength =>
    return { c with
      resultLength := some (← required (Text.toNatUpTo? Settings.greatestCount value)) }
  | .flag _ => return c

/-- Turns a switch on. -/
def turnOn (c : CommandLine) : Flag → Except UsageStop CommandLine
  | .clean => .ok { c with clean := true }
  | .json => .ok { c with json := true }
  | .debug => .ok { c with debug := true }
  | .help => .error .helpWanted
  | .version => .error .versionWanted
  | _ => .ok c

/-! ## Words -/

/-- What is known after some words. -/
structure Reading where
  line : CommandLine := {}
  /-- What has been given already and may not be given again. -/
  given : List Subject := []
  /-- What has been met and is not settled, with its value once there is one. -/
  pending : Option (Subject × Option Text) := none
  /-- Whether a file has been met. -/
  fileMet : Bool := false
  /-- Whether no further word is a flag. -/
  flagsOver : Bool := false
  deriving DecidableEq, Repr

namespace Reading

/-- Notes that something is given; it may have been given before only if it repeats. -/
def note (r : Reading) (s : Subject) : Except UsageStop Reading :=
  let repeats :=
    match s with
    | .file => false
    | .flag f => f.repeats
  if r.given.contains s && !repeats then .error .conflict
  else .ok { r with given := s :: r.given }

/-- Gives a value to something. -/
def give (r : Reading) (s : Subject) (value : Text) : Except UsageStop Reading := do
  let r ← r.note s
  return { r with line := ← r.line.assign value s }

/-- Settles what is pending. -/
def settle (r : Reading) : Except UsageStop Reading :=
  match r.pending with
  | none => .ok r
  | some (_, none) => .error .missingValue
  -- a second value for one flag is refused before it is understood
  | some (s, some value) => { r with pending := none }.give s value

/-- Takes a switch. -/
def takeSwitch (r : Reading) (f : Flag) : Except UsageStop Reading := do
  let r ← r.settle
  let r ← r.note (.flag f)
  return { r with line := ← r.line.turnOn f }

/-- Takes a flag to which a value belongs; the value may be attached. -/
def takeValued (r : Reading) (f : Flag) (attached : Option Text) : Except UsageStop Reading := do
  let r ← r.settle
  match attached with
  | some value => r.give (.flag f) value
  | none => return { r with pending := some (.flag f, none) }

/-- Takes a word with two dashes, given without them. A value may follow an equals sign. -/
def takeLong (r : Reading) (word : Text) : Except UsageStop Reading :=
  let (name, attached) :=
    match Text.splitFirst? '=' word with
    | some (name, value) => (name, some value)
    | none => (word, none)
  match Flag.ofName? name with
  -- refused at once, whatever is pending
  | none => .error .unknownArgument
  | some f =>
    if f.takesValue then r.takeValued f attached
    else if attached.isSome then .error .unwantedValue
    else r.takeSwitch f

/-- A value that stands behind the letter of a flag, perhaps after an equals sign. -/
def attachedValue? : Text → Option Text
  | [] => none
  | '=' :: value => some value
  | value => some value

/-- Takes the letters of a word with one dash. The first flag to which a value belongs takes the
rest of the word. -/
def takeLetters (r : Reading) : Text → Except UsageStop Reading
  | [] => .ok r
  | c :: rest =>
    match Flag.ofLetter? c with
    | none => .error .unknownArgument
    | some f =>
      if f.takesValue then r.takeValued f (attachedValue? rest)
      else do (← r.takeSwitch f).takeLetters rest

/-- Takes a word that is no flag as the file. -/
def takeFile (r : Reading) (word : Text) : Except UsageStop Reading :=
  if r.fileMet then .error .unknownArgument
  else do
    let r ← r.settle
    return { r with pending := some (.file, some word), fileMet := true }

/-- Takes a word that is no flag: the value that something waits for, or the file. -/
def takePlain (r : Reading) (word : Text) : Except UsageStop Reading :=
  match r.pending with
  | some (s, none) => .ok { r with pending := some (s, some word) }
  | _ => r.takeFile word

/-- Takes a word. Two dashes end the flags; one dash alone is no flag. -/
def takeWord (r : Reading) (word : Text) : Except UsageStop Reading :=
  if r.flagsOver then r.takeFile word
  else
    match word with
    | ['-', '-'] => .ok { r with flagsOver := true }
    | '-' :: '-' :: rest => r.takeLong rest
    | '-' :: c :: rest => r.takeLetters (c :: rest)
    | word => r.takePlain word

/-- What the words ask for when there are no more. -/
def close (r : Reading) : Except UsageStop CommandLine := do
  let r ← r.settle
  if r.line.clean && r.line.json then .error .conflict else .ok r.line

end Reading

/-- What the words of a command line ask for. -/
def ofWords (words : List Text) : Except UsageStop CommandLine := do
  (← words.foldlM Reading.takeWord {}).close

end CommandLine

end Marginalia
