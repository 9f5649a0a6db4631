import Marginalia.EvalOptions

/-!
# Invocations of an interpreter

How an interpreter is called for a program. The program is written to a file in a directory of its
own, beside a file that is loaded before it and that opens the stream of events.
-/

namespace Marginalia

/-- The call of an interpreter. -/
structure Invocation where
  arguments : List Text
  /-- The file from which the program is read. -/
  programFile : Text
  body : Text
  stdin : Text
  /-- Whether the interpreter is asked to trace what it does. -/
  trace : Bool
  deriving DecidableEq, Repr

namespace Invocation

/-- The name of the file that opens the stream of events. -/
def preludeName : Text := "linewise_prelude.rb".toList

/-- The name of the file for a program whose path ends in none. -/
def standardName : Text := "program.rb".toList

/-- A flag before each of some values. -/
def flagged (flag : String) (values : List Text) : List Text :=
  values.flatMap fun v => [flag.toList, v]

/-- The name of the file from which a program is read. -/
def fileName (o : EvalOptions) : Text := (Path.fileName? o.fileName).getD standardName

/-- The call for a program whose files are in a directory. -/
def ofOptions (directory body : Text) (o : EvalOptions) : Invocation :=
  let file := Path.inDirectory directory (fileName o)
  { arguments :=
      flagged "-I" (directory :: o.loadPathDirs) ++
        flagged "-r" (Path.inDirectory directory preludeName :: o.requireFiles) ++
        flagged "-E" o.encoding.toList ++ [file]
    programFile := file
    body := body
    stdin := o.stdin
    trace := o.debug }

/-- How many bytes the name of a file may have. -/
def longestName : Nat := 255

/-- Whether a text holds the character that ends texts for the system. -/
def holdsNul (t : Text) : Bool := t.contains '\x00'

/-- Why the file with the program cannot be written, if it cannot. -/
def fileFault? (o : EvalOptions) : Option FileFault :=
  if holdsNul (fileName o) then
    some (.other "file name contained an unexpected NUL byte".toList)
  else if longestName < (Utf8.encode (fileName o)).length then
    some (.other "File name too long (os error 36)".toList)
  else none

/-- Why the call cannot be passed on to the system, if it cannot. -/
def argumentFault? (i : Invocation) (interpreter : Text) : Option FileFault :=
  if (interpreter :: i.arguments).any holdsNul then
    some (.other "nul byte found in provided data".toList)
  else none

end Invocation

end Marginalia
