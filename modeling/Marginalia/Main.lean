import Marginalia.Command
import Marginalia.CommandLine.Help

/-!
# The program

Reads what the command can see of the system, runs the command, and prints what it leaves. No
process is started from here, so that a program which would have to be run is met with a complaint.
-/

namespace Marginalia.Main

/-- The bytes of an array, in order. -/
def bytes (b : ByteArray) : Utf8.Bytes := b.toList

/-- The text of a string. -/
def text (s : String) : Text := s.toList

/-- Why the system refuses a file. -/
def fault : IO.Error → FileFault
  | .noFileOrDirectory .. => .notFound
  | .inappropriateType .. => .isDirectory
  | e => .other (text (toString e))

/-- The content of a file. -/
def readFile (path : Text) : IO (Except FileFault Utf8.Bytes) := do
  match ← (IO.FS.readBinFile (String.ofList path)).toBaseIO with
  | .ok b => return .ok (bytes b)
  | .error e => return .error (fault e)

/-- The content of the settings file, if there is one. -/
def settingsFile : IO (Option Utf8.Bytes) := do
  let home := (← IO.getEnv "HOME").getD ""
  let directory := (← IO.getEnv "XDG_CONFIG_HOME").getD (home ++ "/.config")
  return (← readFile (Path.inDirectory (text directory) Settings.filePath)).toOption

/-- The name and the value of a variable as the system lists it. A name may start with `=`. -/
def entry? : Utf8.Bytes → Option (Utf8.Bytes × Utf8.Bytes)
  | [] => none
  | b :: bs =>
    let name := bs.takeWhile (· != 61)
    if name.length < bs.length then some (b :: name, bs.drop (name.length + 1)) else none

/-- The variables of the environment: all of them where the system lists them, or else those that
are settings. -/
def environment : IO (List (Utf8.Bytes × Utf8.Bytes)) := do
  match ← readFile "/proc/self/environ".toList with
  | .ok listed => return (listed.splitOn 0).filterMap entry?
  | .error _ =>
    Settings.names.filterMapM fun name => do
      return (← IO.getEnv (String.ofList name)).map fun value => Settings.inBytes (name, text value)

/-- The standard input, unless it is a terminal. -/
def standardInput : IO (Option Utf8.Bytes) := do
  let input ← IO.getStdin
  if ← input.isTty then return none
  return some (bytes (← input.readBinToEnd))

/-- What the command can see for its command line. -/
def surroundings (c : CommandLine) : IO Surroundings := do
  let paths := c.file.toList ++ c.programStdin.toList
  let files ← paths.mapM fun path => do return (path, ← readFile path)
  return {
    settingsFile := ← settingsFile
    environment := ← environment
    stdin := ← if c.file.isSome then pure none else standardInput
    contentOf := fun path => (files.lookup path).getD (.error .notFound)
    runner := Runner.unavailable }

/-- Prints what a process leaves, and gives its status. -/
def leave (p : Printed) : IO UInt32 := do
  IO.print (String.ofList p.stdout)
  IO.eprint (String.ofList p.stderr)
  return UInt32.ofNat p.status

end Marginalia.Main

open Marginalia in
/-- Runs the command. A program for which there is no answer ends it with status 101. -/
def main (words : List String) : IO UInt32 := do
  match CommandLine.ofWords (words.map String.toList) with
  | .error stop =>
    if stop.isRequest then Main.leave { stdout := stop.message }
    else Main.leave { stderr := stop.message, status := 2 }
  | .ok c =>
    match Command.run c (← Main.surroundings c) with
    | .ok printed => Main.leave printed
    | .error _ => Main.leave { stderr := "linewise: no answer\n".toList, status := 101 }
