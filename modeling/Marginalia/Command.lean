import Marginalia.Binary64.Shortest
import Marginalia.CommandLine
import Marginalia.Engine.Report
import Marginalia.Run.Invocation

/-!
# The command

What the command does for its command line and surroundings: it loads the settings, settles the
options, reads the program, evaluates it, and prints the annotated program or a report. All of it is
a function of a value, `Surroundings`, that holds what the command can see.
-/

namespace Marginalia

/-- What the command can see of the system on which it runs. -/
structure Surroundings where
  /-- The content of the settings file, if there is one. -/
  settingsFile : Option Utf8.Bytes
  /-- The names and the values of the variables. -/
  environment : List (Utf8.Bytes × Utf8.Bytes)
  /-- The standard input; none if it is a terminal. -/
  stdin : Option Utf8.Bytes
  contentOf : Text → Except FileFault Utf8.Bytes
  runner : Runner

/-- Why the command gives up. -/
inductive Complaint where
  | failure (f : Failure)
  /-- A number of seconds on the command line that is no duration. -/
  | timeout (seconds : Binary64) (fault : Binary64.DurationFault)
  /-- A name on the command line that no alignment has. -/
  | alignment (name : Text)
  /-- A file on the command line that cannot be read. -/
  | file (use path : Text) (fault : FileFault)
  /-- No file is given, and standard input is a terminal. -/
  | noProgram
  deriving DecidableEq, Repr

namespace Complaint

/-- What lies behind a failure; a failure whose own message tells it already is told twice. -/
def causes : Failure → List Text
  | .spawn _ fault => [fault.message]
  | _ => []

/-- The wording of a complaint: from the outermost to the innermost cause. -/
def message : Complaint → Text
  | .failure f => ": ".toList.intercalate (f.message :: causes f)
  | .timeout seconds fault =>
    "invalid --timeout ".toList ++ seconds.text ++ ": ".toList ++ fault.message
  | .alignment name => Alignment.unknownName name
  | .file use path fault => use ++ ": ".toList ++ path ++ ": ".toList ++ fault.message
  | .noProgram => "no program given: pass a FILE or pipe one on stdin".toList

end Complaint

/-- Why the command breaks off and leaves nothing, not even a complaint. -/
inductive Breakdown where
  /-- There are no settings. -/
  | settings (fault : Settings.Fault)
  /-- There is no answer for the program. -/
  | program (fault : Source.Fault)
  deriving DecidableEq, Repr

/-- What a process leaves: its output, and its status. -/
structure Printed where
  stdout : Text := []
  stderr : Text := []
  status : Nat := 0
  deriving DecidableEq, Repr

namespace Command

/-! ## Options -/

/-- The text of a file. -/
def readText (s : Surroundings) (use path : Text) : Except Complaint Text :=
  match s.contentOf path with
  | .error fault => .error (.file use path fault)
  | .ok bytes =>
    match Utf8.decode? bytes with
    | some t => .ok t
    | none => .error (.file use path .notUtf8)

/-- A failure as a complaint. -/
def orComplain {α : Type} (r : Except Failure α) : Except Complaint α := r.mapError .failure

/-- How long the program may take: what the command line says, or else what the settings do. -/
def timeout (c : CommandLine) (configured : Nat) : Except Complaint Nat :=
  match c.timeout with
  | none => .ok configured
  | some seconds => seconds.toNanos.mapError (.timeout seconds)

/-- The standard input of the program. -/
def programStdin (c : CommandLine) (s : Surroundings) (configured : Text) : Except Complaint Text :=
  match c.programStdin with
  | none => .ok configured
  | some path => readText s "reading program stdin".toList path

/-- Where annotations start. -/
def alignment (c : CommandLine) (configured : Alignment) : Except Complaint Alignment :=
  match c.alignment with
  | none => .ok configured
  | some name =>
    match Alignment.ofName? name with
    | some a => .ok a
    | none => .error (.alignment name)

/-- The settings that the command finds. -/
def settings (s : Surroundings) : Except Settings.Fault Settings :=
  Settings.load s.settingsFile s.environment

/-- The options: those of the settings, as far as the command line does not say otherwise. Lists of
the command line are added to those of the settings. -/
def options (configured : Settings) (c : CommandLine) (s : Surroundings) :
    Except Complaint (EvalOptions × AnnotateOptions) := do
  let o := EvalOptions.ofSettings configured
  -- a bad alignment in the settings is refused even if the command line has another one
  let a ← orComplain configured.annotateOptions
  let timeout ← timeout c o.timeout
  let stdin ← programStdin c s o.stdin
  let alignment ← alignment c a.alignment
  let o := { o with
    requireFiles := o.requireFiles ++ c.requireFiles
    loadPathDirs := o.loadPathDirs ++ c.loadPathDirs
    timeout := timeout
    maxLineCaptures := c.maxLineCaptures.or o.maxLineCaptures
    port := c.port.getD o.port
    encoding := c.encoding.or o.encoding
    stdin := stdin
    interpreter := c.interpreter.getD o.interpreter
    debug := o.debug || c.debug }
  orComplain o.validate
  return (o, { a with alignment := alignment, maxLength := c.resultLength.or a.maxLength })

/-! ## The program -/

/-- The program: from the file, or else from standard input. -/
def program (c : CommandLine) (s : Surroundings) : Except Complaint Program :=
  match c.file, s.stdin with
  | some path, _ => do
    let source ← readText s "reading program".toList path
    return { Program.ofSource source with fileName := some path }
  | none, none => .error .noProgram
  | none, some bytes =>
    match Utf8.decode? bytes with
    | some source => .ok (Program.ofSource source)
    | none => .error (.failure (.io .notUtf8))

/-- The engine for the program. The inner error stands for a program for which there is no
answer. -/
def engine (configured : Settings) (c : CommandLine) (s : Surroundings) :
    Except Complaint (Except Source.Fault Engine) := do
  let (o, a) ← options configured c s
  let p ← program c s
  return Engine.ofProgram p o a

/-! ## What is printed -/

/-- A remark on standard error. -/
def remark (label text : Text) : Text := label ++ ": ".toList ++ text ++ ['\n']

/-- What is said about an outcome beside the program. -/
def diagnosis (e : Engine) : Outcome → Text
  | .success _ => []
  | .timedOut =>
    remark "timeout".toList ("program ran longer than ".toList ++
      (Binary64.ofNanos e.options.timeout).text ++ " seconds".toList)
  | .unexpectedException exit => remark "unexpected exit".toList exit.message
  | .syntaxError error => remark "syntax error".toList error.message

/-- The status for an outcome: 1 if an exception left the program, 2 if there is no result. -/
def status : Outcome → Nat
  | .success result => if result.exceptions.isEmpty then 0 else 1
  | _ => 2

/-- What is printed about a complaint. -/
def complain (c : Complaint) : Printed :=
  { stderr := remark "linewise".toList c.message, status := 2 }

/-- What is printed about an outcome. -/
def present (c : CommandLine) (e : Engine) (o : Outcome) : Printed :=
  if c.json then
    { stdout := (Report.ofOutcome (e.bodyFor o) o).pretty 0 ++ ['\n'], status := status o }
  else { stdout := e.bodyFor o, stderr := diagnosis e o, status := status o }

/-- What the command prints for a program. -/
def evaluate (c : CommandLine) (s : Surroundings) (e : Engine) : Printed :=
  if c.clean then { stdout := e.cleanedBody }
  else
    match e.evaluate s.runner with
    | (.ok outcome, e) => present c e outcome
    | (.error failure, _) => complain (.failure failure)

/-- What the command prints for a command line. -/
def run (c : CommandLine) (s : Surroundings) : Except Breakdown Printed :=
  match settings s with
  | .error fault => .error (.settings fault)
  | .ok configured =>
    match engine configured c s with
    | .error complaint => .ok (complain complaint)
    | .ok e => (e.map (evaluate c s)).mapError .program

/-- The run that the command asks its runner for, if it does: the instrumented program, and how it
is to be run. -/
def demanded (c : CommandLine) (s : Surroundings) : Option (Text × EvalOptions) := do
  let configured ← (settings s).toOption
  let e ← (engine configured c s).toOption.bind Except.toOption
  match e.demand with
  | .run body => if c.clean then none else some (body, e.options)
  | _ => none

end Command

end Marginalia
