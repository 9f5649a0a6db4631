import Marginalia.Path
import Marginalia.Settings

/-!
# Options of an evaluation

How a program is to be run.
-/

namespace Marginalia

/-- How a program is to be run. -/
structure EvalOptions where
  /-- What is loaded before the program. -/
  requireFiles : List Text := []
  loadPathDirs : List Text := []
  /-- How many nanoseconds the program may take; 0 stands for any time. -/
  timeout : Nat := 0
  /-- How many captures are kept for a line, if there is a limit. -/
  maxLineCaptures : Option Nat := none
  /-- Where events are awaited; 0 stands for any free port. -/
  port : Nat := 0
  /-- The path under which the program runs; only its last name counts. -/
  fileName : Text := "program.rb".toList
  encoding : Option Text := none
  stdin : Text := []
  interpreter : Text := "ruby".toList
  debug : Bool := false
  deriving DecidableEq, Repr

namespace EvalOptions

/-- The options that some settings ask for. -/
def ofSettings (s : Settings) : EvalOptions where
  requireFiles := s.list "LINEWISE_REQUIRE".toList
  loadPathDirs := s.paths "LINEWISE_LOAD_PATH".toList
  timeout := (s.duration? "LINEWISE_TIMEOUT".toList).getD 0
  maxLineCaptures := s.count? "LINEWISE_MAX_LINE_CAPTURES".toList
  port :=
    ((s.get? "LINEWISE_PORT".toList).bind (Text.toNatUpTo? Settings.greatestPort)).getD 0
  encoding := s.get? "LINEWISE_ENCODING".toList
  interpreter := (s.get? "LINEWISE_INTERPRETER".toList).getD "ruby".toList
  debug := s.isOn "LINEWISE_DEBUG".toList

/-- Why the options are refused, if they are. -/
def fault? (o : EvalOptions) : Option OptionFault :=
  if Text.isBlankText o.interpreter then some .emptyInterpreter
  else if (Path.fileName? o.fileName).isNone then some (.noFileName o.fileName)
  else if o.encoding.any Text.isBlankText then some .emptyEncoding
  else if o.requireFiles.any Text.isBlankText then some .emptyRequiredName
  else none

/-- Accepts the options, or says why not. -/
def validate (o : EvalOptions) : Except Failure Unit :=
  match o.fault? with
  | some fault => .error (.invalidOption fault)
  | none => .ok ()

end EvalOptions

end Marginalia
