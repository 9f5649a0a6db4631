import Marginalia.CommandLine

/-!
# Help

What the command prints when its command line asks for nothing.
-/

namespace Marginalia

namespace Flag

/-- How a flag is written. -/
def usage (f : Flag) : Text :=
  (match f.letter? with
    | some c => ['-', c, ',', ' ']
    | none => "    ".toList) ++ "--".toList ++ f.name ++
  (match f.valueName? with
    | some v => " <".toList ++ v ++ ['>']
    | none => [])

end Flag

namespace UsageStop

/-- How the command is called. -/
def usageLine : Text := "Usage: linewise [OPTIONS] [FILE]\n".toList

/-- The explanation of one word of a call. -/
def entry (word purpose : Text) : Text :=
  "  ".toList ++ word ++ "\n          ".toList ++ purpose ++ ['\n']

/-- The explanation of the command. -/
def help : Text :=
  "Annotate each line of a Ruby program with the values it produced\n\n".toList ++ usageLine ++
    "\nArguments:\n".toList ++
    entry "[FILE]".toList "Program to evaluate. Read from stdin when omitted".toList ++
    "\nOptions:\n".toList ++ Flag.all.flatMap fun f => entry f.usage f.purpose

/-- The version of the command. -/
def version : Text := "linewise 0.1.0\n".toList

/-- Whether the command line asks to be told something, and is not refused. -/
def isRequest : UsageStop → Bool
  | .helpWanted | .versionWanted => true
  | _ => false

/-- Why a command line is refused. -/
def reason : UsageStop → Text
  | .unknownArgument => "unexpected argument found".toList
  | .missingValue => "a value is required but none was supplied".toList
  | .invalidValue => "invalid value".toList
  | .unwantedValue => "unexpected value for a switch".toList
  | .conflict => "arguments cannot be used together, or more than once".toList
  | .helpWanted => help
  | .versionWanted => version

/-- What is printed: what was asked for, or why the command line is refused. -/
def message (u : UsageStop) : Text :=
  if u.isRequest then u.reason
  else "error: ".toList ++ u.reason ++ "\n\n".toList ++ usageLine ++
    "\nFor more information, try '--help'.\n".toList

end UsageStop

end Marginalia
