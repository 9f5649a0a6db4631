import Marginalia.Text

/-!
# Flags

The flags of the command, with what each is called and whether a value belongs to it.
-/

namespace Marginalia

/-- A flag of the command. -/
inductive Flag where
  | timeout | maxLineCaptures | requireFile | loadPath | encoding | programStdin | port
  | interpreter | alignment | resultLength | clean | json | debug | help | version
  deriving DecidableEq, Repr

namespace Flag

/-- All flags, in the order in which they are explained. -/
def all : List Flag :=
  [.timeout, .maxLineCaptures, .requireFile, .loadPath, .encoding, .programStdin, .port,
    .interpreter, .alignment, .resultLength, .clean, .json, .debug, .help, .version]

/-- The name of a flag after two dashes. -/
def name : Flag → Text
  | .timeout => "timeout".toList
  | .maxLineCaptures => "max-line-captures".toList
  | .requireFile => "require".toList
  | .loadPath => "load-path".toList
  | .encoding => "encoding".toList
  | .programStdin => "program-stdin".toList
  | .port => "port".toList
  | .interpreter => "interpreter".toList
  | .alignment => "alignment".toList
  | .resultLength => "result-length".toList
  | .clean => "clean".toList
  | .json => "json".toList
  | .debug => "debug".toList
  | .help => "help".toList
  | .version => "version".toList

/-- The letter of a flag after one dash, if it has one. -/
def letter? : Flag → Option Char
  | .timeout => some 't'
  | .maxLineCaptures => some 'n'
  | .requireFile => some 'r'
  | .loadPath => some 'I'
  | .encoding => some 'E'
  | .alignment => some 'a'
  | .resultLength => some 'l'
  | .clean => some 'c'
  | .help => some 'h'
  | .version => some 'V'
  | _ => none

/-- What the value of a flag is called; a switch has no value. -/
def valueName? : Flag → Option Text
  | .timeout => some "TIMEOUT".toList
  | .maxLineCaptures => some "MAX_LINE_CAPTURES".toList
  | .requireFile => some "REQUIRE".toList
  | .loadPath => some "LOAD_PATH".toList
  | .encoding => some "ENCODING".toList
  | .programStdin => some "FILE".toList
  | .port => some "PORT".toList
  | .interpreter => some "INTERPRETER".toList
  | .alignment => some "ALIGNMENT".toList
  | .resultLength => some "RESULT_LENGTH".toList
  | _ => none

/-- Whether a value belongs to the flag. -/
def takesValue (f : Flag) : Bool := f.valueName?.isSome

/-- Whether the flag may be given more than once. -/
def repeats : Flag → Bool
  | .requireFile | .loadPath => true
  | _ => false

/-- What the flag is for. -/
def purpose : Flag → Text
  | .timeout => "Seconds before the program is killed (0 waits forever)".toList
  | .maxLineCaptures => "Keep at most this many results per line".toList
  | .requireFile => "Library to require before the program. Can be used multiple times".toList
  | .loadPath => "Directory to add to the load path. Can be used multiple times".toList
  | .encoding => "Source encoding passed to the interpreter (e.g. UTF-8)".toList
  | .programStdin => "File whose contents become the program's standard input".toList
  | .port => "Port for the event stream (0 picks a free one)".toList
  | .interpreter => "Interpreter executable".toList
  | .alignment => "Annotation alignment: line, chunk or file".toList
  | .resultLength => "Truncate each annotation to this many characters".toList
  | .clean => "Print the program with previous annotations removed and exit".toList
  | .json => "Print the outcome as JSON instead of the annotated program".toList
  | .debug => "Log every event to stderr".toList
  | .help => "Print help".toList
  | .version => "Print version".toList

/-- The flag with a name. -/
def ofName? (name : Text) : Option Flag := all.find? fun f => f.name == name

/-- The flag with a letter. -/
def ofLetter? (letter : Char) : Option Flag := all.find? fun f => f.letter? == some letter

end Flag

end Marginalia
