import Marginalia.Annotation.Alignment

/-!
# Failures

Why something could not be done. A failure is a cause; its wording is made from the cause in one
place. A program that is refused, that is stopped, or that dies has an outcome and is no failure.
-/

namespace Marginalia

/-- The questions that can be answered only after a program has been evaluated. -/
inductive Question where
  | outcome | results | timedOut | unexpectedException | isUnexpectedException | annotatedBody
  deriving DecidableEq, Repr

/-- How a message names a question. -/
def Question.name : Question → Text
  | .outcome => "outcome".toList
  | .results => "results".toList
  | .timedOut => "timed_out".toList
  | .unexpectedException => "unexpected_exception".toList
  | .isUnexpectedException => "is_unexpected_exception".toList
  | .annotatedBody => "annotated_body".toList

/-- Why an option is refused. -/
inductive OptionFault where
  | emptyInterpreter
  /-- The path under which the program is to run ends in no name. -/
  | noFileName (path : Text)
  | emptyEncoding
  | emptyRequiredName
  | unknownAlignment (name : Text)
  /-- A reason of the runner's own. -/
  | refusedByRunner (reason : Text)
  deriving DecidableEq, Repr

/-- The wording of the reason. -/
def OptionFault.reason : OptionFault → Text
  | .emptyInterpreter => "interpreter must not be empty".toList
  | .noFileName path => "filename ".toList ++ Text.quoted path ++ " has no file name".toList
  | .emptyEncoding => "encoding must not be empty".toList
  | .emptyRequiredName => "require file names must not be empty".toList
  | .unknownAlignment name => Alignment.unknownName name
  | .refusedByRunner reason => reason

/-- Why a file could not be read or started. -/
inductive FileFault where
  | notFound
  | isDirectory
  /-- A part of the path is a file, and yet something is looked for in it. -/
  | notDirectory
  /-- The content is no text. -/
  | notUtf8
  /-- Any other refusal of the system, in its words. -/
  | other (cause : Text)
  deriving DecidableEq, Repr

/-- The wording of the fault. -/
def FileFault.message : FileFault → Text
  | .notFound => "No such file or directory (os error 2)".toList
  | .isDirectory => "Is a directory (os error 21)".toList
  | .notDirectory => "Not a directory (os error 20)".toList
  | .notUtf8 => "stream did not contain valid UTF-8".toList
  | .other cause => cause

/-- Why something could not be done. -/
inductive Failure where
  /-- A question came before its time. -/
  | mustEvaluateFirst (question : Question)
  | invalidOption (fault : OptionFault)
  /-- An interpreter could not be started. -/
  | spawn (program : Text) (fault : FileFault)
  /-- A file could not be read. -/
  | io (fault : FileFault)
  deriving DecidableEq, Repr

/-- The wording of a failure. -/
def Failure.message : Failure → Text
  | .mustEvaluateFirst question =>
    "cannot call ".toList ++ question.name ++
      " on engine until it has evaluated the program".toList
  | .invalidOption fault => "invalid option: ".toList ++ fault.reason
  | .spawn program fault =>
    "failed to spawn interpreter ".toList ++ Text.quoted program ++ ": ".toList ++ fault.message
  | .io fault => fault.message

end Marginalia
