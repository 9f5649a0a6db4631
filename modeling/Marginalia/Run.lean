import Marginalia.EvalOptions
import Marginalia.Result.Store

/-!
# Runs

What a run of a program brings: the signals that it gives, and how it ends. The signals do not
depend on who listens, so that the result of a run is a fold of them.
-/

namespace Marginalia

/-- A program that stopped without having reported its end. -/
structure UnexpectedExit where
  /-- The exit status; a program that was killed by a signal has none. -/
  status : Option Int
  stderr : Text
  reason : Text
  deriving DecidableEq, Repr

/-- The exit as a message: the reason, the status, and what was written to standard error. -/
def UnexpectedExit.message (e : UnexpectedExit) : Text :=
  let how :=
    match e.status with
    | some status => "exit status ".toList ++ Text.ofInt status
    | none => "killed by signal".toList
  let remarks := Text.trimEnd e.stderr
  e.reason ++ " (".toList ++ how ++ [')'] ++ if remarks.isEmpty then [] else '\n' :: remarks

/-- How a run ends. -/
inductive RunOutcome where
  /-- The program reported its end. -/
  | completed
  /-- The program took longer than it may, and was stopped. -/
  | timedOut
  /-- The program stopped without having reported its end. -/
  | crashed (exit : UnexpectedExit)
  deriving DecidableEq, Repr

/-- The signals of a run, in order, and how it ended. -/
structure Run where
  signals : List Handler.Signal
  outcome : RunOutcome
  deriving DecidableEq, Repr

/-- Something that runs programs. -/
abbrev Runner := Text → EvalOptions → Except Failure Run

/-- The runner of a system on which no interpreter is to be found. -/
def Runner.unavailable : Runner := fun _ o => .error (.spawn o.interpreter .notFound)

namespace Run

/-- The handler that listens to a run: a store, inside a counting handler if the run is watched. -/
def listener (o : EvalOptions) : Handler ResultStore :=
  let store : Handler ResultStore := .leaf { cap := o.maxLineCaptures }
  if o.debug then .counting 0 store else store

/-- The result that a store among some handlers holds. -/
def storedResult (h : Handler ResultStore) : EvalResult :=
  match h.leaves with
  | s :: _ => s.result
  | [] => {}

/-- The result of a run. -/
def result (o : EvalOptions) (r : Run) : EvalResult :=
  storedResult (r.signals.foldl Handler.accept (listener o))

end Run

end Marginalia
