import Marginalia.Annotation.Removal
import Marginalia.Instrumented
import Marginalia.Program
import Marginalia.Run

/-!
# Engines

An engine evaluates one program once, and answers questions about the evaluation. What an evaluation
asks for is a value, `Engine.Demand`: an outcome that is known already, a failure, or a run. Only in
the last case is a runner called. An engine without an outcome has not been evaluated; once it has
one, that outcome stays.
-/

namespace Marginalia

open Source

/-- How an evaluation ended. -/
inductive Outcome where
  | success (result : EvalResult)
  | timedOut
  | unexpectedException (exit : UnexpectedExit)
  | syntaxError (error : SyntaxError)
  deriving DecidableEq, Repr

namespace Outcome

/-- The result of a run that was completed. -/
def result? : Outcome → Option EvalResult
  | .success result => some result
  | _ => none

/-- The exit of a program that stopped unexpectedly. -/
def exit? : Outcome → Option UnexpectedExit
  | .unexpectedException exit => some exit
  | _ => none

/-- Whether the program took too long. -/
def isTimedOut : Outcome → Bool
  | .timedOut => true
  | _ => false

/-- The outcome of a run. -/
def ofRun (o : EvalOptions) (r : Run) : Outcome :=
  match r.outcome with
  | .completed => .success (r.result o)
  | .timedOut => .timedOut
  | .crashed exit => .unexpectedException exit

end Outcome

/-- A program that is prepared for an evaluation, and its outcome once there is one. -/
structure Engine where
  program : Program
  options : EvalOptions
  annotateOptions : AnnotateOptions
  /-- The program without old annotations. -/
  prepared : Text
  /-- What is known about the prepared program, or why it is refused. -/
  scanned : Except SyntaxError Scan
  evaluated : Option Outcome := none

namespace Engine

/-- The options for a program; what the program says about itself counts more. -/
def optionsFor (p : Program) (o : EvalOptions) : EvalOptions :=
  { o with
    fileName := p.fileName.getD o.fileName
    encoding := p.encoding.or o.encoding
    stdin := if p.stdin.isEmpty then o.stdin else p.stdin }

/-- The engine for a program. -/
def ofProgram (p : Program) (o : EvalOptions) (a : AnnotateOptions) : Except Fault Engine := do
  let prepared ← removeAnnotations p.body a.markers
  let scanned ← scan prepared
  return {
    program := p
    options := optionsFor p o
    annotateOptions := a
    prepared := prepared
    scanned := scanned.mapError fun e => { e with fileName := p.fileName } }

/-! ## Evaluation -/

/-- What an evaluation asks for. -/
inductive Demand where
  /-- Nothing: the outcome is known. -/
  | known (outcome : Outcome)
  /-- Nothing: there can be no outcome. -/
  | refused (failure : Failure)
  /-- A run of an instrumented program. -/
  | run (body : Text)
  deriving DecidableEq, Repr

/-- What the next evaluation asks for. A program that is refused is not run, and its options do not
matter. -/
def demand (e : Engine) : Demand :=
  match e.evaluated, e.scanned, e.options.validate with
  | some outcome, _, _ => .known outcome
  | none, .error error, _ => .known (.syntaxError error)
  | none, .ok _, .error failure => .refused failure
  | none, .ok s, .ok () => .run (instrumentWith s e.prepared e.annotateOptions.markers)

/-- Evaluates the program. A failure leaves the engine as it was. -/
def evaluate (e : Engine) (runner : Runner) : Except Failure Outcome × Engine :=
  match e.demand with
  | .known outcome => (.ok outcome, { e with evaluated := some outcome })
  | .refused failure => (.error failure, e)
  | .run body =>
    match runner body e.options with
    | .error failure => (.error failure, e)
    | .ok r =>
      let outcome := Outcome.ofRun e.options r
      (.ok outcome, { e with evaluated := some outcome })

theorem demand_of_evaluated {e : Engine} {o : Outcome} (h : e.evaluated = some o) :
    e.demand = .known o := by
  unfold demand
  rw [h]

/-! ## Questions that can be answered at any time -/

/-- The prepared program, which ends in a line feed only if the program does. -/
def cleanedBody (e : Engine) : Text := e.program.restoreNewline e.prepared

/-- Why the program is refused. -/
def syntaxError? (e : Engine) : Option SyntaxError :=
  match e.scanned with
  | .ok _ => none
  | .error error => some error

/-- Whether the program is refused. -/
def isSyntaxError (e : Engine) : Bool := e.syntaxError?.isSome

/-- The layout of the prepared program. -/
def layout (e : Engine) : Layout :=
  match e.scanned with
  | .ok s => s.layout
  | .error _ => .unknown

/-! ## Questions that need an evaluation -/

/-- An answer drawn from the outcome. -/
def ask {α : Type} (e : Engine) (question : Question) (answer : Outcome → α) : Except Failure α :=
  match e.evaluated with
  | some outcome => .ok (answer outcome)
  | none => .error (.mustEvaluateFirst question)

/-- How the evaluation ended. -/
def outcome (e : Engine) : Except Failure Outcome := e.ask .outcome id

/-- The result, if the run was completed. -/
def results (e : Engine) : Except Failure (Option EvalResult) := e.ask .results Outcome.result?

/-- Whether the program took too long. -/
def timedOut (e : Engine) : Except Failure Bool := e.ask .timedOut Outcome.isTimedOut

/-- The exit, if the program stopped unexpectedly. -/
def unexpectedException (e : Engine) : Except Failure (Option UnexpectedExit) :=
  e.ask .unexpectedException Outcome.exit?

/-- Whether the program stopped unexpectedly. -/
def isUnexpectedException (e : Engine) : Except Failure Bool :=
  e.ask .isUnexpectedException fun o => o.exit?.isSome

/-- The program with the result of a completed run written into it; after any other outcome the
cleaned program. -/
def bodyFor (e : Engine) (o : Outcome) : Text :=
  match o.result? with
  | some result =>
    e.program.restoreNewline (annotateWith e.layout e.prepared result e.annotateOptions)
  | none => e.cleanedBody

/-- The annotated program. -/
def annotatedBody (e : Engine) : Except Failure Text := e.ask .annotatedBody e.bodyFor

end Engine

end Marginalia
