import Marginalia.Engine

/-!
# Sessions

An engine in use. Its user evaluates, asks and looks, in any order and as often as wanted. A session
is the engine with what it keeps: the annotated program, which is made when it is first asked for,
and the programs that its runner was given. A runner need not do the same thing twice, so that there
is one for each call.
-/

namespace Marginalia

open Source (SyntaxError)

/-- What can be seen of an engine at any time. -/
inductive Aspect where
  | missingNewline | preparedBody | cleanedBody | isSyntaxError | syntaxError | options
  deriving DecidableEq, Repr

/-- What the user of an engine does. -/
inductive Use where
  | evaluate
  /-- Asks a question that needs an evaluation. -/
  | ask (question : Question)
  | look (aspect : Aspect)
  deriving DecidableEq, Repr

/-- What the user of an engine is told. -/
inductive Answer where
  | outcome (o : Outcome)
  | result (r : Option EvalResult)
  | exit (e : Option UnexpectedExit)
  | flag (b : Bool)
  | text (t : Text)
  | refusal (e : Option SyntaxError)
  | options (o : EvalOptions)
  deriving DecidableEq, Repr

namespace Engine

/-- The answer to a question. -/
def answer (e : Engine) : Question → Except Failure Answer
  | .outcome => e.outcome.map .outcome
  | .results => e.results.map .result
  | .timedOut => e.timedOut.map .flag
  | .unexpectedException => e.unexpectedException.map .exit
  | .isUnexpectedException => e.isUnexpectedException.map .flag
  | .annotatedBody => e.annotatedBody.map .text

/-- What can be seen of the engine. -/
def look (e : Engine) : Aspect → Answer
  | .missingNewline => .flag e.program.missingNewline
  | .preparedBody => .text e.prepared
  | .cleanedBody => .text e.cleanedBody
  | .isSyntaxError => .flag e.isSyntaxError
  | .syntaxError => .refusal e.syntaxError?
  | .options => .options e.options

end Engine

/-- An engine, and what it keeps while it is used. -/
structure Session where
  engine : Engine
  /-- The annotated program, once it has been asked for. -/
  annotated : Option Text := none
  /-- The programs that the runner was given, in that order. -/
  runs : List Text := []

namespace Session

/-- Evaluates the program. The runner is given the program that the evaluation asks for, if it
does. -/
def evaluate (runner : Nat → Runner) (s : Session) : Except Failure Outcome × Session :=
  let runs :=
    match s.engine.demand with
    | .run body => s.runs ++ [body]
    | _ => s.runs
  let (outcome, engine) := s.engine.evaluate (runner s.runs.length)
  (outcome, { s with engine := engine, runs := runs })

/-- Gives the annotated program that is kept, or makes it and keeps it. -/
def annotatedBody (s : Session) : Except Failure Text × Session :=
  match s.annotated with
  | some body => (.ok body, s)
  | none =>
    match s.engine.annotatedBody with
    | .ok body => (.ok body, { s with annotated := some body })
    | .error failure => (.error failure, s)

/-- One use of the engine. -/
def use (runner : Nat → Runner) (s : Session) : Use → Except Failure Answer × Session
  | .evaluate =>
    let (outcome, s) := s.evaluate runner
    (outcome.map .outcome, s)
  | .ask .annotatedBody =>
    let (body, s) := s.annotatedBody
    (body.map .text, s)
  | .ask question => (s.engine.answer question, s)
  | .look aspect => (.ok (s.engine.look aspect), s)

/-- Uses of the engine one after the other: the answers, and what becomes of the session. -/
def useAll (runner : Nat → Runner) (s : Session) : List Use → List (Except Failure Answer) × Session
  | [] => ([], s)
  | u :: us =>
    let (answer, s) := s.use runner u
    let (answers, s) := useAll runner s us
    (answer :: answers, s)

end Session

end Marginalia
