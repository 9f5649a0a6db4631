import Marginalia.Engine
import Marginalia.Proofs.Source.Accepted

/-!
# Engines of accepted programs

The engine that is made for a program once the program has been cleaned and scanned, and the parts
of it that do not depend on the options of an evaluation.
-/

namespace Marginalia

open Source (Scan SyntaxError scan)

namespace Engine

/-- The engine for a program that is accepted once it has been cleaned. -/
def ofScan (p : Program) (o : EvalOptions) (a : AnnotateOptions) (prepared : Text) (s : Scan) :
    Engine where
  program := p
  options := optionsFor p o
  annotateOptions := a
  prepared := prepared
  scanned := .ok s

/-- The engine of an accepted program. -/
theorem ofProgram_of_scan {p : Program} {a : AnnotateOptions} {prepared : Text} {s : Scan}
    (o : EvalOptions) (cleans : removeAnnotations p.body a.markers = .ok prepared)
    (accepted : scan prepared = .ok (.ok s)) :
    ofProgram p o a = .ok (ofScan p o a prepared s) := by
  rw [ofProgram, cleans]
  show (scan prepared).bind _ = _
  rw [accepted]
  rfl

section Evaluation

variable {e : Engine} {runner : Runner}

/-- An accepted program asks to be run instrumented. -/
theorem demand_of_accepted {s : Scan} (new : e.evaluated = none) (accepted : e.scanned = .ok s)
    (valid : e.options.validate = .ok ()) :
    e.demand = .run (instrumentWith s e.prepared e.annotateOptions.markers) := by
  unfold demand
  rw [new, accepted, valid]

/-- What is run is evaluated, and the outcome is kept. -/
theorem evaluate_of_run {body : Text} {r : Run} (asks : e.demand = .run body)
    (runs : runner body e.options = .ok r) : e.evaluate runner =
      (.ok (Outcome.ofRun e.options r),
        { e with evaluated := some (Outcome.ofRun e.options r) }) := by
  unfold evaluate
  rw [asks]
  dsimp only
  rw [runs]

/-- What is known is not evaluated again. -/
theorem evaluate_of_known {o : Outcome} (asks : e.demand = .known o) :
    e.evaluate runner = (.ok o, { e with evaluated := some o }) := by
  unfold evaluate
  rw [asks]

end Evaluation

end Engine

end Marginalia
