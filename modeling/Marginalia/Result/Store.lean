import Marginalia.Event.Handler
import Marginalia.Result

/-!
# The store of results

A receiver of events that builds a result from them.
-/

namespace Marginalia

/-- A result that is being built, and how many captures a line may hold. -/
structure ResultStore where
  cap : Option Nat
  result : EvalResult := {}
  deriving DecidableEq, Repr

namespace ResultStore

/-- Takes one event into account. -/
def add (s : ResultStore) (e : Event) : ResultStore := { s with result := s.result.add s.cap e }

instance : Receiver ResultStore := ⟨add⟩

theorem foldl_add (s : ResultStore) (events : List Event) :
    events.foldl add s = { s with result := events.foldl (EvalResult.add s.cap) s.result } := by
  induction events generalizing s with
  | nil => rfl
  | cons e es ih => exact ih _

end ResultStore

end Marginalia
