import Marginalia.Text

/-!
# Events

What a running program reports, one thing at a time.
-/

namespace Marginalia

/-- A report of the running program. -/
inductive Event where
  /-- A statement that ends on `line` has a value, written as `text`. -/
  | value (line : Nat) (text : Text)
  /-- An exception left the program on `line`. -/
  | exception (line : Nat) (className message : Text) (backtrace : List Text)
  /-- The program has printed something. -/
  | stdout (text : Text)
  /-- The program has ended. -/
  | finished (status : Int)
  /-- A remark that plays no role in the result. -/
  | debug (text : Text)
  deriving DecidableEq, Repr

namespace Event

/-- The word by which a frame names the kind of an event. -/
def kind : Event → String
  | .value .. => "value"
  | .exception .. => "exception"
  | .stdout _ => "stdout"
  | .finished _ => "finished"
  | .debug _ => "debug"

/-- Lines fit in 64 bits and statuses in 32, as frames have them. -/
def InRange : Event → Prop
  | .value line _ => line < UInt64.size
  | .exception line _ _ _ => line < UInt64.size
  | .finished status => -0x80000000 ≤ status ∧ status < 0x80000000
  | _ => True

end Event

end Marginalia
