import Marginalia.Run.Exchange
import Marginalia.Run.Invocation

/-!
# The conduct of an interpreter

What an interpreter does once it has been started, and the runner of a system on which there is one
interpreter of a known conduct.
-/

namespace Marginalia

/-- What an interpreter does once it has been started. -/
structure Conduct where
  /-- The frames that it sends; none if it never opens the stream. -/
  frames : Option Utf8.Bytes
  /-- The bytes that it prints, as they arrive. -/
  stdout : List Utf8.Bytes := []
  stderr : Utf8.Bytes := []
  /-- How it ends: with a status, or by a signal. -/
  status : Option Int := some 0
  /-- Whether it goes on until it is stopped. -/
  hangs : Bool := false
  deriving DecidableEq, Repr

namespace Conduct

/-- The turns of a reader that takes all frames before it looks at the pipe. -/
def framesFirst (frames : Utf8.Bytes) (chunks : List Utf8.Bytes) : List Turn :=
  List.replicate ((Stream.pieces frames).length + 1) .frame ++ chunks.map .output

/-- The exchange with an interpreter of this conduct. -/
def exchange (refusal : Utf8.Bytes → Text) (c : Conduct) : Exchange :=
  match c.frames with
  | some frames => .ofTurns refusal frames (framesFirst frames c.stdout)
  | none => .ofOutput c.stdout

/-- The run of a program by an interpreter of this conduct. -/
def run (refusal : Utf8.Bytes → Text) (c : Conduct) : Run :=
  let x := c.exchange refusal
  ⟨x.signals, if c.hangs then .timedOut else x.outcome c.status c.stderr⟩

/-- The runner of a system on which one interpreter is to be found, and which writes the files of a
program to a directory. -/
def runner (refusal : Utf8.Bytes → Text) (interpreter directory : Text) (c : Conduct) : Runner :=
  fun body o =>
  match Invocation.fileFault? o with
  | some fault => .error (.io fault)
  | none =>
    -- a call that cannot be passed on fails before the interpreter is looked for
    match (Invocation.ofOptions directory body o).argumentFault? o.interpreter with
    | some fault => .error (.spawn o.interpreter fault)
    | none =>
      if o.interpreter = interpreter then .ok (c.run refusal)
      else .error (.spawn o.interpreter .notFound)

end Conduct

end Marginalia
