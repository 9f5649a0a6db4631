import Marginalia.Event.Stream
import Marginalia.Run

/-!
# The exchange with a running program

A running program is heard on two channels: a stream of frames, and the pipe of its standard output.
They are read in turns, in any order. Each frame gives a signal, and each piece of text from the
pipe gives one. The exchange is a machine that takes one turn at a time, so that a schedule of turns
is a list. When the turns are over, the frames that are left are taken, and then the bytes of an
unfinished character.
-/

namespace Marginalia

/-- One reading. -/
inductive Turn where
  /-- The next frame is taken, or the end of the stream is found. -/
  | frame
  /-- Bytes arrive on the pipe. -/
  | output (chunk : Utf8.Bytes)
  /-- The pipe is found closed. -/
  | outputEnd
  deriving DecidableEq, Repr

/-- The state of an exchange. -/
structure Exchange where
  /-- What the frames that are still to be taken stand for. -/
  awaited : List StreamAnswer
  /-- The signals so far. -/
  signals : List Handler.Signal := []
  /-- Bytes from the pipe that start a character. -/
  held : Utf8.Bytes := []
  /-- Whether the pipe may still bring bytes. -/
  outputOpen : Bool := true
  /-- Whether the program has reported its end. -/
  finished : Bool := false
  /-- How the stream of frames has ended. -/
  ending : Option StreamEnd := none

namespace Exchange

/-- Whether an event reports the end of the program. -/
def reportsEnd : Event → Bool
  | .finished _ => true
  | _ => false

/-- Signals text from the pipe, if it is not empty. -/
def print (x : Exchange) (t : Text) : Exchange :=
  if t.isEmpty then x else { x with signals := x.signals ++ [.printed t] }

/-- Takes the next frame. Nothing is taken behind the end of the stream. -/
def takeFrame (x : Exchange) : Exchange :=
  match x.ending, x.awaited with
  | some _, _ => x
  | none, [] => { x with ending := some .closed }
  | none, .error e :: rest => { x with awaited := rest, ending := some e }
  | none, .ok e :: rest =>
    { x with
      awaited := rest
      signals := x.signals ++ [.event e]
      finished := x.finished || reportsEnd e }

theorem takeFrame_of_ending {x : Exchange} (h : x.ending.isSome) : x.takeFrame = x := by
  obtain ⟨e, he⟩ := Option.isSome_iff_exists.1 h
  unfold takeFrame
  rw [he]

/-- Takes bytes from the pipe. -/
def takeOutput (x : Exchange) (chunk : Utf8.Bytes) : Exchange :=
  if x.outputOpen then
    let (t, held) := Utf8.decodeChunk x.held chunk
    { x with held := held }.print t
  else x

/-- Takes what the held bytes stand for when no more can come. -/
def closeOutput (x : Exchange) : Exchange :=
  { x with held := [], outputOpen := false }.print (Utf8.flush x.held)

/-- Takes one turn. -/
def turn (x : Exchange) : Turn → Exchange
  | .frame => x.takeFrame
  | .output chunk => x.takeOutput chunk
  | .outputEnd => x.closeOutput

/-- Takes a number of frames. -/
def takeFrames (x : Exchange) : Nat → Exchange
  | 0 => x
  | n + 1 => x.takeFrame.takeFrames n

/-- Takes all that is left. -/
def complete (x : Exchange) : Exchange := (x.takeFrames (x.awaited.length + 1)).closeOutput

/-- An exchange over a stream of frames, read in some turns and then to its end. -/
def ofTurns (refusal : Utf8.Bytes → Text) (frames : Utf8.Bytes) (turns : List Turn) : Exchange :=
  (turns.foldl turn { awaited := Stream.answers refusal frames }).complete

/-- What is left of an exchange with a program that never opens the stream: its pipe. -/
def ofOutput (chunks : List Utf8.Bytes) : Exchange :=
  (chunks.foldl takeOutput { awaited := [] }).closeOutput

/-- Why a program that has not reported its end is said to have stopped. -/
def reason : Option StreamEnd → Text
  | none => "program exited before connecting".toList
  | some .closed => "program exited before reporting completion".toList
  | some (.truncated bytes) =>
    "event stream cut off after ".toList ++ Text.ofNat bytes ++ " bytes of a frame".toList
  | some (.malformed _ error) => "malformed event frame: ".toList ++ error

/-- How the run ends that an exchange belongs to. -/
def outcome (x : Exchange) (status : Option Int) (stderr : Utf8.Bytes) : RunOutcome :=
  if x.finished then .completed
  else .crashed ⟨status, Utf8.decodeLossy stderr, reason x.ending⟩

end Exchange

end Marginalia
