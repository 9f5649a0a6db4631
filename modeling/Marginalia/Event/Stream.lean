import Marginalia.Event.Frame

/-!
# Event streams

A stream of frames, cut after each line feed. Each piece has an answer of its own, so that a broken
frame says nothing about those after it. `answers` gives the answers for a whole stream;
`FrameReader` gives the same answers while the stream arrives in chunks.

What is wrong with a frame that is no event is said by the reader of JSON. Its wording is no part of
this library: wherever it matters it is a parameter, `refusal`, which gives the words for the bytes
of a frame.
-/

namespace Marginalia

/-- How a stream of frames ends. -/
inductive StreamEnd where
  /-- Between two frames. -/
  | closed
  /-- Inside a frame of which this many bytes have arrived. -/
  | truncated (bytes : Nat)
  /-- With a frame that is no event, shown as text, and what is wrong with it. The text of the frame
  is empty only if the frame is. -/
  | malformed (frame error : Text)
  deriving DecidableEq, Repr

/-- What one piece of a stream stands for: an event, or a reason to stop. -/
abbrev StreamAnswer := Except StreamEnd Event

namespace Stream

open Utf8 (Bytes)

/-- The byte that ends a frame. -/
def lineFeed : UInt8 := 10

/-- The byte that may stand before the line feed. -/
def carriageReturn : UInt8 := 13

/-- Cuts a stream after each line feed. -/
def pieces (bytes : Bytes) : List Bytes := Text.cutAfter lineFeed bytes

/-- The bytes of a frame without its end, if it has one. -/
def content? (piece : Bytes) : Option Bytes :=
  if piece.getLast? = some lineFeed then
    let line := piece.dropLast
    some (if line.getLast? = some carriageReturn then line.dropLast else line)
  else none

/-- What is wrong with a frame without bytes. -/
def emptyFrame : Text := "empty frame".toList

/-- What a piece of a stream stands for. -/
def answer (refusal : Bytes → Text) (piece : Bytes) : StreamAnswer :=
  match content? piece with
  | none => .error (.truncated piece.length)
  | some [] => .error (.malformed [] emptyFrame)
  | some bytes =>
    match Event.ofFrame? bytes with
    | some e => .ok e
    | none => .error (.malformed (Utf8.decodeLossy bytes) (refusal bytes))

/-- What the pieces of a stream stand for, in order. -/
def answers (refusal : Bytes → Text) (bytes : Bytes) : List StreamAnswer :=
  (pieces bytes).map (answer refusal)

/-- The events before the first answer that is none, and how the stream ends. -/
def upToEnd : List StreamAnswer → List Event × StreamEnd
  | [] => ([], .closed)
  | .error e :: _ => ([], e)
  | .ok e :: r =>
    let (events, ending) := upToEnd r
    (e :: events, ending)

/-- The events of a stream up to its end, or up to its first broken frame. -/
def read (refusal : Bytes → Text) (bytes : Bytes) : List Event × StreamEnd :=
  upToEnd (answers refusal bytes)

end Stream

/-! ## Streams that arrive in chunks -/

/-- A reader that holds the bytes of a frame whose end has not arrived. -/
structure FrameReader where
  held : Utf8.Bytes := []
  deriving DecidableEq, Repr

namespace FrameReader

variable (refusal : Utf8.Bytes → Text)

/-- Takes one byte. A line feed completes a frame. -/
def feedByte (r : FrameReader) (b : UInt8) : Option StreamAnswer × FrameReader :=
  if b = Stream.lineFeed then (some (Stream.answer refusal (r.held ++ [b])), {})
  else (none, ⟨r.held ++ [b]⟩)

/-- Takes the bytes of a chunk, and answers for the frames that they complete. -/
def feed (r : FrameReader) : Utf8.Bytes → List StreamAnswer × FrameReader
  | [] => ([], r)
  | b :: bs =>
    let (a, r) := r.feedByte refusal b
    let (as, r) := r.feed bs
    (a.toList ++ as, r)

/-- The answer for what is held when the stream ends. -/
def close (r : FrameReader) : List StreamAnswer :=
  if r.held.isEmpty then [] else [Stream.answer refusal r.held]

/-- The answers for a stream that arrives in some chunks. -/
def readChunks (r : FrameReader) : List Utf8.Bytes → List StreamAnswer
  | [] => r.close refusal
  | chunk :: chunks =>
    let (as, r) := r.feed refusal chunk
    as ++ r.readChunks chunks

end FrameReader

end Marginalia
