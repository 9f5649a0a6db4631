import Marginalia.Proofs.Event.Reader
import Marginalia.Proofs.Text.Utf8
import Marginalia.Run.Exchange

/-!
# What an exchange brings

The frames and the pipe of an exchange are read in turns, in any order. Two quantities are the same
after each turn as before: the events that have been signalled with those that the awaited frames
hold (`stream`), and the text that has been printed with that of the bytes that are still to come
(`pipeText`). So a whole exchange signals just the events of its stream, in order, and prints just
what its pipe brings; only how the two are merged depends on the turns. If the program has not
reported its end, what is said about it goes by the end of the stream alone (`Explains`).
-/

namespace Marginalia

open Handler (Signal)

/-! ## The two kinds of signals -/

/-- The event of a signal that came as one. -/
def Handler.Signal.event? : Signal → Option Event
  | .event e => some e
  | .printed _ => none

/-- The text of a signal that came from the pipe. -/
def Handler.Signal.printed? : Signal → Option Text
  | .event _ => none
  | .printed t => some t

/-- The event as which a receiver sees a signal. -/
def Handler.Signal.toEvent : Signal → Event
  | .event e => e
  | .printed t => .stdout t

/-- The text of an event that brings output. -/
def Event.output? : Event → Option Text
  | .stdout t => some t
  | _ => none

/-- The last list holds the elements of the first two, those of each in order. -/
inductive Merge {α : Type} : List α → List α → List α → Prop where
  | nil : Merge [] [] []
  | left {a b c : List α} (x : α) (h : Merge a b c) : Merge (x :: a) b (x :: c)
  | right {a b c : List α} (x : α) (h : Merge a b c) : Merge a (x :: b) (x :: c)

/-- The events merge what the stream and the pipe bring. -/
theorem merge_signals (signals : List Signal) :
    Merge ((signals.filterMap Signal.event?).filterMap Event.output?)
      (signals.filterMap Signal.printed?)
      ((signals.map Signal.toEvent).filterMap Event.output?) := by
  induction signals with
  | nil => exact .nil
  | cons s signals ih =>
    cases s with
    | printed t => exact .right t ih
    | event e =>
      cases e with
      | stdout t => exact .left t ih
      | value line text => exact ih
      | exception line className message backtrace => exact ih
      | finished status => exact ih
      | debug text => exact ih

/-! ## Results of signals -/

namespace EvalResult

variable (cap : Option Nat)

/-- A result without what was printed. -/
def withoutStdout (r : EvalResult) : EvalResult := { r with stdout := [] }

/-- Output changes nothing but the output. -/
theorem withoutStdout_add (r : EvalResult) (e : Event) :
    (r.add cap e).withoutStdout =
      if (Event.output? e).isSome then r.withoutStdout else (r.withoutStdout).add cap e := by
  cases e <;> rfl

theorem stdout_add (r : EvalResult) (e : Event) :
    (r.add cap e).stdout = r.stdout ++ ((Event.output? e).toList).flatten := by
  cases e <;> simp [add, capture, Event.output?]

theorem stdout_foldl_add (r : EvalResult) (events : List Event) :
    (events.foldl (add cap) r).stdout = r.stdout ++ (events.filterMap Event.output?).flatten := by
  induction events generalizing r with
  | nil => simp
  | cons e events ih =>
    rw [List.foldl_cons, ih, stdout_add, List.append_assoc]
    cases h : Event.output? e with
    | none => simp [h]
    | some t => simp [h]

/-- Text from the pipe changes nothing but what was printed. -/
theorem withoutStdout_foldl_add {r r' : EvalResult} (h : r.withoutStdout = r'.withoutStdout)
    (signals : List Signal) :
    ((signals.map Signal.toEvent).foldl (add cap) r).withoutStdout =
      ((signals.filterMap Signal.event?).foldl (add cap) r').withoutStdout := by
  induction signals generalizing r r' with
  | nil => exact h
  | cons s signals ih =>
    cases s with
    | printed t => exact ih ((withoutStdout_add cap r (.stdout t)).trans h)
    | event e =>
      apply ih
      rw [withoutStdout_add, withoutStdout_add, h]
      rfl

end EvalResult

namespace Exchange

open Utf8 (Bytes)

/-- A store takes the signals as events. -/
theorem foldl_accept (s : ResultStore) (signals : List Signal) :
    signals.foldl Handler.accept (.leaf s) =
      .leaf ((signals.map Signal.toEvent).foldl ResultStore.add s) := by
  induction signals generalizing s with
  | nil => rfl
  | cons g signals ih =>
    cases g with
    | event e =>
      rw [List.foldl_cons, Handler.accept_leaf_event]
      exact ih _
    | printed t => exact ih _

/-- The result that a store builds from some signals. -/
theorem storedResult_foldl_accept (cap : Option Nat) (signals : List Signal) :
    Run.storedResult (signals.foldl Handler.accept (.leaf { cap := cap })) =
      EvalResult.ofEvents cap (signals.map Signal.toEvent) := by
  rw [foldl_accept, ResultStore.foldl_add, Run.storedResult]
  simp only [Handler.leaves]
  rfl

/-! ## The frames -/

/-- What the frames that are still to be taken hold. -/
def ahead (x : Exchange) : List Event × StreamEnd :=
  match x.ending with
  | some e => ([], e)
  | none => Stream.upToEnd x.awaited

/-- The events that have been signalled. -/
def heard (x : Exchange) : List Event := x.signals.filterMap Signal.event?

/-- All the events of an exchange, signalled or awaited, and how its stream ends. -/
def stream (x : Exchange) : List Event × StreamEnd := (x.heard ++ x.ahead.1, x.ahead.2)

/-- Printing leaves the stream as it is. -/
theorem stream_print (x : Exchange) (t : Text) : (x.print t).stream = x.stream := by
  unfold print
  split
  · rfl
  · simp [stream, heard, ahead, Signal.event?]

/-- Taking a frame leaves the whole of the stream as it is. -/
theorem stream_takeFrame (x : Exchange) : x.takeFrame.stream = x.stream := by
  unfold takeFrame
  split
  · rfl
  · next hending hawaited => simp [stream, heard, ahead, hending, hawaited, Stream.upToEnd]
  · next hending hawaited => simp [stream, heard, ahead, hending, hawaited, Stream.upToEnd]
  · next hending hawaited =>
    simp [stream, heard, ahead, hending, hawaited, Stream.upToEnd, Signal.event?]

/-- Closing the output leaves the stream as it is. -/
theorem stream_closeOutput (x : Exchange) : x.closeOutput.stream = x.stream := by
  unfold closeOutput
  rw [stream_print]
  rfl

/-- A turn neither loses nor adds an event. -/
theorem stream_turn (x : Exchange) (t : Turn) : (x.turn t).stream = x.stream := by
  cases t with
  | frame => exact stream_takeFrame x
  | output chunk =>
    show (x.takeOutput chunk).stream = _
    unfold takeOutput
    split
    · rw [stream_print]
      rfl
    · rfl
  | outputEnd => exact stream_closeOutput x

/-- No turns change the whole of the stream. -/
theorem stream_foldl_turn (x : Exchange) (turns : List Turn) :
    (turns.foldl turn x).stream = x.stream := by
  induction turns generalizing x with
  | nil => rfl
  | cons t turns ih => rw [List.foldl_cons, ih, stream_turn]

/-! ## The flag -/

/-- The flag tells whether the end of the program has been signalled. -/
def Flagged (x : Exchange) : Prop := x.finished = x.heard.any reportsEnd

/-- Printing leaves the flags right. -/
theorem Flagged.print {x : Exchange} (h : x.Flagged) (t : Text) : (x.print t).Flagged := by
  unfold Exchange.print
  split
  · exact h
  · simpa [Flagged, heard, Signal.event?] using h

/-- Taking a frame leaves the flags right. -/
theorem Flagged.takeFrame {x : Exchange} (h : x.Flagged) : x.takeFrame.Flagged := by
  unfold Exchange.takeFrame
  split
  · exact h
  · exact h
  · exact h
  · simp only [Flagged, heard] at h ⊢
    simp [h, Signal.event?]

/-- Closing the output leaves the flags right. -/
theorem Flagged.closeOutput {x : Exchange} (h : x.Flagged) : x.closeOutput.Flagged :=
  Flagged.print (x := { x with held := [], outputOpen := false }) h _

/-- A turn leaves the flags right. -/
theorem Flagged.turn {x : Exchange} (h : x.Flagged) (t : Turn) : (x.turn t).Flagged := by
  cases t with
  | frame => exact h.takeFrame
  | output chunk =>
    show (x.takeOutput chunk).Flagged
    unfold takeOutput
    split
    · exact Flagged.print (x := { x with held := (Utf8.decodeChunk x.held chunk).2 }) h _
    · exact h
  | outputEnd => exact h.closeOutput

/-- Turns leave the flags right. -/
theorem Flagged.foldl_turn {x : Exchange} (h : x.Flagged) (turns : List Turn) :
    (turns.foldl Exchange.turn x).Flagged := by
  induction turns generalizing x with
  | nil => exact h
  | cons t turns ih => exact ih (h.turn t)

/-! ## The pipe -/

/-- The bytes that arrive in some turns: those that are read before the pipe is found closed. -/
def arriving : List Turn → Bytes
  | [] => []
  | .frame :: turns => arriving turns
  | .output chunk :: turns => chunk ++ arriving turns
  | .outputEnd :: _ => []

/-- The pieces of text that have come from the pipe. -/
def printed (x : Exchange) : List Text := x.signals.filterMap Signal.printed?

/-- All the text of the pipe, printed or held back or to come, if some bytes are still to come. -/
def pipeText (x : Exchange) (coming : Bytes) : Text :=
  x.printed.flatten ++ Utf8.decodeLossy (x.held ++ if x.outputOpen then coming else [])

/-- What is printed comes before what is still held and to come. -/
theorem pipeText_print (x : Exchange) (t : Text) (coming : Bytes) :
    (x.print t).pipeText coming =
      x.printed.flatten ++ t ++
        Utf8.decodeLossy (x.held ++ if x.outputOpen then coming else []) := by
  unfold print
  split
  · next empty => simp [pipeText, List.isEmpty_iff.1 empty]
  · simp [pipeText, printed, Signal.printed?]

/-- Taking a frame leaves the text of the pipe as it is. -/
theorem pipeText_takeFrame (x : Exchange) (coming : Bytes) :
    x.takeFrame.pipeText coming = x.pipeText coming := by
  unfold takeFrame
  split
  all_goals simp [pipeText, printed, Signal.printed?]

/-- Behind the end of the output nothing is to come. -/
theorem pipeText_closeOutput (x : Exchange) (coming : Bytes) :
    x.closeOutput.pipeText coming = x.pipeText [] := by
  unfold closeOutput
  rw [pipeText_print]
  simp [pipeText, printed, Utf8.flush, Utf8.decodeLossy]

/-- A turn neither loses nor adds text of the pipe. -/
theorem pipeText_turn (x : Exchange) (t : Turn) (turns : List Turn) :
    (x.turn t).pipeText (arriving turns) = x.pipeText (arriving (t :: turns)) := by
  cases t with
  | frame => exact pipeText_takeFrame x _
  | output chunk =>
    show (x.takeOutput chunk).pipeText _ = _
    unfold takeOutput
    split
    · next isOpen =>
      -- the bytes that the decoder holds back go before those that are still to come
      have cut := Utf8.decodeLossy_append (x.held ++ chunk) (arriving turns)
      rw [pipeText_print]
      simp only [pipeText, isOpen, if_true, arriving, ← List.append_assoc]
      rw [cut, ← List.append_assoc]
      rfl
    · next closed =>
      simp only [pipeText, closed]
      rfl
  | outputEnd =>
    show x.closeOutput.pipeText _ = _
    rw [pipeText_closeOutput]
    rfl

/-- The text of the pipe is what the turns bring. -/
theorem pipeText_foldl_turn (x : Exchange) (turns : List Turn) :
    (turns.foldl turn x).pipeText [] = x.pipeText (arriving turns) := by
  induction turns generalizing x with
  | nil => rfl
  | cons t turns ih => rw [List.foldl_cons, ih, pipeText_turn]

/-! ## Whole exchanges -/

/-- Behind the end no frame is taken. -/
theorem takeFrames_of_ending {x : Exchange} (h : x.ending.isSome) (n : Nat) :
    x.takeFrames n = x := by
  induction n with
  | zero => rfl
  | succ n ih =>
    unfold takeFrames
    rw [takeFrame_of_ending h, ih]

/-- Taking one frame more than there are comes to the end of the stream. -/
theorem isSome_ending_takeFrames (x : Exchange) {n : Nat} (hn : x.awaited.length < n) :
    (x.takeFrames n).ending.isSome := by
  -- each frame either ends the stream or leaves one less to await
  induction n generalizing x with
  | zero => omega
  | succ n ih =>
    unfold takeFrames
    cases hending : x.ending with
    | some e =>
      have ended : x.ending.isSome := by rw [hending]; rfl
      rw [takeFrame_of_ending ended, takeFrames_of_ending ended]
      exact ended
    | none =>
      cases hawaited : x.awaited with
      | nil =>
        have ended : x.takeFrame.ending.isSome := by simp [takeFrame, hending, hawaited]
        rw [takeFrames_of_ending ended]
        exact ended
      | cons a rest =>
        rw [hawaited, List.length_cons] at hn
        cases a with
        | error e =>
          have ended : x.takeFrame.ending.isSome := by simp [takeFrame, hending, hawaited]
          rw [takeFrames_of_ending ended]
          exact ended
        | ok e =>
          apply ih
          simp [takeFrame, hending, hawaited]
          omega

/-- What each frame leaves, all of them leave. -/
theorem takeFrames_preserves {P : Exchange → Prop} (step : ∀ x, P x → P x.takeFrame) {x : Exchange}
    (h : P x) (n : Nat) : P (x.takeFrames n) := by
  induction n generalizing x with
  | zero => exact h
  | succ n ih => exact ih (step x h)

/-- Completing the exchange leaves the whole of the stream as it is. -/
theorem stream_complete (x : Exchange) : x.complete.stream = x.stream := by
  unfold complete
  rw [stream_closeOutput]
  exact takeFrames_preserves (P := fun y => y.stream = x.stream)
    (fun y hy => (stream_takeFrame y).trans hy) rfl _

/-- Completing the exchange leaves the flags right. -/
theorem Flagged.complete {x : Exchange} (h : x.Flagged) : x.complete.Flagged :=
  (takeFrames_preserves (P := Flagged) (fun _ => Flagged.takeFrame) h _).closeOutput

/-- Completing the exchange leaves the text of the pipe as it is. -/
theorem pipeText_complete (x : Exchange) : x.complete.pipeText [] = x.pipeText [] := by
  unfold complete
  rw [pipeText_closeOutput]
  exact takeFrames_preserves (P := fun y => y.pipeText [] = x.pipeText [])
    (fun y hy => (pipeText_takeFrame y []).trans hy) rfl _

theorem ending_print (x : Exchange) (t : Text) : (x.print t).ending = x.ending := by
  unfold print
  split
  · rfl
  · rfl

theorem held_print (x : Exchange) (t : Text) : (x.print t).held = x.held := by
  unfold print
  split
  · rfl
  · rfl

/-- A complete exchange has ended. -/
theorem isSome_ending_complete (x : Exchange) : x.complete.ending.isSome := by
  unfold complete closeOutput
  rw [ending_print]
  exact isSome_ending_takeFrames x (Nat.lt_succ_self _)

theorem held_complete (x : Exchange) : x.complete.held = [] := by
  unfold complete closeOutput
  rw [held_print]

section OfTurns

variable (refusal : Bytes → Text) (frames : Bytes) (turns : List Turn)

/-- The stream of an exchange is that of its frames. -/
theorem stream_ofTurns : (ofTurns refusal frames turns).stream = Stream.read refusal frames := by
  rw [ofTurns, stream_complete, stream_foldl_turn]
  simp [stream, heard, ahead, Stream.read]

/-- The stream of an exchange is taken to its end. -/
theorem exists_ending_ofTurns :
    ∃ e, (ofTurns refusal frames turns).ending = some e ∧
      (ofTurns refusal frames turns).stream = ((ofTurns refusal frames turns).heard, e) := by
  obtain ⟨e, he⟩ := Option.isSome_iff_exists.1
    (isSome_ending_complete (turns.foldl turn { awaited := Stream.answers refusal frames }))
  have ended : (ofTurns refusal frames turns).ending = some e := he
  refine ⟨e, ended, ?_⟩
  simp [stream, ahead, ended]

/-- An exchange signals the events of its stream. -/
theorem heard_ofTurns : (ofTurns refusal frames turns).heard = (Stream.read refusal frames).1 := by
  obtain ⟨e, -, hstream⟩ := exists_ending_ofTurns refusal frames turns
  rw [← stream_ofTurns refusal frames turns, hstream]

/-- The stream of an exchange ends as its frames do. -/
theorem ending_ofTurns :
    (ofTurns refusal frames turns).ending = some (Stream.read refusal frames).2 := by
  obtain ⟨e, he, hstream⟩ := exists_ending_ofTurns refusal frames turns
  rw [← stream_ofTurns refusal frames turns, hstream, he]

/-- An exchange prints what its pipe brings. -/
theorem flatten_printed_ofTurns :
    (ofTurns refusal frames turns).printed.flatten = Utf8.decodeLossy (arriving turns) := by
  have brought : (ofTurns refusal frames turns).pipeText [] =
      Utf8.decodeLossy (arriving turns) := by
    rw [ofTurns, pipeText_complete, pipeText_foldl_turn]
    simp [pipeText, printed]
  have rest : (ofTurns refusal frames turns).held = [] := held_complete _
  simpa [pipeText, rest, Utf8.decodeLossy] using brought

/-- The flag of an exchange tells whether its stream has reported the end of the program. -/
theorem finished_ofTurns :
    (ofTurns refusal frames turns).finished = (Stream.read refusal frames).1.any reportsEnd := by
  have start : Flagged { awaited := Stream.answers refusal frames } := rfl
  rw [← heard_ofTurns refusal frames turns]
  exact (start.foldl_turn turns).complete

end OfTurns

/-! ## What is said about a program that stops -/

/-- What is said about a program that has not reported its end, by how its stream of frames ends.
What is wrong with a frame that is no event is said in the words of the reader that refuses it. -/
inductive Explains (refusal : Bytes → Text) : StreamEnd → Text → Prop where
  | closed : Explains refusal .closed "program exited before reporting completion".toList
  | truncated (bytes : Nat) : Explains refusal (.truncated bytes)
      ("event stream cut off after ".toList ++ Text.ofNat bytes ++ " bytes of a frame".toList)
  | empty : Explains refusal (.malformed [] "empty frame".toList)
      "malformed event frame: empty frame".toList
  | malformed {frame : Bytes} (some : frame ≠ []) (undecoded : Event.ofFrame? frame = none) :
      Explains refusal (.malformed (Utf8.decodeLossy frame) (refusal frame))
        ("malformed event frame: ".toList ++ refusal frame)

/-- The reason goes by the answer that breaks the stream off. -/
theorem explains_of_answer {refusal : Bytes → Text} {piece : Bytes} {ending : StreamEnd}
    (h : Stream.answer refusal piece = .error ending) :
    Explains refusal ending (reason (some ending)) := by
  unfold Stream.answer at h
  split at h
  · cases h
    exact .truncated piece.length
  · cases h
    exact .empty
  · next frame some _ =>
    split at h
    · cases h
    · next undecoded =>
      cases h
      exact .malformed some undecoded

/-- The reason goes by the end of the stream. -/
theorem explains_reason (refusal : Bytes → Text) (frames : Bytes) :
    Explains refusal (Stream.read refusal frames).2
      (reason (some (Stream.read refusal frames).2)) := by
  unfold Stream.read
  rcases Stream.upToEnd_cases (Stream.answers refusal frames) with ⟨-, closed⟩ | ⟨later, split⟩
  · rw [closed]
    exact .closed
  · have mem : .error (Stream.upToEnd (Stream.answers refusal frames)).2 ∈
        (Stream.upToEnd (Stream.answers refusal frames)).1.map .ok ++
          .error (Stream.upToEnd (Stream.answers refusal frames)).2 :: later :=
      List.mem_append_right _ List.mem_cons_self
    rw [← split] at mem
    obtain ⟨piece, -, answered⟩ := List.mem_map.1 mem
    exact explains_of_answer answered

/-- Whatever the turns of an exchange: all but the output is what the stream alone brings; the
output is a merge of the texts of the stream with pieces of the text of the pipe, and neither loses
anything; the run is completed just if the program has reported its end before the stream breaks
off, and else what is said about it explains the end of the stream. -/
theorem ofTurns_brings (refusal : Bytes → Text) (cap : Option Nat) (frames : Bytes)
    (turns : List Turn) (status : Option Int) (stderr : Bytes) :
    let x := ofTurns refusal frames turns
    let result := Run.storedResult (x.signals.foldl Handler.accept (.leaf { cap := cap }))
    let events := (Stream.read refusal frames).1
    let ending := (Stream.read refusal frames).2
    (result.withoutStdout = (EvalResult.ofEvents cap events).withoutStdout ∧
      x.ending = some ending) ∧
    (∃ pieces texts, Merge (events.filterMap Event.output?) pieces texts ∧
      pieces.flatten = Utf8.decodeLossy (arriving turns) ∧ result.stdout = texts.flatten) ∧
    ∃ why, Explains refusal ending why ∧ x.outcome status stderr =
      if events.any reportsEnd then .completed
      else .crashed ⟨status, Utf8.decodeLossy stderr, why⟩ := by
  intro x result events ending
  have heard : x.signals.filterMap Signal.event? = events := heard_ofTurns refusal frames turns
  have ended : x.ending = some ending := ending_ofTurns refusal frames turns
  have stored : result = EvalResult.ofEvents cap (x.signals.map Signal.toEvent) :=
    storedResult_foldl_accept cap x.signals
  -- the texts of the pipe reach nothing but the output, where they come between those of the stream
  refine ⟨⟨?_, ended⟩, ?_, _, explains_reason refusal frames, ?_⟩
  · rw [stored, ← heard]
    exact EvalResult.withoutStdout_foldl_add cap rfl x.signals
  · refine ⟨x.printed, (x.signals.map Signal.toEvent).filterMap Event.output?, ?_,
      flatten_printed_ofTurns refusal frames turns, ?_⟩
    · rw [← heard]
      exact merge_signals x.signals
    · rw [stored]
      exact (EvalResult.stdout_foldl_add cap {} _).trans (List.nil_append _)
  · rw [outcome, finished_ofTurns refusal frames turns, ended]

end Exchange

end Marginalia
