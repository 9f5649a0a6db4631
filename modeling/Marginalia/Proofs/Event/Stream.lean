import Marginalia.Proofs.Event.Frame
import Marginalia.Proofs.Text

/-!
# Streams of frames

A stream that was written frame by frame, and then cut somewhere, is read up to the cut: the events
whose frames are whole arrive, and what is left of the next frame is counted. No text in an event
can start or end a frame, because a frame holds no line feed but its last byte.
-/

namespace Marginalia.Stream

open Utf8 (Bytes)

variable (refusal : Bytes → Text)

/-- A frame stands for its event. -/
theorem answer_frame {e : Event} (h : e.InRange) : answer refusal e.frame = .ok e := by
  have bare : content? e.frame = some e.content := by
    rw [Event.frame_eq, content?, List.getLast?_concat, if_pos rfl]
    simp only [List.dropLast_concat, Event.getLast?_content]
    rfl
  unfold answer
  rw [bare]
  cases hc : e.content with
  | nil =>
    -- a frame is not empty, since it has a last byte
    have last := e.getLast?_content
    rw [hc] at last
    cases last
  | cons b r =>
    simp only
    rw [← hc, Event.ofFrame?_content h]

/-- A whole frame is read before what follows it. -/
theorem read_frame_append {e : Event} (h : e.InRange) (rest : Bytes) :
    read refusal (e.frame ++ rest) =
      (e :: (read refusal rest).1, (read refusal rest).2) := by
  have cut : pieces (e.frame ++ rest) = e.frame :: pieces rest := by
    rw [Event.frame_eq, List.append_assoc, List.singleton_append]
    exact Text.cutAfter_append (Event.lineFeed_notMem_content h) rest
  rw [read, answers, cut, List.map_cons, answer_frame refusal h]
  rfl

/-- Bytes without a line feed are a frame that is cut off. -/
theorem read_of_notMem {bytes : Bytes} (h : lineFeed ∉ bytes) :
    read refusal bytes = ([], if bytes = [] then .closed else .truncated bytes.length) := by
  cases bytes with
  | nil => rfl
  | cons b r =>
    have cut : pieces (b :: r) = [b :: r] := Text.cutAfter_of_notMem h (List.cons_ne_nil b r)
    have unfinished : content? (b :: r) = none := by
      rw [content?, if_neg]
      intro last
      exact h (List.mem_of_getLast? last)
    rw [read, answers, cut, List.map_singleton, answer, unfinished]
    rfl

/-- What a prefix of some frames holds: whole frames, and less than the whole of the next. -/
theorem exists_split {events : List Event} {p : Bytes} (hp : p <+: events.flatMap Event.frame) :
    ∃ whole later left, events = whole ++ later ∧ p = whole.flatMap Event.frame ++ left ∧
      (later = [] → left = []) ∧
      ∀ e, later.head? = some e → left <+: e.frame ∧ left ≠ e.frame := by
  induction events generalizing p with
  | nil => exact ⟨[], [], [], rfl, List.prefix_nil.1 hp, fun _ => rfl, nofun⟩
  | cons e events ih =>
    rw [List.flatMap_cons] at hp
    -- the cut is behind this frame or in it
    by_cases reached : e.frame <+: p
    · obtain ⟨q, rfl⟩ := reached
      obtain ⟨whole, later, left, rfl, rfl, last, next⟩ :=
        ih ((List.prefix_append_right_inj e.frame).1 hp)
      refine ⟨e :: whole, later, left, rfl, ?_, last, next⟩
      rw [List.flatMap_cons, List.append_assoc]
    · have inside : p <+: e.frame :=
        (List.prefix_or_prefix_of_prefix hp (List.prefix_append _ _)).resolve_right reached
      refine ⟨[], e :: events, p, rfl, rfl, nofun, ?_⟩
      intro f hf
      cases hf
      exact ⟨inside, fun h => reached (h ▸ List.prefix_rfl)⟩

/-- Whole frames are read before what follows them. -/
theorem read_whole_append {whole : List Event} (h : ∀ e ∈ whole, e.InRange) (rest : Bytes) :
    read refusal (whole.flatMap Event.frame ++ rest) =
      (whole ++ (read refusal rest).1, (read refusal rest).2) := by
  induction whole with
  | nil => rfl
  | cons e whole ih =>
    rw [List.flatMap_cons, List.append_assoc, read_frame_append refusal (h e List.mem_cons_self),
      ih fun f hf => h f (List.mem_cons_of_mem e hf)]
    rfl

/-- Less than the whole of a frame holds no line feed. -/
theorem lineFeed_notMem_left {e : Event} (h : e.InRange) {left : Bytes} (start : left <+: e.frame)
    (ne : left ≠ e.frame) : lineFeed ∉ left := by
  rw [Event.frame_eq] at start ne
  have inside : left <+: e.content := (List.prefix_concat_iff.1 start).resolve_left ne
  exact fun hmem => Event.lineFeed_notMem_content h (inside.subset hmem)

/-- The stream of some events, cut anywhere: each frame is one line that is read back as its event,
the events whose frames are whole are delivered in order, and the bytes that are left of the next
frame are counted. -/
theorem read_prefix_of_frames {events : List Event} (inRange : ∀ e ∈ events, e.InRange) {p : Bytes}
    (hp : p <+: events.flatMap Event.frame) :
    (∀ e ∈ events, ∃ line, e.frame = line ++ [lineFeed] ∧ lineFeed ∉ line ∧
      Event.ofFrame? line = some e ∧ Event.ofFrame? e.frame = some e) ∧
    ∃ whole later left, events = whole ++ later ∧ p = whole.flatMap Event.frame ++ left ∧
      (later = [] → left = []) ∧
      (∀ e, later.head? = some e → left <+: e.frame ∧ left.length < e.frame.length) ∧
      read refusal p = (whole, if left = [] then .closed else .truncated left.length) := by
  refine ⟨fun e he => ⟨e.content, e.frame_eq, Event.lineFeed_notMem_content (inRange e he),
    Event.ofFrame?_content (inRange e he), Event.ofFrame?_frame (inRange e he)⟩, ?_⟩
  obtain ⟨whole, later, left, rfl, rfl, last, next⟩ := exists_split hp
  -- what is left is not a whole frame, so the line feed is missing
  have clean : lineFeed ∉ left := by
    cases later with
    | nil =>
      rw [last rfl]
      exact List.not_mem_nil
    | cons e later =>
      obtain ⟨start, ne⟩ := next e rfl
      exact lineFeed_notMem_left (inRange e (by simp)) start ne
  refine ⟨whole, later, left, rfl, rfl, last, ?_, ?_⟩
  · intro e he
    obtain ⟨start, ne⟩ := next e he
    refine ⟨start, Nat.lt_of_le_of_ne start.length_le ?_⟩
    exact fun same => ne (start.eq_of_length same)
  · rw [read_whole_append refusal fun e he => inRange e (List.mem_append_left _ he),
      read_of_notMem refusal clean, List.append_nil]

/-- A greatest line number and a text that looks like the end of a frame, cut off in the next
frame. -/
theorem read_prefix_of_frames_cut :
    let value := Event.value 18446744073709551615 ['"', '\n', '\x01', 'é']
    let finished := Event.finished (-1)
    let p := value.frame ++ finished.frame.take 5
    (∀ e ∈ [value, finished], e.InRange) ∧ p <+: [value, finished].flatMap Event.frame ∧
      ∃ whole later left, [value, finished] = whole ++ later ∧
        p = whole.flatMap Event.frame ++ left ∧ (later = [] → left = []) ∧
        (∀ e, later.head? = some e → left <+: e.frame ∧ left.length < e.frame.length) ∧
        read (fun _ => []) p = (whole, if left = [] then .closed else .truncated left.length) ∧
        read (fun _ => []) p = ([value], .truncated 5) := by
  intro value finished p
  have inRange : ∀ e ∈ [value, finished], e.InRange := by
    rw [List.forall_mem_cons, List.forall_mem_cons]
    refine ⟨?_, ⟨by decide, by decide⟩, nofun⟩
    show 18446744073709551615 < UInt64.size
    decide
  have start : p <+: [value, finished].flatMap Event.frame := by
    show value.frame ++ finished.frame.take 5 <+: value.frame ++ (finished.frame ++ [])
    rw [List.append_nil, List.prefix_append_right_inj]
    exact List.take_prefix 5 _
  obtain ⟨-, whole, later, left, split, cut, last, next, delivered⟩ :=
    read_prefix_of_frames (fun _ => []) inRange start
  exact ⟨inRange, start, whole, later, left, split, cut, last, next, delivered, by decide +kernel⟩

end Marginalia.Stream
