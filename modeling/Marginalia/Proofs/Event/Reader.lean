import Mathlib.Data.List.Forall2
import Marginalia.Event.Reader
import Marginalia.Proofs.Text

/-!
# Reading a stream while it arrives

However a stream arrives, and however often a call for its next frame is given up, the calls that
are answered give the answers of its lines, in order (`answers_of_calls`). A poll takes away one
line at most (`Reader.Polled`), and what a call has gathered when it is given up is still the start
of the next line.
-/

namespace Marginalia

open Utf8 (Bytes)

/-! ## Lines of a stream -/

namespace Text

/-- What is cut after each `x`: parts that end in their only `x`, and what is behind the last. -/
theorem exists_cutAfter {α : Type} [DecidableEq α] (x : α) (l : List α) : ∃ (us : List (List α))
    (rest : List α), (∀ u ∈ us, x ∉ u) ∧ x ∉ rest ∧ l = us.flatMap (· ++ [x]) ++ rest ∧
      cutAfter x l = us.map (· ++ [x]) ++ if rest = [] then [] else [rest] := by
  induction l with
  | nil => exact ⟨[], [], nofun, List.not_mem_nil, rfl, rfl⟩
  | cons c l ih =>
    obtain ⟨us, rest, clean, hrest, split, cut⟩ := ih
    unfold cutAfter
    by_cases hc : c = x
    · refine ⟨[] :: us, rest, ?_, hrest, ?_, ?_⟩
      · rw [List.forall_mem_cons]
        exact ⟨List.not_mem_nil, clean⟩
      · rw [split, hc]
        rfl
      · rw [if_pos hc, cut]
        rfl
    · rw [if_neg hc, cut]
      cases us with
      | nil =>
        refine ⟨[], c :: rest, nofun, ?_, by rw [split]; rfl, ?_⟩
        · rw [List.mem_cons, not_or]
          exact ⟨Ne.symm hc, hrest⟩
        · by_cases empty : rest = []
          · rw [if_pos empty, empty]
            rfl
          · rw [if_neg empty]
            rfl
      | cons u us =>
        rw [List.forall_mem_cons] at clean
        refine ⟨(c :: u) :: us, rest, ?_, hrest, by rw [split]; rfl, rfl⟩
        rw [List.forall_mem_cons, List.mem_cons, not_or]
        exact ⟨⟨Ne.symm hc, clean.1⟩, clean.2⟩

end Text

namespace Stream

/-- The bytes of a line without the carriage return at its end, if there is one. -/
def withoutReturn (line : Bytes) : Bytes :=
  if line.getLast? = some carriageReturn then line.dropLast else line

section Answers

variable (refusal : Bytes → Text)

/-- What a line of a stream stands for, given without its line feed. -/
inductive Stands (line : Bytes) : StreamAnswer → Prop where
  | empty (bare : withoutReturn line = []) : Stands line (.error (.malformed [] emptyFrame))
  | event {e : Event} (some : withoutReturn line ≠ [])
      (decoded : Event.ofFrame? (withoutReturn line) = .some e) : Stands line (.ok e)
  | malformed (some : withoutReturn line ≠ [])
      (undecoded : Event.ofFrame? (withoutReturn line) = none) :
      Stands line (.error (.malformed (Utf8.decodeLossy (withoutReturn line))
        (refusal (withoutReturn line))))

/-- The answer for a line is what the line stands for. -/
theorem stands_answer (line : Bytes) :
    Stands refusal line (answer refusal (line ++ [lineFeed])) := by
  have content : content? (line ++ [lineFeed]) = some (withoutReturn line) := by
    unfold content? withoutReturn
    rw [List.getLast?_concat, if_pos rfl, List.dropLast_concat]
  unfold answer
  split
  · next h =>
    rw [content] at h
    cases h
  · next h =>
    rw [content] at h
    exact .empty (Option.some.inj h)
  · next bytes ne h =>
    obtain rfl := Option.some.inj (content.symm.trans h)
    have some : withoutReturn line ≠ [] := ne
    cases decoded : Event.ofFrame? (withoutReturn line) with
    | none => exact .malformed some decoded
    | some e => exact .event some decoded

/-- Behind the last line feed the answer is how many bytes are left. -/
theorem answer_of_notMem {rest : Bytes} (h : lineFeed ∉ rest) :
    answer refusal rest = .error (.truncated rest.length) := by
  have unfinished : content? rest = none := if_neg fun last => h (List.mem_of_getLast? last)
  unfold answer
  rw [unfinished]

/-- A whole line is answered for by itself. -/
theorem answers_line (line rest : Bytes) (h : lineFeed ∉ line) :
    answers refusal (line ++ lineFeed :: rest) =
      answer refusal (line ++ [lineFeed]) :: answers refusal rest := by
  unfold answers pieces
  rw [Text.cutAfter_append h, List.map_cons]

/-- What is left without a line feed is answered for at the end of the stream. -/
theorem answers_of_notMem {rest : Bytes} (h : lineFeed ∉ rest) (left : rest ≠ []) :
    answers refusal rest = [answer refusal rest] := by
  unfold answers pieces
  rw [Text.cutAfter_of_notMem h left, List.map_singleton]

/-- A stream has an answer for each of its lines, and one for the bytes behind the last line
feed. -/
theorem exists_answers (bytes : Bytes) :
    ∃ (lines : List Bytes) (rest : Bytes) (as : List StreamAnswer),
      (∀ line ∈ lines, lineFeed ∉ line) ∧ lineFeed ∉ rest ∧
      bytes = lines.flatMap (· ++ [lineFeed]) ++ rest ∧
      List.Forall₂ (Stands refusal) lines as ∧
      answers refusal bytes =
        as ++ if rest = [] then [] else [.error (.truncated rest.length)] := by
  obtain ⟨lines, rest, clean, hrest, split, cut⟩ := Text.exists_cutAfter lineFeed bytes
  refine ⟨lines, rest, lines.map fun line => answer refusal (line ++ [lineFeed]), clean, hrest,
    split, ?_, ?_⟩
  · rw [List.forall₂_map_right_iff]
    exact List.forall₂_same.2 fun line _ => stands_answer refusal line
  · unfold answers pieces
    rw [cut, List.map_append, List.map_map]
    congr 1
    split
    · rfl
    · rw [List.map_singleton, answer_of_notMem refusal hrest]

end Answers

/-- Some events, and then the end of the stream or the first answer that is no event. -/
theorem upToEnd_cases (as : List StreamAnswer) :
    as = (upToEnd as).1.map .ok ∧ (upToEnd as).2 = .closed ∨
      ∃ later, as = (upToEnd as).1.map .ok ++ .error (upToEnd as).2 :: later := by
  induction as with
  | nil => exact .inl ⟨rfl, rfl⟩
  | cons a as ih =>
    cases a with
    | error ending => exact .inr ⟨as, rfl⟩
    | ok e =>
      refine ih.imp (fun ⟨all, closed⟩ => ⟨congrArg (.ok e :: ·) all, closed⟩) ?_
      rintro ⟨later, split⟩
      exact ⟨later, congrArg (.ok e :: ·) split⟩

end Stream

namespace Reader

variable (refusal : Bytes → Text)

/-! ## Calls that may be given up -/

/-- What a call does: if it is given up then nothing has arrived for one more time. -/
theorem polled_call (r : Reader) (patience : Nat) : ∃ delays gathered, delays ≤ r.delays ∧
    (Stream.lineFeed ∉ r.gathered → Stream.lineFeed ∉ gathered) ∧
    Polled refusal r.bytes gathered delays (r.call refusal patience) := by
  induction patience generalizing r with
  | zero =>
    refine ⟨r.delays, r.gathered, Nat.le_refl _, id, ?_⟩
    have same : r.call refusal 0 = r.poll refusal := by
      unfold call
      split
      · cases ‹0 = _ + 1›
      · rfl
    rw [same]
    exact polled_poll refusal r
  | succ n ih =>
    have polled := polled_poll refusal r
    unfold call
    split
    · next r' m h hm =>
      cases hm
      rw [h] at polled
      cases polled with
      | pending same sooner clean =>
        obtain ⟨delays, gathered, le, clean', polled'⟩ := ih r'
        exact ⟨delays, gathered, Nat.le_trans le (Nat.le_of_lt sooner), clean' ∘ clean,
          same ▸ polled'⟩
    · exact ⟨r.delays, r.gathered, Nat.le_refl _, id, polled⟩

/-- The answers of the calls that are answered. -/
def told (polls : List Poll) : List (Option StreamAnswer) := polls.filterMap Poll.answer?

/-- Calls that are answered give the answers of the stream, and then none. No call is given up but
for a time at which nothing has arrived. -/
theorem told_calls {r : Reader} (clean : Stream.lineFeed ∉ r.gathered) (patiences : List Nat) :
    told (r.calls refusal patiences) <+:
        (Stream.answers refusal r.bytes).map some ++ List.replicate patiences.length none ∧
      patiences.length ≤ (told (r.calls refusal patiences)).length + r.delays := by
  -- induction on the calls; what a reader has gathered is the start of a line before each of them
  induction patiences generalizing r with
  | nil => exact ⟨List.nil_prefix, Nat.zero_le _⟩
  | cons n ns ih =>
    obtain ⟨delays, gathered, le, cleans, polled⟩ := r.polled_call refusal n
    have clean := cleans clean
    unfold calls
    generalize r.call refusal n = called at polled
    cases polled with
    | @pending r' same sooner clean' =>
      obtain ⟨front, count⟩ := ih (clean' clean)
      rw [same] at front
      refine ⟨front.trans ?_, ?_⟩
      · rw [List.prefix_append_right_inj]
        exact ⟨[none], (List.replicate_succ' ..).symm⟩
      · show ns.length + 1 ≤ (told (r'.calls refusal ns)).length + r.delays
        omega
    | @frame r' line cut later fresh clean' =>
      obtain ⟨front, count⟩ := ih (r := r') (by rw [fresh]; exact List.not_mem_nil)
      constructor
      · rw [cut, Stream.answers_line refusal line _ (clean' clean)]
        refine ((List.prefix_cons_inj _).2 front).trans ?_
        rw [List.map_cons, List.cons_append, List.prefix_cons_inj, List.prefix_append_right_inj]
        exact ⟨[none], (List.replicate_succ' ..).symm⟩
      · show ns.length + 1 ≤ (told (r'.calls refusal ns)).length + 1 + r.delays
        omega
    | last left clean' =>
      obtain ⟨front, count⟩ := ih (r := {}) List.not_mem_nil
      constructor
      · rw [Stream.answers_of_notMem refusal (clean' clean) left]
        exact (List.prefix_cons_inj _).2 (front.trans ⟨[none], (List.replicate_succ' ..).symm⟩)
      · show ns.length + 1 ≤ (told (calls refusal {} ns)).length + 1 + r.delays
        change ns.length ≤ (told (calls refusal {} ns)).length + 0 at count
        omega
    | ended empty =>
      obtain ⟨front, count⟩ := ih (r := {}) List.not_mem_nil
      constructor
      · rw [empty]
        exact (List.prefix_cons_inj _).2 front
      · show ns.length + 1 ≤ (told (calls refusal {} ns)).length + 1 + r.delays
        change ns.length ≤ (told (calls refusal {} ns)).length + 0 at count
        omega

/-! ## Events that are handed over -/

variable {refusal}

/-- If nothing arrives the stream is closed. -/
theorem readEvents_of_none {σ : Type} (handle : σ → Event → σ) (s : σ) {r r' : Reader}
    (h : r.await refusal = (none, r')) : r.readEvents refusal handle s = (s, .closed) := by
  unfold readEvents
  split
  · rfl
  all_goals
    next answered =>
      rw [h] at answered
      cases answered

/-- An event is handed over before the next one is read. -/
theorem readEvents_of_event {σ : Type} (handle : σ → Event → σ) (s : σ) {r r' : Reader} {e : Event}
    (h : r.await refusal = (some (.ok e), r')) :
    r.readEvents refusal handle s = r'.readEvents refusal handle (handle s e) := by
  conv => lhs; unfold readEvents
  split
  · next answered =>
    rw [h] at answered
    cases answered
  · next answered =>
    rw [h] at answered
    cases answered
    rfl
  · next answered =>
    rw [h] at answered
    cases answered

/-- With the first answer that is no event the reading ends. -/
theorem readEvents_of_error {σ : Type} (handle : σ → Event → σ) (s : σ) {r r' : Reader}
    {ending : StreamEnd} (h : r.await refusal = (some (.error ending), r')) :
    r.readEvents refusal handle s = (s, ending) := by
  unfold readEvents
  split
  · next answered =>
    rw [h] at answered
    cases answered
  · next answered =>
    rw [h] at answered
    cases answered
  · next answered =>
    rw [h] at answered
    cases answered
    rfl

/-- The events before the first answer that is none are handed over, and that answer is returned. -/
theorem readEvents_eq {σ : Type} (handle : σ → Event → σ) (s : σ) {r : Reader}
    (clean : Stream.lineFeed ∉ r.gathered) : r.readEvents refusal handle s =
      ((Stream.read refusal r.bytes).1.foldl handle s, (Stream.read refusal r.bytes).2) := by
  obtain ⟨_, _, -, cleans, polled⟩ := polled_await refusal r
  have clean := cleans clean
  generalize await : r.await refusal = awaited at polled
  obtain ⟨answer, r'⟩ := awaited
  -- the answer is the first of the stream, and the reader goes on behind its piece
  have step {a : StreamAnswer} (answered : answer = some a) (fresh : r'.gathered = [])
      (answers : Stream.answers refusal r.bytes = a :: Stream.answers refusal r'.bytes) :
      r.readEvents refusal handle s =
        ((Stream.read refusal r.bytes).1.foldl handle s, (Stream.read refusal r.bytes).2) := by
    subst answered
    have shorter := length_bytes_lt_of_await await
    unfold Stream.read
    rw [answers]
    cases a with
    | error ending => exact readEvents_of_error handle s await
    | ok e =>
      rw [readEvents_of_event handle s await,
        readEvents_eq handle (handle s e) (r := r') (by rw [fresh]; exact List.not_mem_nil)]
      rfl
  cases polled with
  | @frame _ line cut later fresh clean' =>
    exact step rfl fresh (cut ▸ Stream.answers_line refusal line _ (clean' clean))
  | last left clean' => exact step rfl rfl (Stream.answers_of_notMem refusal (clean' clean) left)
  | ended empty =>
    rw [readEvents_of_none handle s await, empty]
    rfl
termination_by r.bytes.length

end Reader

/-! ## Streams that are pushed in chunks -/

namespace FrameReader

variable (refusal : Bytes → Text)

/-- What is fed has its answers, but for the bytes that are held. -/
theorem answers_feed {r : FrameReader} (clean : Stream.lineFeed ∉ r.held) (bs rest : Bytes) :
    (r.feed refusal bs).1 ++ Stream.answers refusal ((r.feed refusal bs).2.held ++ rest) =
        Stream.answers refusal (r.held ++ (bs ++ rest)) ∧
      Stream.lineFeed ∉ (r.feed refusal bs).2.held := by
  induction bs generalizing r with
  | nil => exact ⟨rfl, clean⟩
  | cons b bs ih =>
    unfold feed feedByte
    by_cases hb : b = Stream.lineFeed
    · obtain ⟨later, clean'⟩ := ih (r := {}) List.not_mem_nil
      rw [if_pos hb, hb]
      refine ⟨?_, clean'⟩
      rw [List.cons_append, Stream.answers_line refusal r.held _ clean]
      exact congrArg (Stream.answer refusal (r.held ++ [Stream.lineFeed]) :: ·) later
    · obtain ⟨later, clean'⟩ := ih (r := ⟨r.held ++ [b]⟩) (by
        rw [List.mem_append, not_or, List.mem_singleton]
        exact ⟨clean, Ne.symm hb⟩)
      rw [if_neg hb]
      refine ⟨?_, clean'⟩
      rw [List.append_assoc] at later
      exact later

/-- However a stream is cut into chunks, it has the same answers. -/
theorem readChunks_eq {r : FrameReader} (clean : Stream.lineFeed ∉ r.held) (chunks : List Bytes) :
    r.readChunks refusal chunks = Stream.answers refusal (r.held ++ chunks.flatten) := by
  induction chunks generalizing r with
  | nil =>
    unfold readChunks close
    rw [List.flatten_nil, List.append_nil]
    cases hheld : r.held with
    | nil => rfl
    | cons b bs =>
      rw [hheld] at clean
      exact (Stream.answers_of_notMem refusal clean (List.cons_ne_nil b bs)).symm
  | cons chunk chunks ih =>
    obtain ⟨later, clean'⟩ := answers_feed refusal clean chunk chunks.flatten
    unfold readChunks
    rw [List.flatten_cons, ← later]
    exact congrArg ((r.feed refusal chunk).1 ++ ·) (ih clean')

end FrameReader

/-! ## Whole streams -/

/-- A stream is read alike whatever arrives at a time and however many calls are given up. The calls
that are answered give one answer for each line, then one for the bytes behind the last line feed,
and then none; a call is given up only at a time at which nothing has arrived. What a line stands
for depends on that line alone. All events before the first answer that is none are handed over, and
no others. -/
theorem Reader.answers_of_calls (refusal : Bytes → Text) (arrivals : List Arrival) :
    let r : Reader := .ofArrivals arrivals
    ∃ (lines : List Bytes) (rest : Bytes) (as answers : List StreamAnswer),
      (∀ line ∈ lines, Stream.lineFeed ∉ line) ∧ Stream.lineFeed ∉ rest ∧
      arrivals.flatMap Arrival.bytes = lines.flatMap (· ++ [Stream.lineFeed]) ++ rest ∧
      List.Forall₂ (Stream.Stands refusal) lines as ∧
      answers = as ++ (if rest = [] then [] else [.error (.truncated rest.length)]) ∧
      (∀ patiences, told (r.calls refusal patiences) <+:
          answers.map some ++ List.replicate patiences.length none ∧
        patiences.length ≤ (told (r.calls refusal patiences)).length + r.delays) ∧
      (∀ chunks, chunks.flatten = arrivals.flatMap Arrival.bytes →
        ({} : FrameReader).readChunks refusal chunks = answers) ∧
      ∃ (events : List Event) (ending : StreamEnd),
        (answers = events.map .ok ∧ ending = .closed ∨
          ∃ later, answers = events.map .ok ++ .error ending :: later) ∧
        ∀ (σ : Type) (handle : σ → Event → σ) (s : σ),
          r.readEvents refusal handle s = (events.foldl handle s, ending) := by
  intro r
  have bytes : r.bytes = arrivals.flatMap Arrival.bytes := rfl
  obtain ⟨lines, rest, as, clean, hrest, split, stands, answers⟩ :=
    Stream.exists_answers refusal (arrivals.flatMap Arrival.bytes)
  refine ⟨lines, rest, as, Stream.answers refusal r.bytes, clean, hrest, split, stands, answers, ?_,
    ?_, (Stream.read refusal r.bytes).1, (Stream.read refusal r.bytes).2,
      Stream.upToEnd_cases _, ?_⟩
  · exact Reader.told_calls refusal (r := r) List.not_mem_nil
  · intro chunks flat
    rw [FrameReader.readChunks_eq refusal List.not_mem_nil, flat]
    rfl
  · intro σ handle s
    exact Reader.readEvents_eq handle s (r := r) List.not_mem_nil

/-- A frame that is broken, and one that is brought in two parts to two calls. -/
example :
    let r : Reader := .ofArrivals [.chunk 120 [10, 91, 34], .nothing,
      .chunk 102 (("inished\"]\r\n").toList.map fun c => c.toNat.toUInt8)]
    r.delays = 1 ∧ (Reader.told (r.calls (fun _ => []) [0, 0, 0, 0])).length = 3 ∧
      r.readEvents (fun _ => []) (fun (n : Nat) _ => n + 1) 0 = (0, .malformed ['x'] []) := by
  decide +kernel

end Marginalia
