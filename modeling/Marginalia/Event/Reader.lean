import Marginalia.Event.Stream

/-!
# Event readers

A stream of frames that is read while it arrives. A call for the next frame gathers bytes up to a
line feed and answers for them. As long as nothing has arrived the call is pending. It can be given
up then: the bytes that it has gathered stay with the reader, and the next call goes on with them.
-/

namespace Marginalia

open Utf8 (Bytes)

/-- What the source of a stream brings when it is asked for more. -/
inductive Arrival where
  /-- Nothing so far. -/
  | nothing
  /-- Some bytes; there is one at least. -/
  | chunk (first : UInt8) (others : Bytes)
  deriving DecidableEq, Repr

/-- The bytes that have arrived. -/
def Arrival.bytes : Arrival → Bytes
  | .nothing => []
  | .chunk first others => first :: others

/-- What a call answers when it is asked whether it is done. -/
inductive Poll where
  | pending
  /-- The answer for a frame; there is none behind the end of the stream. -/
  | done (answer : Option StreamAnswer)

/-- The answer of a call that is done. -/
def Poll.answer? : Poll → Option (Option StreamAnswer)
  | .pending => none
  | .done answer => some answer

namespace Stream

/-- Cuts bytes behind the first line feed. -/
def cutFrame? : Bytes → Option (Bytes × Bytes)
  | [] => none
  | b :: bs =>
    if b = lineFeed then some ([b], bs)
    else (cutFrame? bs).map fun (frame, rest) => (b :: frame, rest)

/-- The answer for the bytes of a frame; there is none if there are no bytes. -/
def answer? (refusal : Bytes → Text) (frame : Bytes) : Option StreamAnswer :=
  if frame.isEmpty then none else some (answer refusal frame)

theorem cutFrame?_eq_none {bytes : Bytes} (h : cutFrame? bytes = none) : lineFeed ∉ bytes := by
  induction bytes with
  | nil => exact List.not_mem_nil
  | cons b bs ih =>
    unfold cutFrame? at h
    split at h
    · cases h
    · next hb =>
      rw [List.mem_cons, not_or]
      exact ⟨Ne.symm hb, ih (Option.map_eq_none_iff.1 h)⟩

theorem cutFrame?_eq_some {bytes frame rest : Bytes} (h : cutFrame? bytes = some (frame, rest)) :
    ∃ line, lineFeed ∉ line ∧ frame = line ++ [lineFeed] ∧ bytes = line ++ lineFeed :: rest := by
  induction bytes generalizing frame with
  | nil => cases h
  | cons b bs ih =>
    unfold cutFrame? at h
    split at h
    · next hb =>
      cases h
      exact ⟨[], List.not_mem_nil, by rw [hb]; rfl, by rw [hb]; rfl⟩
    · next hb =>
      obtain ⟨⟨frame', rest'⟩, hcut, heq⟩ := Option.map_eq_some_iff.1 h
      cases heq
      obtain ⟨line, clean, rfl, rfl⟩ := ih hcut
      refine ⟨b :: line, ?_, rfl, rfl⟩
      rw [List.mem_cons, not_or]
      exact ⟨Ne.symm hb, clean⟩

end Stream

/-- A reader of frames, and what it is brought. -/
structure Reader where
  /-- Bytes that have arrived and are not gathered. -/
  ready : Bytes := []
  /-- What the source brings, in order. Behind it the stream ends. -/
  arrivals : List Arrival := []
  /-- The bytes gathered for the next frame. -/
  gathered : Bytes := []
  deriving DecidableEq, Repr

namespace Reader

/-- The reader of a stream that has not begun. -/
def ofArrivals (arrivals : List Arrival) : Reader := { arrivals := arrivals }

/-! ## Polls -/

section Calls

variable (refusal : Bytes → Text)

/-- Gathers what arrives until a frame is whole, the stream ends, or nothing has arrived. Once there
is an answer nothing stays gathered. -/
def gather (gathered : Bytes) : List Arrival → Poll × Reader
  | [] => (.done (Stream.answer? refusal gathered), {})
  | .nothing :: as => (.pending, { arrivals := as, gathered := gathered })
  | .chunk b bs :: as =>
    match Stream.cutFrame? (b :: bs) with
    | some (frame, rest) =>
      (.done (Stream.answer? refusal (gathered ++ frame)), { ready := rest, arrivals := as })
    | none => gather (gathered ++ b :: bs) as

/-- Asks a call for the next frame whether it is done. -/
def poll (r : Reader) : Poll × Reader :=
  match r.ready with
  | [] => gather refusal r.gathered r.arrivals
  | b :: bs => gather refusal r.gathered (.chunk b bs :: r.arrivals)

/-- The bytes for which there is no answer yet. -/
def bytes (r : Reader) : Bytes := r.gathered ++ r.ready ++ r.arrivals.flatMap Arrival.bytes

/-- How often nothing will have arrived. -/
def delays (r : Reader) : Nat := r.arrivals.count .nothing

/-- What one poll does: what it answers, and what it leaves. -/
inductive Polled (bytes gathered : Bytes) (delays : Nat) : Poll × Reader → Prop where
  | pending {r : Reader} (same : r.bytes = bytes) (sooner : r.delays < delays)
      (clean : Stream.lineFeed ∉ gathered → Stream.lineFeed ∉ r.gathered) :
      Polled bytes gathered delays (.pending, r)
  | frame {r : Reader} {line : Bytes} (cut : bytes = line ++ Stream.lineFeed :: r.bytes)
      (later : r.delays ≤ delays) (fresh : r.gathered = [])
      (clean : Stream.lineFeed ∉ gathered → Stream.lineFeed ∉ line) :
      Polled bytes gathered delays
        (.done (some (Stream.answer refusal (line ++ [Stream.lineFeed]))), r)
  | last (left : bytes ≠ []) (clean : Stream.lineFeed ∉ gathered → Stream.lineFeed ∉ bytes) :
      Polled bytes gathered delays (.done (some (Stream.answer refusal bytes)), {})
  | ended (empty : bytes = []) : Polled bytes gathered delays (.done none, {})

/-- Gathering is what a poll does with the bytes that have not been gathered. -/
theorem polled_gather (gathered : Bytes) (as : List Arrival) :
    Polled refusal (gathered ++ as.flatMap Arrival.bytes) gathered (as.count .nothing)
      (gather refusal gathered as) := by
  induction as generalizing gathered with
  | nil =>
    unfold gather Stream.answer?
    rw [List.flatMap_nil, List.append_nil]
    cases gathered with
    | nil => exact .ended rfl
    | cons b bs => exact .last (List.cons_ne_nil b bs) id
  | cons a as ih =>
    cases a with
    | nothing =>
      refine .pending ?_ ?_ id
      · show gathered ++ [] ++ as.flatMap Arrival.bytes = gathered ++ as.flatMap Arrival.bytes
        rw [List.append_nil]
      · rw [List.count_cons_self]
        exact Nat.lt_succ_self _
    | chunk b bs =>
      rw [List.count_cons_of_ne (by nofun), List.flatMap_cons]
      unfold gather
      -- a chunk completes a frame, or all of it is gathered and the rest decides
      split
      · next frame rest hcut =>
        obtain ⟨line, clean, rfl, hbytes⟩ := Stream.cutFrame?_eq_some hcut
        have answered : Stream.answer? refusal (gathered ++ (line ++ [Stream.lineFeed])) =
            some (Stream.answer refusal (gathered ++ line ++ [Stream.lineFeed])) := by
          rw [← List.append_assoc]
          unfold Stream.answer?
          rw [if_neg (by simp)]
        rw [answered]
        refine .frame ?_ (Nat.le_refl _) rfl fun h hm => (List.mem_append.1 hm).elim h clean
        show gathered ++ (b :: bs ++ _) = gathered ++ line ++ Stream.lineFeed :: ([] ++ rest ++ _)
        rw [hbytes]
        simp only [List.append_assoc, List.cons_append, List.nil_append]
      · next hcut =>
        have clean := Stream.cutFrame?_eq_none hcut
        have later := ih (gathered ++ b :: bs)
        have gathers : Stream.lineFeed ∉ gathered → Stream.lineFeed ∉ gathered ++ b :: bs :=
          fun h hm => (List.mem_append.1 hm).elim h clean
        rw [List.append_assoc] at later
        generalize gather refusal (gathered ++ b :: bs) as = polled at later
        cases later with
        | pending same sooner clean => exact .pending same sooner (clean ∘ gathers)
        | frame cut later fresh clean => exact .frame cut later fresh (clean ∘ gathers)
        | last left clean => exact .last left (clean ∘ gathers)
        | ended empty => exact .ended empty

theorem polled_poll (r : Reader) :
    Polled refusal r.bytes r.gathered r.delays (r.poll refusal) := by
  unfold poll bytes delays
  cases r.ready with
  | nil =>
    rw [List.append_nil]
    exact polled_gather refusal r.gathered r.arrivals
  | cons b bs =>
    rw [List.append_assoc]
    have polled := polled_gather refusal r.gathered (.chunk b bs :: r.arrivals)
    rw [List.count_cons_of_ne (by rintro ⟨⟩)] at polled
    exact polled

/-- A poll that is pending has used up one of the times at which nothing arrives. -/
theorem delays_lt_of_poll {refusal : Bytes → Text} {r r' : Reader}
    (h : r.poll refusal = (.pending, r')) : r'.delays < r.delays := by
  have polled := polled_poll refusal r
  rw [h] at polled
  cases polled with
  | pending _ sooner => exact sooner

/-! ## Calls -/

/-- A call that is made and waits for its answer. -/
def await (r : Reader) : Option StreamAnswer × Reader :=
  match _h : r.poll refusal with
  | (.done answer, r') => (answer, r')
  | (.pending, r') => r'.await
termination_by r.delays
decreasing_by exact delays_lt_of_poll _h

/-- A call that is made, and given up when nothing has arrived once more than it has patience
for. -/
def call (r : Reader) (patience : Nat) : Poll × Reader :=
  match r.poll refusal, patience with
  | (.pending, r'), n + 1 => r'.call n
  | answer, _ => answer

/-- Calls that are made one after the other, each with its patience. -/
def calls (r : Reader) : List Nat → List Poll
  | [] => []
  | n :: ns =>
    let (polled, r') := r.call refusal n
    polled :: r'.calls ns

/-- What a call that waits does: the bytes of its frame are gone. -/
theorem polled_await (r : Reader) : ∃ delays gathered, delays ≤ r.delays ∧
    (Stream.lineFeed ∉ r.gathered → Stream.lineFeed ∉ gathered) ∧
    Polled refusal r.bytes gathered delays (.done (r.await refusal).1, (r.await refusal).2) := by
  unfold await
  have polled := polled_poll refusal r
  split
  · next answer r' h =>
    rw [h] at polled
    exact ⟨r.delays, r.gathered, Nat.le_refl _, id, polled⟩
  · next r' h =>
    rw [h] at polled
    cases polled with
    | pending same sooner clean =>
      obtain ⟨delays, gathered, le, clean', polled'⟩ := polled_await r'
      exact ⟨delays, gathered, Nat.le_trans le (Nat.le_of_lt sooner), clean' ∘ clean,
        same ▸ polled'⟩
termination_by r.delays

/-- Each answer takes bytes away. -/
theorem length_bytes_lt_of_await {refusal : Bytes → Text} {r r' : Reader} {a : StreamAnswer}
    (h : r.await refusal = (some a, r')) : r'.bytes.length < r.bytes.length := by
  obtain ⟨_, _, -, -, polled⟩ := polled_await refusal r
  rw [h] at polled
  cases polled with
  | @frame _ line cut =>
    rw [cut, List.length_append, List.length_cons]
    exact Nat.lt_of_lt_of_le (Nat.lt_succ_self _) (Nat.le_add_left _ _)
  | last left => exact List.length_pos_iff.2 left

/-- Hands the events of a stream over as they come, up to the first answer that is none. -/
def readEvents {σ : Type} (handle : σ → Event → σ) (s : σ) (r : Reader) : σ × StreamEnd :=
  match _h : r.await refusal with
  | (none, _) => (s, .closed)
  | (some (.ok e), r') => r'.readEvents handle (handle s e)
  | (some (.error ending), _) => (s, ending)
termination_by r.bytes.length
decreasing_by exact length_bytes_lt_of_await _h

end Calls

end Reader

end Marginalia
