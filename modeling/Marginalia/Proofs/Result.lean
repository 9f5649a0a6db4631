import Marginalia.Proofs.Run.Exchange

/-!
# What a result tells of its events

A result is built event by event, and yet it can be said at once what it holds (`EvalResult.Tells`):
of each line the first captures, up to the cap, and of everything else all of it. Values and
exceptions compete for the places of a line; that is the one part in which an event can be lost, and
the count of lost captures is taken line by line. `Captured.capture` is the step for this part,
`Tells.add` that for a whole result.
-/

namespace Marginalia

namespace Event

/-- What an event records, and for which line. -/
def capture? : Event → Option (Nat × Capture)
  | .value line text => some (line, .value text)
  | .exception line className message _ => some (line, .exception className message)
  | _ => none

/-- The record of an exception that left the program. -/
def exceptionRecord? : Event → Option ExceptionRecord
  | .exception line className message backtrace => some ⟨line, className, message, backtrace⟩
  | _ => none

/-- The status with which the program has ended. -/
def exitStatus? : Event → Option Int
  | .finished status => some status
  | _ => none

end Event

/-! ## Tables of lines -/

namespace LineTable

variable {line n : Nat} {f : List Capture → List Capture} {t : LineTable}

/-- A line without a key has no entry. -/
theorem find?_eq_none : t.find? n = none ↔ n ∉ t.map Prod.fst := by
  induction t with
  | nil => exact ⟨fun _ => List.not_mem_nil, fun _ => rfl⟩
  | cons e t ih =>
    rw [List.map_cons, List.mem_cons, not_or, find?, ← ih]
    split
    · next h => exact ⟨fun hn => absurd hn (Option.some_ne_none _), fun hn => absurd h.symm hn.1⟩
    · next h => exact ⟨fun hn => ⟨fun h' => h h'.symm, hn⟩, fun hn => hn.2⟩

theorem mem_keys_alter : n ∈ (alter line f t).map Prod.fst ↔ n = line ∨ n ∈ t.map Prod.fst := by
  induction t with
  | nil => simp [alter]
  | cons e t ih =>
    unfold alter
    split
    · simp
    · split
      · next h => simp [h]
      · rw [List.map_cons, List.mem_cons, ih, List.map_cons, List.mem_cons, or_left_comm]

/-- Lines stay in ascending order. -/
theorem sorted_alter (sorted : (t.map Prod.fst).Pairwise (· < ·)) :
    ((alter line f t).map Prod.fst).Pairwise (· < ·) := by
  induction t with
  | nil => exact List.pairwise_singleton _ _
  | cons e t ih =>
    obtain ⟨first, others⟩ := List.pairwise_cons.1 sorted
    unfold alter
    split
    · next hlt =>
      refine List.pairwise_cons.2 ⟨fun k hk => ?_, sorted⟩
      rcases List.mem_cons.1 hk with rfl | hk
      · exact hlt
      · exact Nat.lt_trans hlt (first k hk)
    · next hle =>
      split
      · exact sorted
      · next hne =>
        refine List.pairwise_cons.2 ⟨fun k hk => ?_, ih others⟩
        rcases mem_keys_alter.1 hk with rfl | hk
        · exact Nat.lt_of_le_of_ne (Nat.le_of_not_lt hle) hne
        · exact first k hk

/-- A sum over the lines grows by what the summand of the altered line grows by; before, a line
without an entry must count for nothing. -/
theorem sum_alter {g g' : Nat → Nat} {d : Nat} (sorted : (t.map Prod.fst).Pairwise (· < ·))
    (absent : line ∉ t.map Prod.fst → g line = 0) (self : g' line = g line + d)
    (others : ∀ k, k ≠ line → g' k = g k) :
    (((alter line f t).map Prod.fst).map g').sum = ((t.map Prod.fst).map g).sum + d := by
  induction t with
  | nil =>
    rw [absent List.not_mem_nil, Nat.zero_add] at self
    simp [alter, self]
  | cons e t ih =>
    obtain ⟨first, rest⟩ := List.pairwise_cons.1 sorted
    have same : ∀ l : List Nat, line ∉ l → l.map g' = l.map g := fun l hl =>
      List.map_congr_left fun k hk => others k fun h => hl (h ▸ hk)
    -- the line is before the first key, is that key, or comes behind it
    unfold alter
    split
    · next hlt =>
      have fresh : line ∉ (e :: t).map Prod.fst := fun hm => by
        rcases List.mem_cons.1 hm with h | hm
        · exact Nat.lt_irrefl _ (h ▸ hlt)
        · exact Nat.lt_asymm hlt (first line hm)
      have whole := same _ fresh
      rw [List.map_cons] at whole
      rw [List.map_cons, List.map_cons, List.map_cons, whole, List.sum_cons, self, absent fresh,
        Nat.zero_add, Nat.add_comm, List.map_cons]
    · split
      · next h =>
        have behind : line ∉ t.map Prod.fst := fun hm => Nat.lt_irrefl _ (h ▸ first line hm)
        simp only [List.map_cons, List.sum_cons]
        rw [same _ behind, h, self]
        omega
      · next h =>
        have tail := ih rest fun hm => absent fun hm' =>
          hm ((List.mem_cons.1 hm').resolve_left (Ne.symm h))
        simp only [List.map_cons, List.sum_cons]
        rw [tail, others e.1 h]
        omega

end LineTable

/-! ## The captures of lines -/

/-- What is recorded for a line among what is recorded for any, in order of arrival. -/
def recordsOn (records : List (Nat × Capture)) (line : Nat) : List Capture :=
  (records.filter (·.1 == line)).map Prod.snd

/-- A record is for its own line. -/
theorem recordsOn_concat (records : List (Nat × Capture)) (line n : Nat) (c : Capture) :
    recordsOn (records ++ [(line, c)]) n =
      if line = n then recordsOn records n ++ [c] else recordsOn records n := by
  unfold recordsOn
  rw [List.filter_append, List.map_append]
  split
  · next h => simp [h]
  · next h => simp [h]

namespace EvalResult

/-- The captures of a line for which there is a place. -/
def kept (cap : Option Nat) (cs : List Capture) : List Capture :=
  match cap with
  | none => cs
  | some max => cs.take max

/-- How many captures of a line there is no place for. -/
def beyond (cap : Option Nat) (cs : List Capture) : Nat :=
  match cap with
  | none => 0
  | some max => cs.length - max

variable {cap : Option Nat}

@[simp] theorem kept_nil : kept cap [] = [] := by
  cases cap with
  | none => rfl
  | some max => exact List.take_nil

@[simp] theorem beyond_nil : beyond cap [] = 0 := by
  cases cap with
  | none => rfl
  | some max => exact Nat.zero_sub max

/-- A record is kept unless the line is full. -/
theorem kept_concat (cs : List Capture) (c : Capture) : kept cap (cs ++ [c]) =
    if isFull cap (kept cap cs) then kept cap cs else kept cap cs ++ [c] := by
  cases cap with
  | none => rfl
  | some max =>
    simp only [kept, isFull, Option.any_some, decide_eq_true_eq, List.length_take]
    split
    · next full => exact List.take_append_of_le_length (by omega)
    · next free =>
      rw [List.take_of_length_le (by rw [List.length_append, List.length_singleton]; omega),
        List.take_of_length_le (by omega)]

/-- A record is counted beyond the cap if the line is full. -/
theorem beyond_concat (cs : List Capture) (c : Capture) : beyond cap (cs ++ [c]) =
    beyond cap cs + if isFull cap (kept cap cs) then 1 else 0 := by
  cases cap with
  | none => rfl
  | some max =>
    simp only [kept, beyond, isFull, Option.any_some, decide_eq_true_eq, List.length_take,
      List.length_append, List.length_singleton]
    split <;> omega

/-- More captures of a line extend what is kept of it. -/
theorem kept_prefix (cs ds : List Capture) : kept cap cs <+: kept cap (cs ++ ds) := by
  cases cap with
  | none => exact List.prefix_append cs ds
  | some max => exact ⟨ds.take (max - cs.length), List.take_append.symm⟩

/-- What the lines of a result hold, and how many captures are lost, if these are the records of its
events. -/
structure Captured (cap : Option Nat) (records : List (Nat × Capture)) (r : EvalResult) : Prop where
  /-- A line is there just if anything is recorded for it, and holds the first of it. -/
  line : ∀ n, r.line? n =
    if recordsOn records n = [] then none else some (kept cap (recordsOn records n))
  sorted : (r.lines.map Prod.fst).Pairwise (· < ·)
  dropped : r.droppedCaptures =
    ((r.lines.map Prod.fst).map fun n => beyond cap (recordsOn records n)).sum

/-- Of the records of a line those are kept that the cap allows. -/
theorem Captured.getD_line? {records : List (Nat × Capture)} {r : EvalResult}
    (h : r.Captured cap records) (n : Nat) :
    (r.line? n).getD [] = kept cap (recordsOn records n) := by
  rw [h.line]
  split
  · next none => rw [none, kept_nil]; rfl
  · rfl

/-- One more record is captured. -/
theorem Captured.capture {records : List (Nat × Capture)} {r : EvalResult}
    (h : r.Captured cap records) (line : Nat) (c : Capture) :
    (r.capture cap line c).Captured cap (records ++ [(line, c)]) where
  line n := by
    -- only the line of the record changes
    by_cases hn : n = line
    · subst hn
      have found := LineTable.find?_alter_self n
        (fun cs => if isFull cap ((r.line? n).getD []) then cs else cs ++ [c]) r.lines h.sorted
      rw [recordsOn_concat, if_pos rfl,
        if_neg (List.append_ne_nil_of_right_ne_nil _ (List.cons_ne_nil c []))]
      refine found.trans ?_
      rw [show r.lines.find? n = r.line? n from rfl, h.getD_line?, kept_concat]
    · rw [recordsOn_concat, if_neg (Ne.symm hn), ← h.line]
      exact LineTable.find?_alter_of_ne hn _ r.lines
  sorted := LineTable.sorted_alter h.sorted
  dropped := by
    have full : isFull cap ((r.line? line).getD []) =
        isFull cap (kept cap (recordsOn records line)) := by
      rw [h.getD_line?]
    -- a line that has no entry has nothing beyond the cap either
    have unrecorded : line ∉ r.lines.map Prod.fst → beyond cap (recordsOn records line) = 0 := by
      intro absent
      have nothing := h.line line
      rw [show r.line? line = none from LineTable.find?_eq_none.2 absent] at nothing
      split at nothing
      · next none => rw [none, beyond_nil]
      · cases nothing
    show r.droppedCaptures + (if isFull cap ((r.line? line).getD []) then 1 else 0) = _
    rw [h.dropped, full]
    refine (LineTable.sum_alter h.sorted unrecorded ?_ fun n hn => ?_).symm
    · rw [recordsOn_concat, if_pos rfl, beyond_concat]
    · rw [recordsOn_concat, if_neg (Ne.symm hn)]

/-! ## Whole results -/

/-- What a result holds if these are its events. -/
structure Tells (cap : Option Nat) (events : List Event) (r : EvalResult) : Prop where
  captured : r.Captured cap (events.filterMap Event.capture?)
  /-- Every exception is there with all that is known of it, if its line has a place for it or
  not. -/
  exceptions : r.exceptions = events.filterMap Event.exceptionRecord?
  stdout : r.stdout = (events.filterMap Event.output?).flatten
  finished : r.finished = true ↔ ∃ status, .finished status ∈ events
  exitStatus : r.exitStatus = (events.filterMap Event.exitStatus?).getLast?

theorem tells_nil : ({} : EvalResult).Tells cap [] where
  captured := ⟨fun _ => rfl, List.Pairwise.nil, rfl⟩
  exceptions := rfl
  stdout := rfl
  finished := ⟨nofun, fun ⟨_, h⟩ => nomatch h⟩
  exitStatus := rfl

/-- An event that does not end the program leaves it as ended as it was. -/
theorem finished_concat {events : List Event} {e : Event} (h : e.exitStatus? = none) :
    (∃ status, Event.finished status ∈ events ++ [e]) ↔ ∃ status, .finished status ∈ events := by
  constructor
  · rintro ⟨status, hs⟩
    rcases List.mem_append.1 hs with hs | hs
    · exact ⟨status, hs⟩
    · rw [← List.mem_singleton.1 hs] at h
      cases h
  · rintro ⟨status, hs⟩
    exact ⟨status, List.mem_append_left _ hs⟩

/-- One more event is told. -/
theorem Tells.add {events : List Event} {r : EvalResult} (h : r.Tells cap events) (e : Event) :
    (r.add cap e).Tells cap (events ++ [e]) where
  captured := by
    have same := h.captured
    rw [List.filterMap_append]
    -- values and exceptions record a capture, all other events leave the lines
    cases e with
    | value line text => exact same.capture line (.value text)
    | exception line className message backtrace =>
      have captured := same.capture line (.exception className message)
      exact ⟨captured.line, captured.sorted, captured.dropped⟩
    | stdout text => exact List.append_nil _ ▸ ⟨same.line, same.sorted, same.dropped⟩
    | finished status => exact List.append_nil _ ▸ ⟨same.line, same.sorted, same.dropped⟩
    | debug text => exact List.append_nil _ ▸ same
  exceptions := by
    rw [List.filterMap_append, ← h.exceptions]
    cases e with
    | exception line className message backtrace => rfl
    | _ => exact (List.append_nil _).symm
  stdout := by
    have printed := stdout_foldl_add cap r [e]
    rw [h.stdout, ← List.flatten_append, ← List.filterMap_append] at printed
    exact printed
  finished := by
    cases e with
    | finished status => exact ⟨fun _ => ⟨status, List.mem_concat_self⟩, fun _ => rfl⟩
    | _ => exact h.finished.trans (finished_concat rfl).symm
  exitStatus := by
    rw [List.filterMap_append]
    cases e with
    | finished status => exact List.getLast?_concat.symm
    | _ => exact h.exitStatus.trans (congrArg List.getLast? (List.append_nil _).symm)

/-- More events are told. -/
theorem Tells.foldl_add {before : List Event} {r : EvalResult} (h : r.Tells cap before)
    (events : List Event) : (events.foldl (EvalResult.add cap) r).Tells cap (before ++ events) := by
  induction events generalizing before r with
  | nil =>
    rw [List.append_nil]
    exact h
  | cons e events ih =>
    rw [List.append_cons]
    exact ih (h.add e)

/-- The result of some events tells these. -/
theorem tells_ofEvents (cap : Option Nat) (events : List Event) :
    (ofEvents cap events).Tells cap events := tells_nil.foldl_add events

/-- Remarks leave no trace. -/
theorem foldl_add_filter_debug (r : EvalResult) (events : List Event) :
    (events.filter fun e => e.kind != "debug").foldl (add cap) r = events.foldl (add cap) r := by
  induction events generalizing r with
  | nil => rfl
  | cons e events ih =>
    cases e with
    | debug text => exact ih r
    | _ => exact ih _

/-- A result holds at least what another holds: no list or text of it is cut or changed, and it may
go on. -/
structure Extends (r' r : EvalResult) : Prop where
  line : ∀ n cs, r.line? n = some cs → ∃ cs', r'.line? n = some cs' ∧ cs <+: cs'
  exceptions : r.exceptions <+: r'.exceptions
  stdout : r.stdout <+: r'.stdout

/-- What tells more extends what tells less. -/
theorem Tells.extended {events more : List Event} {r r' : EvalResult} (h : r.Tells cap events)
    (h' : r'.Tells cap (events ++ more)) : r'.Extends r where
  line n cs hcs := by
    have records : recordsOn ((events ++ more).filterMap Event.capture?) n =
        recordsOn (events.filterMap Event.capture?) n ++
          recordsOn (more.filterMap Event.capture?) n := by
      unfold recordsOn
      rw [List.filterMap_append, List.filter_append, List.map_append]
    rw [h.captured.line] at hcs
    rw [h'.captured.line, records]
    split at hcs
    · cases hcs
    · next some_there =>
      rw [if_neg (List.append_ne_nil_of_left_ne_nil some_there _), ← Option.some.inj hcs]
      exact ⟨_, rfl, kept_prefix _ _⟩
  exceptions := by
    rw [h.exceptions, h'.exceptions, List.filterMap_append]
    exact List.prefix_append _ _
  stdout := by
    rw [h.stdout, h'.stdout, List.filterMap_append, List.flatten_append]
    exact List.prefix_append _ _

end EvalResult

/-- What a store holds after some events, and that more events only extend it. -/
theorem ResultStore.tells_foldl_add (cap : Option Nat) (events : List Event) :
    let result := (events.foldl add { cap := cap }).result
    result.Tells cap events ∧
      ((events.filter fun e => e.kind != "debug").foldl add { cap := cap }).result = result ∧
      ∀ more, ((events ++ more).foldl add { cap := cap }).result.Extends result := by
  have built : ∀ es : List Event,
      (es.foldl add { cap := cap }).result = EvalResult.ofEvents cap es := fun es => by
    rw [foldl_add]
    rfl
  dsimp only
  rw [built, built]
  refine ⟨EvalResult.tells_ofEvents cap events, EvalResult.foldl_add_filter_debug {} events,
    fun more => ?_⟩
  rw [built]
  exact (EvalResult.tells_ofEvents cap events).extended
    (EvalResult.tells_ofEvents cap (events ++ more))

end Marginalia
