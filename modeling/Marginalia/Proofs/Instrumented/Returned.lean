import Marginalia.Proofs.Instrumented.Wrapping
import Marginalia.Proofs.Source.ReturnedScan

/-!
# Line ends do not matter

A program and the same program with a carriage return before each line feed are accepted or refused
alike, have the same statements, lines and comments (`scan_withReturns`), and are instrumented alike
(`instrument_of_withReturns`): instrumenting the program with returns is adding the returns to the
instrumented program. The insertions come in the same order, because adding returns keeps the order
of positions, and no return is added inside them.
-/

namespace Marginalia

open Source Text

variable {source : Text}

/-- A slice of a source is found with the returns in it. -/
theorem Source.slice_withReturns (source : Text) (p q : Nat) :
    slice (withReturns source) (place source p) (place source q) =
      withReturns (slice source p q) := by
  unfold slice
  rw [drop_place, place_sub, take_place]

namespace Edge

/-- The same end of the same statement in the program with returns. -/
def returned (source : Text) (e : Edge) : Edge := ⟨e.statement.returned source, e.opens⟩

variable (m : Markers)

/-- An edge is moved with its place. -/
theorem position_returned (e : Edge) : (e.returned source).position = place source e.position :=
  (apply_ite (place source) ..).symm

/-- The same is inserted there. -/
theorem insertion_returned (e : Edge) : (e.returned source).insertion m =
    { e.insertion m with position := place source e.position } := by
  rw [← position_returned]
  rfl

/-- Adding returns keeps the order of the ends. -/
theorem le_returned (e f : Edge) : le m (e.returned source) (f.returned source) = le m e f := by
  rw [Bool.eq_iff_iff, le_iff, le_iff, position_returned, position_returned, place_lt_place,
    place_inj]
  rfl

/-- Moving edges leaves their order. -/
theorem sorted_returned (ss : List Statement) :
    sorted m (ss.map (Statement.returned source)) = (sorted m ss).map (Edge.returned source) := by
  have ends : (ss.map (Statement.returned source)).flatMap both =
      (ss.flatMap both).map (returned source) := by
    rw [List.flatMap_map, List.map_flatMap]
    rfl
  unfold sorted
  rw [ends, List.map_mergeSort (r := le m) (s := le m) fun e _ f _ => (le_returned m e f).symm]

end Edge

/-- What is spliced into a source may be spliced into it with returns. -/
theorem splice_withReturns {m : Markers} (record : '\n' ∉ m.record) {here : Nat} {es : List Edge}
    (order : es.Pairwise fun e f => e.position ≤ f.position) (past : ∀ e ∈ es, here ≤ e.position) :
    splice (place source here) (withReturns (source.drop here))
        ((es.map (Edge.returned source)).map (Edge.insertion m)) =
      withReturns (splice here (source.drop here) (es.map (Edge.insertion m))) := by
  induction es generalizing here with
  | nil => rfl
  | cons e es ih =>
    obtain ⟨first, later⟩ := List.pairwise_cons.1 order
    have behind : (source.drop here).drop (e.position - here) = source.drop e.position := by
      rw [List.drop_drop, Nat.add_sub_cancel' (past e List.mem_cons_self)]
    have text : withReturns (e.text m) = e.text m :=
      withReturns_of_notMem (lineFeed_notMem_text record e)
    rw [List.map_cons, List.map_cons, List.map_cons, splice, splice, Edge.insertion_returned]
    dsimp only [Edge.insertion]
    rw [place_sub, take_place, drop_place, behind, ih later first, withReturns_append,
      withReturns_append, text]

/-- Instrumenting a source with returns instruments it, and adds the returns. -/
theorem instrumentWith_withReturns {m : Markers} (record : '\n' ∉ m.record) {a b : Scan}
    (h : a.Returned source b) :
    instrumentWith b (withReturns source) m = withReturns (instrumentWith a source m) := by
  have order : (Edge.sorted m a.statements).Pairwise fun e f => e.position ≤ f.position :=
    Edge.pairwise_sorted.imp fun hle => by
      rw [Edge.le_iff] at hle
      omega
  have spliced : splice (place source 0) (withReturns source)
      (((Edge.sorted m a.statements).map (Edge.returned source)).map (Edge.insertion m)) =
      withReturns (splice 0 source ((Edge.sorted m a.statements).map (Edge.insertion m))) :=
    splice_withReturns record order fun e _ => Nat.zero_le _
  unfold instrumentWith
  rw [Edge.insertions_eq, Edge.insertions_eq, h.statements]
  show splice 0 (withReturns source) ((Edge.sorted m _).map _) = _
  rw [Edge.sorted_returned]
  exact spliced

/-- Line ends do not matter. Let `source` have no carriage return, and none of the two spellings
that take the next character whatever it is. With a carriage return before each line feed it is
accepted just if it was; its statements are the same, on the same lines and at the same depths; the
same lines end in code and have comments; and instrumenting it adds nothing but these returns. -/
theorem instrument_of_withReturns (noReturn : '\r' ∉ source) (noEscape : ¬ ['?', '\\'] <:+: source)
    (noDash : ¬ ['$', '-'] <:+: source) :
    ((∃ b, scan (withReturns source) = .ok (.ok b)) ↔ ∃ a, scan source = .ok (.ok a)) ∧
    (∀ a b, scan source = .ok (.ok a) → scan (withReturns source) = .ok (.ok b) →
      List.Forall₂ (fun e f : Statement => f.line = e.line ∧ f.depth = e.depth ∧
        slice (withReturns source) f.start f.stop = withReturns (slice source e.start e.stop))
        a.statements b.statements ∧
      (∀ n, b.layout.endsInCode n = a.layout.endsInCode n) ∧
      b.layout.comments.map Comment.line = a.layout.comments.map Comment.line) ∧
    ∀ m : Markers, '\n' ∉ m.record →
      instrument (withReturns source) m =
        ((instrument source m).mapError (Fault.returned source)).map fun answer =>
        answer.map withReturns := by
  have scanned := scan_withReturns ⟨noReturn, noEscape, noDash⟩
  unfold instrument
  generalize ha : scan source = answer, hb : scan (withReturns source) = other at scanned
  -- both scans are accepted, refused or broken off
  cases scanned with
  | @accepted a b h =>
    refine ⟨⟨fun _ => ⟨a, rfl⟩, fun _ => ⟨b, rfl⟩⟩, fun a' b' ha' hb' => ?_, fun m record => ?_⟩
    · cases ha'
      cases hb'
      refine ⟨?_, h.endsInCode, h.comments⟩
      rw [h.statements, List.forall₂_map_right_iff, List.forall₂_same]
      exact fun e _ => ⟨rfl, rfl, slice_withReturns source e.start e.stop⟩
    · exact congrArg (fun t => Except.ok (Except.ok t)) (instrumentWith_withReturns record h)
  | refused e =>
    refine ⟨⟨?_, ?_⟩, ?_, fun _ _ => rfl⟩
    · rintro ⟨_, ⟨⟩⟩
    · rintro ⟨_, ⟨⟩⟩
    · rintro _ _ ⟨⟩
  | broken f =>
    refine ⟨⟨?_, ?_⟩, ?_, fun _ _ => rfl⟩
    · rintro ⟨_, ⟨⟩⟩
    · rintro ⟨_, ⟨⟩⟩
    · rintro _ _ ⟨⟩

/-- A here-document with a comment behind its opener, a call that goes on behind a dot, and a
block. -/
theorem instrument_of_withReturns_heredoc :
    let source := "puts <<A # c\n b\nA\nx = [1,\n  2]\n  .map \x7b |y|\n  y\n\x7d\n".toList
    ('\r' ∉ source ∧ ¬ ['?', '\\'] <:+: source ∧ ¬ ['$', '-'] <:+: source ∧ '\n' ∉
      ({} : Markers).record) ∧
    ∃ a b, scan source = .ok (.ok a) ∧ scan (withReturns source) = .ok (.ok b) ∧
      a.statements.length = 3 ∧
      List.Forall₂ (fun e f : Statement =>
        slice (withReturns source) f.start f.stop = withReturns (slice source e.start e.stop))
        a.statements b.statements ∧
      (∀ n, b.layout.endsInCode n = a.layout.endsInCode n) ∧
      instrument (withReturns source) {} =
        .ok (.ok (withReturns (instrumentWith a source {}))) := by
  intro source
  have spelled : '\r' ∉ source ∧ ¬ ['?', '\\'] <:+: source ∧ ¬ ['$', '-'] <:+: source ∧
      '\n' ∉ ({} : Markers).record := by decide +kernel
  have scanned : (scanFor 60 source).any (·.statements.length == 3) := by decide +kernel
  obtain ⟨a, ha, statements⟩ := (Option.any_eq_true ..).1 scanned
  have accepted := scan_of_scanFor ha
  obtain ⟨accepts, alike, instrumented⟩ :=
    instrument_of_withReturns spelled.1 spelled.2.1 spelled.2.2.1
  obtain ⟨b, hb⟩ := accepts.2 ⟨a, accepted⟩
  obtain ⟨texts, ends, -⟩ := alike a b accepted hb
  refine ⟨spelled, a, b, accepted, hb, eq_of_beq statements, texts.imp fun _ _ h => h.2.2, ends, ?_⟩
  rw [instrumented {} spelled.2.2.2, instrument, accepted]
  rfl

end Marginalia
