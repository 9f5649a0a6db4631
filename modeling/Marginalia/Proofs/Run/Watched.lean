import Marginalia.Proofs.Engine
import Marginalia.Proofs.Run.Exchange
import Marginalia.Proofs.Source.Accepted

/-!
# Watched runs

A watched run has a counting handler between the exchange and the store. It passes on the events,
but text from the pipe is handed to the root of the handlers alone, so that it does not come to the
store. Watching therefore changes the outcome just if a completed run has printed something past its
events.
-/

namespace Marginalia

open Handler (Signal)
open Source (scan scanFor scan_of_scanFor)

/-! ## Merged texts -/

/-- What is merged is as long as both parts. -/
theorem Merge.length_flatten {α : Type} {a b c : List (List α)} (h : Merge a b c) :
    c.flatten.length = a.flatten.length + b.flatten.length := by
  induction h with
  | nil => rfl
  | left x _ ih => simp only [List.flatten_cons, List.length_append, ih]; omega
  | right x _ ih => simp only [List.flatten_cons, List.length_append, ih]; omega

/-- What is merged with nothing is what it was. -/
theorem Merge.flatten_of_right {α : Type} {a b c : List (List α)} (h : Merge a b c)
    (nothing : b.flatten = []) : c.flatten = a.flatten := by
  induction h with
  | nil => rfl
  | left x _ ih => rw [List.flatten_cons, List.flatten_cons, ih nothing]
  | right x _ ih =>
    rw [List.flatten_cons, List.append_eq_nil_iff] at nothing
    rw [List.flatten_cons, nothing.1, List.nil_append, ih nothing.2]

/-! ## What the store of a watched run receives -/

/-- A handler that counts hands on the events, but not what the pipe brings. -/
theorem foldl_accept_counting (seen : Nat) (s : ResultStore) (signals : List Signal) :
    ∃ n, signals.foldl Handler.accept (.counting seen (.leaf s)) =
      .counting n (.leaf ((signals.filterMap Signal.event?).foldl ResultStore.add s)) := by
  induction signals generalizing seen s with
  | nil => exact ⟨seen, rfl⟩
  | cons g signals ih =>
    cases g with
    | event e =>
      have step : (Handler.counting seen (.leaf s)).accept (.event e) =
          .counting (seen + 1) (.leaf (s.add e)) := by
        simp [Handler.accept, Handler.handle]
        rfl
      rw [List.foldl_cons, step]
      exact ih _ _
    -- text from the pipe is not passed on
    | printed t => exact ih _ _

/-- Results that differ in nothing but the output, and not in this, are the same. -/
theorem EvalResult.eq_of_withoutStdout {r r' : EvalResult}
    (h : r.withoutStdout = r'.withoutStdout) (hstdout : r.stdout = r'.stdout) : r = r' := by
  cases r
  cases r'
  simp_all [withoutStdout]

namespace Run

variable (o : EvalOptions) (r : Run)

theorem result_watched :
    r.result { o with debug := true } =
      EvalResult.ofEvents o.maxLineCaptures (r.signals.filterMap Signal.event?) := by
  obtain ⟨n, hn⟩ := foldl_accept_counting 0 { cap := o.maxLineCaptures } r.signals
  have listens : listener { o with debug := true } =
      .counting 0 (.leaf { cap := o.maxLineCaptures }) := rfl
  rw [result, listens, hn, ResultStore.foldl_add, storedResult]
  simp only [Handler.leaves]
  rfl

theorem result_unwatched :
    r.result { o with debug := false } =
      EvalResult.ofEvents o.maxLineCaptures (r.signals.map Signal.toEvent) :=
  Exchange.storedResult_foldl_accept o.maxLineCaptures r.signals

/-- The results of a watched and an unwatched run are the same just if the pipe has brought
nothing. -/
theorem result_watched_eq_iff :
    r.result { o with debug := true } = r.result { o with debug := false } ↔
      (r.signals.filterMap Signal.printed?).flatten = [] := by
  have merged := merge_signals r.signals
  have events := EvalResult.stdout_foldl_add o.maxLineCaptures {}
    (r.signals.filterMap Signal.event?)
  have all := EvalResult.stdout_foldl_add o.maxLineCaptures {} (r.signals.map Signal.toEvent)
  rw [result_watched, result_unwatched]
  unfold EvalResult.ofEvents
  -- the results differ in their output at most, which the pipe makes longer in the unwatched run
  -- only
  constructor
  · intro same
    rw [same, all] at events
    have count := congrArg List.length (List.append_cancel_left events)
    rw [merged.length_flatten] at count
    exact List.eq_nil_of_length_eq_zero (by omega)
  · intro nothing
    apply EvalResult.eq_of_withoutStdout
    · exact (EvalResult.withoutStdout_foldl_add o.maxLineCaptures rfl r.signals).symm
    · rw [events, all, merged.flatten_of_right nothing]

end Run

namespace Engine

/-- The engine with watching switched on or off. -/
def watched (e : Engine) (on : Bool) : Engine :=
  { e with options := { e.options with debug := on } }

/-- Watching changes nothing in how an engine is made. -/
theorem ofProgram_watched (p : Program) (o : EvalOptions) (a : AnnotateOptions) (on : Bool) :
    ofProgram p { o with debug := on } a = (ofProgram p o a).map (watched · on) := by
  simp only [ofProgram, bind, Except.bind]
  cases removeAnnotations p.body a.markers with
  | error f => rfl
  | ok prepared =>
    simp only
    cases scan prepared with
    | error f => rfl
    | ok scanned => rfl

theorem demand_watched (e : Engine) (on : Bool) : (e.watched on).demand = e.demand := rfl

section Evaluation

variable {e : Engine} (on : Bool) (r : Run)

/-- What is run is watched, or not, as the options say. -/
theorem evaluate_watched_of_run {body : Text} (h : e.demand = .run body) :
    ((e.watched on).evaluate fun _ _ => .ok r).1 = .ok
    (Outcome.ofRun (e.watched on).options r) := by
  rw [evaluate_of_run ((demand_watched e on).trans h) rfl]

/-- An evaluation that asks for no run does not see whether it is watched. -/
theorem evaluate_watched_of_known (h : ∀ body, e.demand ≠ .run body) :
    ((e.watched true).evaluate fun _ _ => .ok r).1 =
      ((e.watched false).evaluate fun _ _ => .ok r).1 := by
  rw [evaluate, evaluate, demand_watched, demand_watched]
  cases hd : e.demand with
  | known outcome => rfl
  | refused failure => rfl
  | run body => exact absurd hd (h body)

end Evaluation

/-- Watching an evaluation changes its outcome just if the program is run, the run is completed, and
its pipe has brought something; the result of the watched run is then that of the events alone. -/
theorem evaluate_watched_eq_iff (refusal : Utf8.Bytes → Text) (e : Engine) (frames : Utf8.Bytes)
    (turns : List Turn) (ending : RunOutcome) :
    let runner : Runner := fun _ _ => .ok ⟨(Exchange.ofTurns refusal frames turns).signals, ending⟩
    let outcome (on : Bool) := ((e.watched on).evaluate runner).1
    (outcome true = outcome false ↔
      ∀ body, e.demand = .run body → ending = .completed → Exchange.arriving turns = []) ∧
    ∀ body, e.demand = .run body → ending = .completed → outcome true =
      .ok (.success (EvalResult.ofEvents e.options.maxLineCaptures
        (Stream.read refusal frames).1)) := by
  intro runner outcome
  have heard : (Exchange.ofTurns refusal frames turns).signals.filterMap Signal.event? =
      (Stream.read refusal frames).1 := Exchange.heard_ofTurns refusal frames turns
  have printed : ((Exchange.ofTurns refusal frames turns).signals.filterMap
    Signal.printed?).flatten =
      Utf8.decodeLossy (Exchange.arriving turns) :=
        Exchange.flatten_printed_ofTurns refusal frames turns
  have run (on : Bool) {body : Text} (h : e.demand = .run body) : outcome on = _ :=
    evaluate_watched_of_run on ⟨(Exchange.ofTurns refusal frames turns).signals, ending⟩ h
  constructor
  -- an engine that asks for no run never makes a handler
  · by_cases asks : ∃ body, e.demand = .run body
    · obtain ⟨body, hbody⟩ := asks
      rw [run true hbody, run false hbody]
      cases ending with
      | completed =>
        have same := Run.result_watched_eq_iff e.options
          ⟨(Exchange.ofTurns refusal frames turns).signals, .completed⟩
        rw [printed, Utf8.decodeLossy_eq_nil] at same
        constructor
        · intro h _ _ _
          exact same.1 (Outcome.success.inj (Except.ok.inj h))
        · intro h
          have nothing := h body hbody rfl
          exact congrArg (fun r => Except.ok (Outcome.success r)) (same.2 nothing)
      | timedOut => exact ⟨fun _ _ _ => nofun, fun _ => rfl⟩
      | crashed exit => exact ⟨fun _ _ _ => nofun, fun _ => rfl⟩
    · have asked : ∀ body, e.demand ≠ .run body := fun body h => asks ⟨body, h⟩
      exact ⟨fun _ body h => absurd h (asked body), fun _ => evaluate_watched_of_known _ asked⟩
  · rintro body hbody rfl
    rw [run true hbody]
    show Except.ok (Outcome.success (Run.result { e.options with debug := true } _)) = _
    rw [Run.result_watched, heard]

/-- A program whose pipe brings `hi` before it reports its end. -/
theorem evaluate_watched_loses :
    let frames := (Event.finished 0).frame
    let x := Exchange.ofTurns (fun _ => []) frames [.output [104, 105], .frame]
    let runner : Runner := fun _ _ => .ok ⟨x.signals, x.outcome (some 0) []⟩
    ∃ e, ofProgram (.ofSource ['a', '\n']) {} {} = .ok e ∧
      ((e.watched false).evaluate runner).1 =
        .ok (.success { stdout := ['h', 'i'], finished := true, exitStatus := some 0 }) ∧
      ((e.watched true).evaluate runner).1 =
        .ok (.success { finished := true, exitStatus := some 0 }) := by
  intro frames x runner
  have signalled : x.signals = [.printed ['h', 'i'], .event (.finished 0)] := by decide +kernel
  have completed : x.outcome (some 0) [] = .completed := by decide +kernel
  have checked : ∃ s ∈ scanFor 10 ['a', '\n'],
      (removeWith ['a', '\n'] s.layout {}).toOption = some ['a', '\n'] := by decide +kernel
  obtain ⟨s, hs, hremoved⟩ := checked
  have accepted := scan_of_scanFor hs
  have prepares : removeAnnotations ['a', '\n'] {} = .ok ['a', '\n'] :=
    (removeAnnotations_of_scan {} accepted).trans (eq_ok_of_toOption hremoved)
  let e := ofScan (.ofSource ['a', '\n']) {} {} ['a', '\n'] s
  have asks : e.demand = .run (instrumentWith s ['a', '\n'] {}) := rfl
  have run (on : Bool) : ((e.watched on).evaluate runner).1 = _ :=
    evaluate_watched_of_run on ⟨x.signals, x.outcome (some 0) []⟩ asks
  refine ⟨e, ofProgram_of_scan {} prepares accepted, ?_, ?_⟩
  · rw [run, signalled, completed]
    rfl
  · rw [run, signalled, completed]
    rfl

end Engine

end Marginalia
