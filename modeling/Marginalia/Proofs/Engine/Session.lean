import Marginalia.Engine.Session
import Marginalia.Proofs.Engine
import Marginalia.Proofs.Source.Accepted

/-!
# The life of a session

A session waits until an evaluation comes to an end, and is settled from then on. While it waits
(`Session.Waiting`), the engine stays as it was made, however often an evaluation fails, and no
question is answered. Once it is settled (`Session.Settled`), every use has one answer,
`Engine.settledAnswer`, and the runner is left alone. `Session.ask_of_waiting`,
`Session.evaluate_of_waiting` and `Session.use_of_settled` are the steps, the lemmas about
`Session.useAll` the runs.
-/

namespace Marginalia

open Source (Scan SyntaxError checkSyntax scan scanFor scan_of_scanFor)

namespace Engine

/-- The answer to a use once an evaluation has come to an end. -/
def settledAnswer (e : Engine) (o : Outcome) : Use → Answer
  | .evaluate => .outcome o
  | .ask .outcome => .outcome o
  | .ask .results => .result o.result?
  | .ask .timedOut => .flag o.isTimedOut
  | .ask .unexpectedException => .exit o.exit?
  | .ask .isUnexpectedException => .flag o.exit?.isSome
  | .ask .annotatedBody => .text (e.bodyFor o)
  | .look aspect => e.look aspect

/-- An outcome to which an evaluation can come: the syntax error, or the outcome of the last run. -/
def EndsIn (e : Engine) (runner : Nat → Runner) (runs : List Text) (o : Outcome) : Prop :=
  (∃ error, e.syntaxError? = some error ∧ o = .syntaxError error) ∨
    ∃ earlier body r, runs = earlier ++ [body] ∧ runner earlier.length body e.options = .ok r ∧
      o = .ofRun e.options r

/-! ## Engines as they are made -/

variable {p : Program} {o : EvalOptions} {a : AnnotateOptions} {e : Engine} {body : Text}

/-- What a new engine is made of. -/
theorem ofProgram_eq_ok (made : ofProgram p o a = .ok e) : e.program = p ∧ e.annotateOptions = a ∧
    e.evaluated = none ∧ removeAnnotations p.body a.markers = .ok e.prepared ∧
    ∃ answer, scan e.prepared = .ok answer ∧
      e.scanned = answer.mapError fun error => { error with fileName := p.fileName } := by
  unfold ofProgram at made
  cases hclean : removeAnnotations p.body a.markers with
  | error f =>
    rw [hclean] at made
    cases made
  | ok prepared =>
    rw [hclean] at made
    change (scan prepared).bind _ = _ at made
    cases hscan : scan prepared with
    | error f =>
      rw [hscan] at made
      cases made
    | ok answer =>
      rw [hscan] at made
      cases made
      exact ⟨rfl, rfl, rfl, rfl, answer, hscan, rfl⟩

/-- The engine and the check of the syntax agree. -/
theorem checkSyntax_of_ofProgram (made : ofProgram p o a = .ok e) :
    checkSyntax e.prepared p.fileName = .ok e.syntaxError? := by
  obtain ⟨-, -, -, -, answer, hscan, hscanned⟩ := ofProgram_eq_ok made
  rw [checkSyntax, hscan, syntaxError?, hscanned]
  cases answer with
  | error error => rfl
  | ok s => rfl

/-- The engine and the instrumentation agree. -/
theorem instrument_of_ofProgram (made : ofProgram p o a = .ok e) (m : Markers) :
    ∃ answer, instrument e.prepared m = .ok answer ∧ answer.isOk = !e.isSyntaxError := by
  obtain ⟨-, -, -, -, answer, hscan, hscanned⟩ := ofProgram_eq_ok made
  refine ⟨_, by rw [instrument, hscan]; rfl, ?_⟩
  rw [isSyntaxError, syntaxError?, hscanned]
  cases answer with
  | error error => rfl
  | ok s => rfl

/-- What a runner would be given. -/
theorem demand_eq_run (asks : e.demand = .run body) : e.isSyntaxError = false ∧
    e.options.validate = .ok () ∧
      ∃ s, e.scanned = .ok s ∧ body = instrumentWith s e.prepared e.annotateOptions.markers := by
  unfold demand at asks
  split at asks
  · cases asks
  · cases asks
  · cases asks
  · next s _ hscanned hvalid =>
    refine ⟨?_, hvalid, s, hscanned, (Demand.run.inj asks).symm⟩
    rw [isSyntaxError, syntaxError?, hscanned]
    rfl

/-- What an engine asks to be run is the instrumented program. -/
theorem instrument_of_demand (made : ofProgram p o a = .ok e) (asks : e.demand = .run body) :
    instrument e.prepared e.annotateOptions.markers = .ok (.ok body) := by
  obtain ⟨-, -, s, hscanned, rfl⟩ := demand_eq_run asks
  obtain ⟨-, -, -, -, answer, hscan, hanswer⟩ := ofProgram_eq_ok made
  rw [hscanned] at hanswer
  cases answer with
  | error error => cases hanswer
  | ok t =>
    cases hanswer
    rw [instrument, hscan]
    rfl

/-- A new engine has to be evaluated before it is asked. -/
theorem ask_of_new {α : Type} {question : Question} {answer : Outcome → α}
    (new : e.evaluated = none) :
    e.ask question answer = .error (.mustEvaluateFirst question) := by
  rw [ask, new]

/-- A new engine answers no question. -/
theorem answer_of_new (new : e.evaluated = none) (q : Question) :
    e.answer q = .error (.mustEvaluateFirst q) := by
  cases q <;> exact congrArg (Except.map _) (ask_of_new new)

/-- A known outcome of an engine without one is its syntax error. -/
theorem demand_eq_known (new : e.evaluated = none) {out : Outcome} (asks : e.demand = .known out) :
    ∃ error, e.syntaxError? = some error ∧ out = .syntaxError error := by
  unfold demand at asks
  split at asks
  · next hevaluated =>
    rw [new] at hevaluated
    cases hevaluated
  · next error _ hscanned =>
    refine ⟨error, ?_, (Demand.known.inj asks).symm⟩
    rw [syntaxError?, hscanned]
  · cases asks
  · cases asks

/-- Of the four ways to end, an evaluation takes one. -/
theorem count_of_endsIn {runner : Nat → Runner} {runs : List Text} {out : Outcome}
    (asked : ∀ body ∈ runs, e.demand = .run body) (ends : e.EndsIn runner runs out) :
    [out.result?.isSome, out.isTimedOut, out.exit?.isSome, e.isSyntaxError].count true = 1 := by
  obtain ⟨error, refused, rfl⟩ | ⟨earlier, body, r, rfl, -, rfl⟩ := ends
  · rw [isSyntaxError, refused]
    rfl
  · rw [(demand_eq_run (asked body (by simp))).1, Outcome.ofRun]
    cases r.outcome with
    | completed => rfl
    | timedOut => rfl
    | crashed exit => rfl

end Engine

namespace Session

variable {e : Engine} {runner : Nat → Runner} {s : Session} {out : Outcome}

/-! ## One evaluation -/

/-- What is known is not evaluated again. -/
theorem use_evaluate_of_known (asks : s.engine.demand = .known out) : s.use runner .evaluate =
    (.ok (.outcome out), { s with engine := { s.engine with evaluated := some out } }) := by
  unfold use evaluate
  rw [asks, Engine.evaluate_of_known asks]
  rfl

/-- What is refused is not run. -/
theorem use_evaluate_of_refused {failure : Failure} (asks : s.engine.demand = .refused failure) :
    s.use runner .evaluate = (.error failure, s) := by
  unfold use evaluate Engine.evaluate
  rw [asks]
  rfl

/-- The runner fails, and nothing but the run is left. -/
theorem use_evaluate_of_failed {body : Text} {failure : Failure}
    (asks : s.engine.demand = .run body)
    (runs : runner s.runs.length body s.engine.options = .error failure) :
    s.use runner .evaluate = (.error failure, { s with runs := s.runs ++ [body] }) := by
  unfold use evaluate Engine.evaluate
  rw [asks]
  dsimp only
  rw [runs]
  rfl

/-- What is asked to be run is run, and the outcome is kept. -/
theorem use_evaluate_of_run {body : Text} {r : Run} (asks : s.engine.demand = .run body)
    (runs : runner s.runs.length body s.engine.options = .ok r) : s.use runner .evaluate =
      (.ok (.outcome (.ofRun s.engine.options r)),
        { s with
          engine := { s.engine with evaluated := some (.ofRun s.engine.options r) }
          runs := s.runs ++ [body] }) := by
  unfold use evaluate
  rw [asks, Engine.evaluate_of_run asks runs]
  rfl

/-! ## Two kinds of sessions -/

/-- No evaluation of the engine has come to an end. -/
structure Waiting (e : Engine) (s : Session) : Prop where
  engine : s.engine = e
  annotated : s.annotated = none
  asked : ∀ body ∈ s.runs, e.demand = .run body

/-- An evaluation of the engine has come to an end. -/
structure Settled (e : Engine) (runner : Nat → Runner) (out : Outcome) (s : Session) : Prop where
  engine : s.engine = { e with evaluated := some out }
  annotated : ∀ body ∈ s.annotated, body = e.bodyFor out
  asked : ∀ body ∈ s.runs, e.demand = .run body
  ends : e.EndsIn runner s.runs out

/-! ## A session that waits -/

/-- No question is answered. -/
theorem ask_of_waiting (new : e.evaluated = none) (waits : s.Waiting e) (q : Question) :
    s.use runner (.ask q) = (.error (.mustEvaluateFirst q), s) := by
  obtain ⟨engine, annotated, runs⟩ := s
  obtain ⟨rfl, rfl, -⟩ := waits
  have unanswered := Engine.answer_of_new new q
  cases q with
  | annotatedBody =>
    have unannotated : engine.annotatedBody = .error (.mustEvaluateFirst .annotatedBody) :=
      Engine.ask_of_new new
    simp [use, annotatedBody, unannotated, Except.map]
  | _ => exact congrArg (·, _) unanswered

/-- An evaluation fails and leaves the engine as it was, or it comes to an end. -/
theorem evaluate_of_waiting (new : e.evaluated = none) (waits : s.Waiting e)
    (runner : Nat → Runner) :
    ((∃ failure, (s.use runner .evaluate).1 = .error failure) ∧
      (s.use runner .evaluate).2.Waiting e) ∨
      ∃ out, (s.use runner .evaluate).1 = .ok (.outcome out) ∧
        (s.use runner .evaluate).2.Settled e runner out := by
  obtain ⟨rfl, annotated, asked⟩ := waits
  have kept : ∀ {body out}, body ∈ s.annotated → body = s.engine.bodyFor out := by
    rw [annotated]
    nofun
  cases hdemand : s.engine.demand with
  | known out =>
    rw [use_evaluate_of_known hdemand]
    exact .inr ⟨out, rfl, rfl, fun _ => kept, asked, .inl (Engine.demand_eq_known new hdemand)⟩
  | refused failure =>
    rw [use_evaluate_of_refused hdemand]
    exact .inl ⟨⟨failure, rfl⟩, rfl, annotated, asked⟩
  | run body =>
    -- the runner is asked with the same body each time
    have askedAgain : ∀ b ∈ s.runs ++ [body], s.engine.demand = .run b := by
      intro b hb
      rcases List.mem_append.1 hb with hb | hb
      · exact asked b hb
      · rw [List.mem_singleton.1 hb, hdemand]
    cases hrun : runner s.runs.length body s.engine.options with
    | error failure =>
      rw [use_evaluate_of_failed hdemand hrun]
      exact .inl ⟨⟨failure, rfl⟩, rfl, annotated, askedAgain⟩
    | ok r =>
      rw [use_evaluate_of_run hdemand hrun]
      exact .inr ⟨_, rfl, rfl, fun _ => kept, askedAgain, .inr ⟨s.runs, body, r, rfl, hrun, rfl⟩⟩

/-! ## A session that is settled -/

/-- Every use has its answer, and the session stays settled without another run. -/
theorem use_of_settled (settled : s.Settled e runner out) (u : Use) :
    (s.use runner u).1 = .ok (e.settledAnswer out u) ∧
      (s.use runner u).2.Settled e runner out ∧ (s.use runner u).2.runs = s.runs := by
  obtain ⟨engine, annotated, runs⟩ := s
  obtain ⟨rfl, kept, asked, ends⟩ := settled
  have hdemand : ({ e with evaluated := some out } : Engine).demand = .known out :=
    Engine.demand_of_evaluated rfl
  match u with
  | .evaluate =>
    rw [use_evaluate_of_known hdemand]
    exact ⟨rfl, ⟨rfl, kept, asked, ends⟩, rfl⟩
  | .look aspect =>
    refine ⟨?_, ⟨rfl, kept, asked, ends⟩, rfl⟩
    cases aspect <;> rfl
  | .ask .outcome => exact ⟨rfl, ⟨rfl, kept, asked, ends⟩, rfl⟩
  | .ask .results => exact ⟨rfl, ⟨rfl, kept, asked, ends⟩, rfl⟩
  | .ask .timedOut => exact ⟨rfl, ⟨rfl, kept, asked, ends⟩, rfl⟩
  | .ask .unexpectedException => exact ⟨rfl, ⟨rfl, kept, asked, ends⟩, rfl⟩
  | .ask .isUnexpectedException => exact ⟨rfl, ⟨rfl, kept, asked, ends⟩, rfl⟩
  | .ask .annotatedBody =>
    cases annotated with
    | none => exact ⟨rfl, ⟨rfl, fun body hbody => (Option.some.inj hbody).symm, asked, ends⟩, rfl⟩
    | some body =>
      rw [kept body rfl]
      exact ⟨rfl, ⟨rfl, fun body hbody => (Option.some.inj hbody).symm, asked, ends⟩, rfl⟩

/-! ## Many uses -/

theorem useAll_cons (u : Use) (us : List Use) : s.useAll runner (u :: us) =
    ((s.use runner u).1 :: ((s.use runner u).2.useAll runner us).1,
      ((s.use runner u).2.useAll runner us).2) :=
  rfl

/-- From where it is settled on, a session gives to every use its answer. -/
theorem useAll_of_settled (settled : s.Settled e runner out) (us : List Use) :
    (s.useAll runner us).1 = us.map (fun u => .ok (e.settledAnswer out u)) ∧
      (s.useAll runner us).2.Settled e runner out ∧ (s.useAll runner us).2.runs = s.runs := by
  induction us generalizing s with
  | nil => exact ⟨rfl, settled, rfl⟩
  | cons u us ih =>
    obtain ⟨answered, settledNext, runsNext⟩ := use_of_settled settled u
    obtain ⟨answers, settledLast, runsLast⟩ := ih settledNext
    rw [useAll_cons, List.map_cons]
    exact ⟨by rw [answered, answers], settledLast, runsLast.trans runsNext⟩

/-- Some evaluation among the uses comes to an end, each that does comes to `out`, and the session
is settled after them. -/
def Settles (e : Engine) (runner : Nat → Runner) (s : Session) (us : List Use)
    (out : Outcome) : Prop :=
  (s.useAll runner us).2.Settled e runner out ∧
    (∃ answer, (.evaluate, .ok answer) ∈ us.zip (s.useAll runner us).1) ∧
    ∀ answer, (.evaluate, .ok answer) ∈ us.zip (s.useAll runner us).1 → answer = .outcome out

/-- A session that waits settles, or it waits on, and no evaluation has come to an end. -/
theorem useAll_of_waiting (new : e.evaluated = none) (waits : s.Waiting e) (runner : Nat → Runner)
    (us : List Use) :
    ((s.useAll runner us).2.Waiting e ∧
        ∀ answer, (.evaluate, .ok answer) ∉ us.zip (s.useAll runner us).1) ∨
      ∃ out, s.Settles e runner us out := by
  induction us generalizing s with
  | nil => exact .inl ⟨waits, fun _ => List.not_mem_nil⟩
  | cons u us ih =>
    -- a use that is no evaluation coming to an end leaves the question to the uses after it
    have pass (waitsNext : (s.use runner u).2.Waiting e)
        (other : ∀ answer, (u, (s.use runner u).1) ≠ (.evaluate, .ok answer)) :
        ((s.useAll runner (u :: us)).2.Waiting e ∧
            ∀ answer, (.evaluate, .ok answer) ∉ (u :: us).zip (s.useAll runner (u :: us)).1) ∨
          ∃ out, s.Settles e runner (u :: us) out := by
      have skips (answer : Answer) : (Use.evaluate, Except.ok answer) ∈
          (u :: us).zip (s.useAll runner (u :: us)).1 ↔
            (Use.evaluate, Except.ok answer) ∈ us.zip ((s.use runner u).2.useAll runner us).1 := by
        rw [useAll_cons, List.zip_cons_cons, List.mem_cons, or_iff_right (other answer).symm]
      obtain ⟨waitsOn, none⟩ | ⟨out, settled, ⟨answer, some⟩, all⟩ := ih waitsNext
      · exact .inl ⟨waitsOn, fun answer h => none answer ((skips answer).1 h)⟩
      · exact .inr ⟨out, settled, ⟨answer, (skips answer).2 some⟩,
          fun answer h => all answer ((skips answer).1 h)⟩
    cases u with
    | look aspect => exact pass waits nofun
    | ask q =>
      refine pass ?_ nofun
      rw [ask_of_waiting new waits q]
      exact waits
    | evaluate =>
      obtain ⟨⟨failure, failed⟩, waitsNext⟩ | ⟨out, ended, settled⟩ :=
        evaluate_of_waiting new waits runner
      · refine pass waitsNext fun answer h => ?_
        rw [failed] at h
        cases h
      · -- all later evaluations come to the same end
        obtain ⟨answers, settledLast, -⟩ := useAll_of_settled settled us
        refine .inr ⟨out, settledLast, ⟨.outcome out, ?_⟩, fun answer h => ?_⟩
        · rw [useAll_cons, List.zip_cons_cons, ended]
          exact List.mem_cons_self
        · rw [useAll_cons, List.zip_cons_cons, answers, List.mem_cons] at h
          obtain h | h := h
          · rw [ended] at h
            cases h
            rfl
          · rw [List.zip_eq_zipWith, List.zipWith_map_right, List.zipWith_self, List.mem_map] at h
            obtain ⟨u, -, heq⟩ := h
            cases heq
            rfl

/-! ## The life of a session -/

theorem runs_eq_nil (asked : ∀ body ∈ s.runs, e.demand = .run body)
    (barred : e.isSyntaxError ∨ e.options.validate ≠ .ok ()) : s.runs = [] := by
  refine List.eq_nil_iff_forall_not_mem.2 fun body hbody => ?_
  obtain ⟨accepted, valid, -⟩ := Engine.demand_eq_run (asked body hbody)
  obtain refused | invalid := barred
  · rw [accepted] at refused
    cases refused
  · exact invalid valid

/-- A session after any uses, whatever the runner brings in each of its calls. -/
theorem useAll_ofProgram {p : Program} {o : EvalOptions} {a : AnnotateOptions}
    (made : Engine.ofProgram p o a = .ok e) (runner : Nat → Runner) (us : List Use) :
    let s : Session := { engine := e }
    let now := (s.useAll runner us).2
    -- the engine, the check of the syntax and the instrumentation agree on which programs are
    -- refused
    checkSyntax e.prepared p.fileName = .ok e.syntaxError? ∧
    (∃ answer, instrument e.prepared e.annotateOptions.markers = .ok answer ∧
      answer.isOk = !e.isSyntaxError) ∧
    -- the runner is given the instrumented program, if that is to be run at all
    (∀ body ∈ now.runs, instrument e.prepared e.annotateOptions.markers = .ok (.ok body)) ∧
    (e.isSyntaxError ∨ e.options.validate ≠ .ok () → now.runs = []) ∧
    -- as long as no evaluation has come to an end, nothing but the runs is left of the uses
    ((∀ answer, (.evaluate, .ok answer) ∉ us.zip (s.useAll runner us).1) →
      now = { s with runs := now.runs } ∧
        ∀ q, now.use runner (.ask q) = (.error (.mustEvaluateFirst q), now)) ∧
    -- once one has, that is the end of each evaluation, and of the runs
    ((∃ answer, (.evaluate, .ok answer) ∈ us.zip (s.useAll runner us).1) → ∃ out,
      (∀ answer, (.evaluate, .ok answer) ∈ us.zip (s.useAll runner us).1 → answer = .outcome out) ∧
        e.EndsIn runner now.runs out ∧
        (∀ more, (now.useAll runner more).1 = more.map (fun u => .ok (e.settledAnswer out u)) ∧
          (now.useAll runner more).2.runs = now.runs) ∧
        [out.result?.isSome, out.isTimedOut, out.exit?.isSome, e.isSyntaxError].count true = 1 ∧
        (out.result? = none → e.bodyFor out = e.cleanedBody)) := by
  intro s now
  obtain ⟨-, -, new, -⟩ := Engine.ofProgram_eq_ok made
  have waits : s.Waiting e := ⟨rfl, rfl, fun body hbody => absurd hbody List.not_mem_nil⟩
  refine ⟨Engine.checkSyntax_of_ofProgram made, Engine.instrument_of_ofProgram made _, ?_⟩
  obtain ⟨⟨engine, annotated, asked⟩, none⟩ | ⟨out, settled, some, all⟩ :=
    useAll_of_waiting new waits runner us
  · refine ⟨fun body hbody => Engine.instrument_of_demand made (asked body hbody),
      runs_eq_nil asked, fun _ => ⟨?_, ask_of_waiting new ⟨engine, annotated, asked⟩⟩,
      fun ⟨answer, h⟩ => absurd h (none answer)⟩
    show now = ⟨e, Option.none, now.runs⟩
    rw [← engine, ← annotated]
  · refine ⟨fun body hbody => Engine.instrument_of_demand made (settled.asked body hbody),
      runs_eq_nil settled.asked, fun none => ?_, fun _ => ⟨out, all, settled.ends, fun more => ?_,
      Engine.count_of_endsIn settled.asked settled.ends, fun noResult => ?_⟩⟩
    · obtain ⟨answer, h⟩ := some
      exact absurd h (none answer)
    · obtain ⟨answers, -, runs⟩ := useAll_of_settled settled more
      exact ⟨answers, runs⟩
    · rw [Engine.bodyFor, noResult]

/-- A runner that first fails, is then stopped by the clock, and would complete the run
afterwards. -/
theorem useAll_ofProgram_flaky :
    let runner : Nat → Runner
      | 0 => .unavailable
      | 1 => fun _ _ => .ok ⟨[.event (.stdout "x".toList)], .timedOut⟩
      | _ => fun _ _ => .ok ⟨[], .completed⟩
    ∃ e, Engine.ofProgram (.ofSource "a".toList) {} {} = .ok e ∧
      let s : Session := { engine := e }
      let now := (s.useAll runner [.evaluate, .ask .annotatedBody, .evaluate]).2
      (now.useAll runner [.ask .annotatedBody, .evaluate, .ask .timedOut]).1 =
          [.ok (.text "a".toList), .ok (.outcome .timedOut), .ok (.flag true)] ∧
        (now.useAll runner [.ask .annotatedBody, .evaluate, .ask .timedOut]).2.runs = now.runs := by
  intro runner
  have checked : ∃ s ∈ scanFor 20 "a\n".toList,
      (removeWith "a\n".toList s.layout {}).toOption = some "a\n".toList := by
    decide +kernel
  obtain ⟨scanned, hscanned, hcleaned⟩ := checked
  have accepted := scan_of_scanFor hscanned
  have cleans : removeAnnotations (Program.ofSource "a".toList).body {} = .ok "a\n".toList :=
    (removeAnnotations_of_scan {} accepted).trans (eq_ok_of_toOption hcleaned)
  have made := Engine.ofProgram_of_scan (p := .ofSource "a".toList) (a := {}) {} cleans accepted
  refine ⟨_, made, ?_⟩
  obtain ⟨-, -, -, -, -, settles⟩ :=
    useAll_ofProgram made runner [.evaluate, .ask .annotatedBody, .evaluate]
  have ended : (Use.evaluate, Except.ok (Answer.outcome .timedOut)) ∈
      [Use.evaluate, .ask .annotatedBody, .evaluate].zip
        [.error (Failure.spawn "ruby".toList .notFound),
          .error (.mustEvaluateFirst .annotatedBody), .ok (.outcome .timedOut)] := by
    simp
  obtain ⟨out, all, -, later, -⟩ := settles ⟨_, ended⟩
  obtain ⟨answers, runs⟩ := later [.ask .annotatedBody, .evaluate, .ask .timedOut]
  obtain rfl := Answer.outcome.inj (all _ ended)
  exact ⟨answers, runs⟩

end Session

end Marginalia
