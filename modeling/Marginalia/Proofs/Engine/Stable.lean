import Marginalia.Proofs.Annotation.Regained
import Marginalia.Proofs.Engine.LineEnds

/-!
# Evaluating an annotated program

A program is evaluated, and the annotated program is evaluated in turn, by a run that brings the
same. The second engine cleans what the first has written, and annotates what is left. Whether it
gives the same text again depends on the ends of both texts alone (`annotatedBodyOf_stable_iff`).
-/

namespace Marginalia

open Source

namespace Engine

/-- The annotated program of an evaluation from start to end. -/
def annotatedBodyOf (p : Program) (o : EvalOptions) (a : AnnotateOptions) (runner : Runner) :
    Except Fault (Except Failure Text) :=
  (ofProgram p o a).map fun e => (e.evaluate runner).2.annotatedBody

section Answers

variable {p : Program} {o : EvalOptions} {a : AnnotateOptions} {prepared : Text} {runner : Runner}

/-- After a completed run the annotated body is the prepared one with the result written into it. -/
theorem annotatedBodyOf_of_scan {s : Scan} {run : Run}
    (cleans : removeAnnotations p.body a.markers = .ok prepared)
    (accepted : scan prepared = .ok (.ok s)) (valid : (optionsFor p o).validate = .ok ())
    (runs : ∀ body, runner body (optionsFor p o) = .ok run) (completed : run.outcome = .completed) :
    annotatedBodyOf p o a runner =
      .ok (.ok (p.restoreNewline
        (annotateWith s.layout prepared (run.result (optionsFor p o)) a))) := by
  have asks := demand_of_accepted (e := ofScan p o a prepared s) rfl rfl valid
  have outcome : Outcome.ofRun (optionsFor p o) run = .success (run.result (optionsFor p o)) := by
    unfold Outcome.ofRun
    rw [completed]
  unfold annotatedBodyOf
  rw [ofProgram_of_scan o cleans accepted]
  show Except.ok ((ofScan p o a prepared s).evaluate runner).2.annotatedBody = _
  rw [evaluate_of_run asks (runs _)]
  show Except.ok (Except.ok (bodyFor _ (Outcome.ofRun (optionsFor p o) run))) = _
  rw [outcome]
  rfl

/-- The annotated body of a program that is refused is the cleaned program. -/
theorem annotatedBodyOf_of_refused {error : SyntaxError}
    (cleans : removeAnnotations p.body a.markers = .ok prepared)
    (refused : scan prepared = .ok (.error error)) :
    annotatedBodyOf p o a runner = .ok (.ok (p.restoreNewline prepared)) := by
  unfold annotatedBodyOf ofProgram
  rw [cleans]
  show ((scan prepared).bind _).map _ = _
  rw [refused]
  rfl

/-- A fault of the scanner leaves no annotated body. -/
theorem annotatedBodyOf_of_fault {f : Fault}
    (cleans : removeAnnotations p.body a.markers = .ok prepared)
    (fault : scan prepared = .error f) : annotatedBodyOf p o a runner = .error f := by
  unfold annotatedBodyOf ofProgram
  rw [cleans]
  show ((scan prepared).bind _).map _ = _
  rw [fault]
  rfl

end Answers

theorem optionsFor_ofSource (source : Text) (o : EvalOptions) :
    optionsFor (.ofSource source) o = o := by
  unfold Program.ofSource
  split <;> rfl

end Engine

/-! ## Texts that end in a line feed -/

/-- Closed texts that are restored to the same are the same. -/
theorem Program.restoreNewline_inj {p : Program} {t u : Text} (ht : t.getLast? = some '\n')
    (hu : u.getLast? = some '\n') (h : p.restoreNewline t = p.restoreNewline u) : t = u := by
  have ends {v : Text} (hv : v.getLast? = some '\n') : endsInLineFeed v = true := beq_iff_eq.2 hv
  unfold restoreNewline at h
  rw [ends ht, ends hu, Bool.and_true] at h
  split at h
  · obtain ⟨t', rfl⟩ := List.getLast?_eq_some_iff.1 ht
    obtain ⟨u', rfl⟩ := List.getLast?_eq_some_iff.1 hu
    rw [List.dropLast_concat, List.dropLast_concat] at h
    rw [h]
  · exact h

/-- A body ends in a line feed. -/
theorem Program.getLast?_body_ofSource (source : Text) :
    (Program.ofSource source).body.getLast? = some '\n' :=
  beq_iff_eq.1 (endsInLineFeed_body_ofSource source)

/-! ## Reading the annotated program back -/

namespace Program

/-- What is written back is the body of the program that is made of it, unless a line feed is
lost. -/
theorem body_restoreNewline {source t : Text} (ends : t.getLast? = some '\n')
    (once : endsInLineFeed source ∨ t.EndsOnce) :
    (ofSource ((ofSource source).restoreNewline t)).body = t := by
  by_cases h : endsInLineFeed source
  · rw [restoreNewline_of_endsInLineFeed h, ofSource, if_pos (endsInLineFeed_iff.2 ends)]
  · obtain ⟨u, rfl, single⟩ := once.resolve_left h
    have front : (ofSource source).restoreNewline (u ++ ['\n']) = u := by
      unfold restoreNewline ofSource
      rw [if_neg h, Bool.true_and, if_pos (endsInLineFeed_iff.2 ends), List.dropLast_concat]
    rw [front, body_of_not_endsInLineFeed (mt endsInLineFeed_iff.1 single)]

end Program

/-- If what is appended holds no lines of its own, the last appended line is not empty. -/
theorem getLast?_appendedLines_ne {r : EvalResult}
    (oneLine : ∀ e, r.lastException = some e → ∀ t ∈ e.className :: e.backtrace, '\n' ∉ t) :
    (appendedLines r).getLast? ≠ some [] := by
  intro last
  obtain ⟨e, t, he, ht, ends⟩ := (getLast?_appendedLines r).1 last
  have feed : '\n' ∈ t := List.mem_of_getLast? ends
  have mem := List.mem_of_getLast? ht
  unfold exceptionLines at mem
  rw [List.mem_append, List.mem_cons] at mem
  rcases mem with (rfl | message) | trace
  · exact oneLine e he _ List.mem_cons_self feed
  · exact Text.lineFeed_notMem_of_mem_lines message feed
  · split at trace
    · cases trace
    · rcases List.mem_cons.1 trace with rfl | trace
      · cases feed
      · exact oneLine e he t (List.mem_cons_of_mem _ trace) feed

section Annotated

variable {source prepared : Text} {s t : Scan} {r : EvalResult} {alignment : Alignment}
  {seen : Bool}

/-- The annotated program is read again as it was written. -/
theorem body_annotateWith
    (cleans : removeAnnotations (Program.ofSource source).body {} = .ok prepared)
    (oneLine : ∀ e, r.lastException = some e → ∀ t ∈ e.className :: e.backtrace, '\n' ∉ t)
    (some : annotateWith s.layout prepared r (.aligned alignment) ≠ []) :
    (Program.ofSource ((Program.ofSource source).restoreNewline
      (annotateWith s.layout prepared r (.aligned alignment)))).body =
        annotateWith s.layout prepared r (.aligned alignment) := by
  have closed : prepared.Closed :=
    closed_removeAnnotations (.inr (Program.getLast?_body_ofSource source)) cleans
  refine Program.body_restoreNewline ((closed_annotateWith closed).resolve_left some) ?_
  refine Classical.or_iff_not_imp_left.2 fun missing => Classical.byContradiction fun twice => ?_
  have once := endsOnce_of_cleans missing cleans
  exact getLast?_appendedLines_ne oneLine ((endsOnce_annotateWith rfl closed once).1 ⟨some, twice⟩)

/-- What is left of an annotated program. -/
theorem removeAnnotations_annotateWith (closed : prepared.Closed)
    (accepted : scan prepared = .ok (.ok s)) (legible : Legible s.layout prepared r)
    (hseen : seen = true ↔ ¬ Marked prepared)
    (again : scan (annotateWith s.layout prepared r (.aligned alignment)) = .ok (.ok t)) :
    removeAnnotations (annotateWith s.layout prepared r (.aligned alignment)) {} =
      .ok ((dropTail (keptInline s.layout prepared r alignment ++ keptBelow seen r)).flatMap
        Kept.text) := by
  rw [removeAnnotations_of_scan {} again]
  exact removeWith_of_remarks closed (remarks_annotateWith closed accepted legible again hseen)
    (onLine_of_counted again (closed_annotateWith closed)
      (counted_annotateWith closed accepted legible again) {})

end Annotated

/-! ## An empty line -/

section EmptyLine

variable {r : EvalResult} {alignment : Alignment}

/-- An empty line is a program, and may be annotated. -/
theorem exists_scan_lineFeed : ∃ u : Scan, scan ['\n'] = .ok (.ok u) ∧ isAnnotatable u.layout 1 ∧
    removeAnnotations ['\n'] {} = .ok ['\n'] := by
  have checked : ∃ u ∈ scanFor 5 ['\n'], isAnnotatable u.layout 1 ∧
      (removeWith ['\n'] u.layout {}).toOption = some ['\n'] := by decide +kernel
  obtain ⟨u, hu, open_, removed⟩ := checked
  have accepted := scan_of_scanFor hu
  exact ⟨u, accepted, open_,
    (removeAnnotations_of_scan {} accepted).trans (eq_ok_of_toOption removed)⟩

/-- An empty line stays as it is if nothing is recorded for it. -/
theorem annotateWith_lineFeed_iff {l : Layout} (open_ : isAnnotatable l 1)
    (bare : appendedLines r = []) :
    annotateWith l ['\n'] r (.aligned alignment) = ['\n'] ↔ recorded r 1 = none := by
  have below : appended r = [] := by
    rw [appended_eq, bare]
    rfl
  -- the body has one line, which is blank
  obtain ⟨row, hrow⟩ := List.length_eq_one_iff.1 (length_rows l ['\n'] alignment)
  have mem : row ∈ rows l ['\n'] alignment := hrow ▸ List.mem_singleton_self row
  have here : row.1 = (['\n'], 1) := List.mem_singleton.1 (mem_pieces_of_mem_rows mem)
  have line : annotateWith l ['\n'] r (.aligned alignment) =
      renderLine l r (.aligned alignment) row.2 1 ['\n'] := by
    rw [annotateWith_eq, below, List.append_nil, annotatedLines_eq]
    show ((rows l ['\n'] alignment).map _).flatten = _
    rw [hrow, List.map_singleton, List.flatten_singleton, here]
  have writes : written l r 1 = recorded r 1 := by
    unfold written
    cases recorded r 1 with
    | none => rfl
    | some cs => exact if_pos open_
  rw [line]
  cases hw : written l r 1 with
  | none =>
    rw [renderLine_of_not_written _ hw, ← writes, hw]
    exact iff_of_true rfl rfl
  | some cs =>
    rw [← writes, hw]
    exact iff_of_false (renderLine_ne_lineFeed hw) nofun

end EmptyLine

namespace Engine

section Stable

variable {run : Run} {o : EvalOptions} {alignment : Alignment} {runner : Runner}
  (valid : o.validate = .ok ()) (runs : ∀ body, runner body o = .ok run)
  (completed : run.outcome = .completed)

include valid runs completed

/-- An evaluation that gives the text of an accepted program again has annotated what was left of
it. -/
theorem annotateWith_of_stable {text left : Text} {t : Scan}
    (cleans : removeAnnotations (Program.ofSource text).body {} = .ok left)
    (accepted : scan (Program.ofSource text).body = .ok (.ok t))
    (stable : annotatedBodyOf (.ofSource text) o (.aligned alignment) runner = .ok (.ok text)) :
    ∃ v : Scan, annotateWith v.layout left (run.result o) (.aligned alignment) =
      (Program.ofSource text).body := by
  have options := optionsFor_ofSource text o
  have ends := Program.getLast?_body_ofSource text
  have closed : left.Closed := closed_removeAnnotations (.inr ends) cleans
  -- what is written back is the text, so that what is annotated is its body
  have whole {again : Text} (closed' : again.Closed) (some : left ≠ [] → again ≠ [])
      (h : annotatedBodyOf (.ofSource text) o (.aligned alignment) runner =
        .ok (.ok ((Program.ofSource text).restoreNewline again))) : again =
          (Program.ofSource text).body := by
    have same : (Program.ofSource text).restoreNewline again = text :=
      Except.ok.inj (Except.ok.inj (h.symm.trans stable))
    rcases closed' with none | ends'
    · -- the empty text is a program with one line, which is left
      have empty : text = [] := by
        rw [← same, none]
        exact ite_self []
      obtain ⟨_, -, -, stays⟩ := exists_scan_lineFeed
      rw [empty] at cleans
      have line : ['\n'] = left := Except.ok.inj (stays.symm.trans cleans)
      exact absurd none (some (line ▸ List.cons_ne_nil _ _))
    · refine Program.restoreNewline_inj (p := .ofSource text) ends' ends ?_
      rw [Program.restoreNewline_body_ofSource]
      exact same
  cases hscan : scan left with
  | error f =>
    rw [annotatedBodyOf_of_fault cleans hscan] at stable
    cases stable
  | ok scanned =>
    cases scanned with
    | error e =>
      -- a program that is refused is not annotated
      rw [whole closed id (annotatedBodyOf_of_refused cleans hscan), accepted] at hscan
      cases hscan
    | ok v =>
      have annotated := annotatedBodyOf_of_scan (a := .aligned alignment) cleans hscan
        (by rw [options]; exact valid) (by rw [options]; exact runs) completed
      rw [options] at annotated
      refine ⟨v, whole (closed_annotateWith closed) (fun some none => some ?_) annotated⟩
      exact ((annotateWith_eq_nil rfl closed).1 none).1

/-- The empty text is a program with one empty line, which is annotated if something is recorded for
it. -/
theorem annotatedBodyOf_nil_iff (bare : appendedLines (run.result o) = []) :
    annotatedBodyOf (.ofSource []) o (.aligned alignment) runner = .ok (.ok []) ↔
      recorded (run.result o) 1 = none := by
  obtain ⟨u, accepted, open_, stays⟩ := exists_scan_lineFeed
  have annotated := annotatedBodyOf_of_scan (p := .ofSource []) (a := .aligned alignment) stays
    accepted
    (by rw [optionsFor_ofSource]; exact valid) (by rw [optionsFor_ofSource]; exact runs) completed
  rw [optionsFor_ofSource] at annotated
  have closed : Text.Closed ['\n'] := .inr rfl
  have some : annotateWith u.layout ['\n'] (run.result o) (.aligned alignment) ≠ [] := fun none =>
    List.cons_ne_nil _ _ ((annotateWith_eq_nil rfl closed).1 none).1
  rw [annotated, ← annotateWith_lineFeed_iff open_ bare]
  constructor
  · intro empty
    refine Program.restoreNewline_inj (p := .ofSource [])
      ((closed_annotateWith closed).resolve_left some) rfl ?_
    exact Except.ok.inj (Except.ok.inj empty)
  · intro line
    rw [line]
    rfl

/-- The empty text gives itself again just if nothing is recorded for its line. -/
theorem stable_of_empty {prepared : Text} {s : Scan} (accepted : scan prepared = .ok (.ok s))
    (nothing : prepared = []) (bare : appendedLines (run.result o) = []) :
    annotatedBodyOf (.ofSource []) o (.aligned alignment) runner = .ok (.ok []) ↔
      Regained s.layout prepared (run.result o) ∧
        (prepared = [] → appendedLines (run.result o) = [] → recorded (run.result o) 1 = none) := by
  rw [annotatedBodyOf_nil_iff valid runs completed bare]
  have regained : Regained s.layout prepared (run.result o) := by
    refine ⟨fun c hc => ?_, fun x hx => ?_, .inl bare⟩
    · obtain ⟨x, hx, -⟩ := comment_of_scan accepted hc
      rw [nothing, List.drop_nil] at hx
      cases hx
    · rw [nothing] at hx
      cases hx
  exact ⟨fun h => ⟨regained, fun _ _ => h⟩, fun h => h.2 nothing bare⟩

end Stable

/-- Let a program be accepted once it is cleaned, and run to its end. Let it be read alike whatever
is annotated (`Legible`), and let nothing be recorded for a line with a comment that starts with a
marker. Then the annotated program, evaluated by the same run, gives itself again if and only if the
program is given back when its annotations are removed (`Regained`): no comment of it is an
annotation, no annotation is written on a blank line, and where something is appended, no end mark
stands before it and the last line is not empty. A program without lines has an empty line when it
is read again, for which nothing may be recorded. -/
theorem annotatedBodyOf_stable_iff {source prepared : Text} {s : Scan} {run : Run} {o : EvalOptions}
    (alignment : Alignment) {runner : Runner} (valid : o.validate = .ok ())
    (runs : ∀ body, runner body o = .ok run) (completed : run.outcome = .completed)
    (cleans : removeAnnotations (Program.ofSource source).body {} = .ok prepared)
    (accepted : scan prepared = .ok (.ok s)) (legible : Legible s.layout prepared (run.result o))
    (unmarked : ∀ c ∈ s.layout.comments, Markers.isAnnotation {} (c.text prepared) →
      recorded (run.result o) c.line = none) :
    ∃ text, annotatedBodyOf (.ofSource source) o (.aligned alignment) runner = .ok (.ok text) ∧
      (annotatedBodyOf (.ofSource text) o (.aligned alignment) runner = .ok (.ok text) ↔
        Regained s.layout prepared (run.result o) ∧
          (prepared = [] → appendedLines (run.result o) = [] →
            recorded (run.result o) 1 = none)) := by
  have options (source : Text) := optionsFor_ofSource source o
  have closed : prepared.Closed :=
    closed_removeAnnotations (.inr (Program.getLast?_body_ofSource source)) cleans
  -- the first engine, and the text that the second is made for
  have first := annotatedBodyOf_of_scan (p := .ofSource source) (a := .aligned alignment) cleans
    accepted (by rw [options]; exact valid) (by rw [options]; exact runs) completed
  rw [options] at first
  refine ⟨_, first, ?_⟩
  by_cases empty : annotateWith s.layout prepared (run.result o) (.aligned alignment) = []
  · obtain ⟨none, bare⟩ := (annotateWith_eq_nil rfl closed).1 empty
    have text : (Program.ofSource source).restoreNewline [] = [] := ite_self []
    rw [empty, text]
    exact stable_of_empty valid runs completed accepted none bare
  have reads := body_annotateWith cleans legible.oneLine empty
  have given := Program.restoreNewline_body_ofSource ((Program.ofSource source).restoreNewline
    (annotateWith s.layout prepared (run.result o) (.aligned alignment)))
  generalize (Program.ofSource source).restoreNewline (annotateWith s.layout prepared (run.result o)
    (.aligned alignment)) = text at reads given ⊢
  -- the second engine finds what the first has written
  obtain ⟨t, again⟩ := exists_scan_annotateWith closed accepted legible alignment
  obtain ⟨seen, hseen⟩ : ∃ seen : Bool, seen = true ↔ ¬ Marked prepared := by
    classical exact ⟨decide _, decide_eq_true_iff⟩
  have left := removeAnnotations_annotateWith closed accepted legible hseen again
  rw [← reads] at left again
  constructor
  · intro stable
    obtain ⟨v, same⟩ := annotateWith_of_stable valid runs completed left again stable
    rw [reads] at same
    refine ⟨regained_of_annotateWith closed accepted legible hseen unmarked same,
      fun none bare => ?_⟩
    exact absurd ((annotateWith_eq_nil rfl closed).2 ⟨none, bare⟩) empty
  · rintro ⟨regained, -⟩
    -- the program is left but for blanks, and is annotated as before
    obtain ⟨u, trims, same⟩ := exists_scan_cleaned closed accepted legible
    rw [dropTail_of_regained regained hseen (falls_of_oneLine legible.oneLine)] at left
    rw [annotatedBodyOf_of_scan left trims (by rw [options]; exact valid)
      (by rw [options]; exact runs)
      completed, options]
    show Except.ok (Except.ok ((Program.ofSource text).restoreNewline (annotateWith u.layout
      (cleaned s.layout (run.result o) prepared) (run.result o) (.aligned alignment)))) = _
    rw [annotateWith_cleaned closed same, ← reads, given]

/-- A program without a line feed at its end, and with a blank behind a line that is annotated. -/
theorem annotatedBodyOf_stable_blank :
    let source := "x = 1 \ny # c".toList
    let runner : Runner :=
      fun _ _ => .ok ⟨[.event (.value 1 "1".toList), .event (.stdout "hi\n".toList),
      .event (.exception 2 "E".toList "m".toList [])], .completed⟩
    ∃ text, annotatedBodyOf (.ofSource source) {} (.aligned .chunk) runner = .ok (.ok text) ∧
      annotatedBodyOf (.ofSource text) {} (.aligned .chunk) runner = .ok (.ok text) := by
  intro source runner
  let run : Run := ⟨[.event (.value 1 "1".toList), .event (.stdout "hi\n".toList),
    .event (.exception 2 "E".toList "m".toList [])], .completed⟩
  let prepared := "x = 1 \ny # c\n".toList
  have checked : ∃ s ∈ scanFor 30 prepared,
      (removeWith prepared s.layout {}).toOption = some prepared ∧
      (∀ t ∈ Tokenizer.statesFor 30 (.ofSource prepared),
        (written s.layout (run.result {}) t.cursor.line).isSome → t.Firm) ∧
      (∀ x ∈ numberedPieces prepared, (written s.layout (run.result {}) x.2).isSome →
        x.1 = codeOf x.1 ++ ([' '] ++ ['\n'])) ∧
      (∀ x ∈ numberedPieces prepared, (written s.layout (run.result {}) x.2).isSome →
        ¬ Text.isBlankText x.1) ∧
      ∀ c ∈ s.layout.comments, Markers.isAnnotation {} (c.text prepared) = false := by
    decide +kernel
  obtain ⟨s, hs, hremoved, firm, tails, shown, plain⟩ := checked
  have accepted := scan_of_scanFor hs
  have cleans : removeAnnotations (Program.ofSource source).body {} = .ok prepared :=
    (removeAnnotations_of_scan {} accepted).trans (eq_ok_of_toOption hremoved)
  have come (t : Tokenizer) (reach : Tokenizer.Reaches (.ofSource prepared) t) :=
    Tokenizer.mem_statesFor_of_scanFor hs reach
  have undashed : ∀ t ∈ Tokenizer.statesFor 30 (.ofSource prepared),
      t.cursor.rest.take 3 ≠ ['$', '-', '\n'] := by decide +kernel
  have unmarked : ∀ t ∈ Tokenizer.statesFor 30 (.ofSource prepared), t.atEndMark = false := by
    decide +kernel
  have oneLine : ∀ e ∈ (run.result {}).lastException, ∀ t ∈ e.className :: e.backtrace,
      '\n' ∉ t := by
    decide +kernel
  have last : ∀ p ∈ (Text.pieces prepared).getLast?, p ≠ ['\n'] ∧ p ≠ ['\r', '\n'] := by
    decide +kernel
  have legible : Legible s.layout prepared (run.result {}) := by
    refine ⟨fun t reach a hr => ?_, fun t reach => firm t (come t reach), fun x hx some => ?_,
      fun x hx some blank => absurd blank (shown x hx some), oneLine⟩
    · refine undashed t (come t reach) ?_
      rw [hr]
      rfl
    · exact ⟨[' '], fun c hc => .inl (List.mem_singleton.1 hc), tails x hx some⟩
  have runs : ∀ body, runner body {} = .ok run := fun _ => rfl
  obtain ⟨text, first, second⟩ := annotatedBodyOf_stable_iff .chunk rfl runs rfl cleans accepted
    legible fun c hc marked => absurd marked (Bool.eq_false_iff.1 (plain c hc))
  refine ⟨text, first, second.2 ⟨⟨plain, shown, .inr ⟨?_, last⟩⟩, nofun⟩⟩
  rintro ⟨t, reach, mark⟩
  rw [unmarked t (come t reach)] at mark
  cases mark

/-- The blank line at the end of the program goes with the block that was appended, and the block
that is appended again is set off by one blank line only. -/
theorem annotatedBodyOf_unstable_blankLine :
    let source := "a\n\n".toList
    let runner : Runner := fun _ _ => .ok ⟨[.event (.stdout "x".toList)], .completed⟩
    annotatedBodyOf (.ofSource source) {} (.aligned .chunk) runner =
        .ok (.ok "a\n\n\n# >> x\n".toList) ∧
      annotatedBodyOf (.ofSource "a\n\n\n# >> x\n".toList) {} (.aligned .chunk) runner =
        .ok (.ok "a\n\n# >> x\n".toList) := by
  intro source runner
  let run : Run := ⟨[.event (.stdout "x".toList)], .completed⟩
  have checked : ∃ s ∈ scanFor 20 source, ∃ t ∈ scanFor 20 "a\n\n\n# >> x\n".toList,
      ∃ u ∈ scanFor 20 "a\n".toList, (removeWith source s.layout {}).toOption = some source ∧
      annotateWith s.layout source (run.result {}) (.aligned .chunk) = "a\n\n\n# >> x\n".toList ∧
      (removeWith "a\n\n\n# >> x\n".toList t.layout {}).toOption = some "a\n".toList ∧
      annotateWith u.layout "a\n".toList (run.result {}) (.aligned .chunk) =
        "a\n\n# >> x\n".toList := by
    decide +kernel
  obtain ⟨s, hs, t, ht, u, hu, hsource, hfirst, hcleaned, hsecond⟩ := checked
  have answer {body prepared annotated : Text} {s t : Scan} (scanned : scan body = .ok (.ok t))
      (ends : Program.ofSource body = ⟨body, false, none, none, []⟩)
      (removed : (removeWith body t.layout {}).toOption = some prepared)
      (accepted : scan prepared = .ok (.ok s))
      (annotates : annotateWith s.layout prepared (run.result {}) (.aligned .chunk) = annotated) :
      annotatedBodyOf (.ofSource body) {} (.aligned .chunk) runner = .ok (.ok annotated) := by
    have cleans := (removeAnnotations_of_scan {} scanned).trans (eq_ok_of_toOption removed)
    have runs : ∀ body, runner body {} = .ok run := fun _ => rfl
    have given := annotatedBodyOf_of_scan (p := ⟨body, false, none, none, []⟩) (o := {})
      (a := .aligned .chunk) cleans accepted rfl runs rfl
    rw [ends, given, ← annotates]
    rfl
  have accepted := scan_of_scanFor hs
  exact ⟨answer accepted rfl hsource accepted hfirst,
    answer (scan_of_scanFor ht) rfl hcleaned (scan_of_scanFor hu) hsecond⟩

end Engine

end Marginalia
