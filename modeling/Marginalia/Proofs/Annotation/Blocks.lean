import Marginalia.Proofs.Annotation.Lines
import Marginalia.Proofs.Source.Accepted

/-!
# Appended blocks

The lines that stand below an annotated program. A block puts its marker before each of its texts,
and a text that holds line feeds is several lines, of which the first alone gets the marker. Output
and messages are cut into lines before, names of exceptions and backtraces are not. So whatever
holds of every line with a marker holds of all appended lines just if it holds of the further lines
of these texts (`forall_appendedLines`). The main statement, `inert_appended_iff`, is the case of
lines that are no code.
-/

namespace Marginalia

open Source

/-! ## Lines of blocks -/

/-- The lines of a block, without their line feeds. A line that holds line feeds itself is several
lines, and only the first of them has the marker. -/
def blockLines (marker : Text) (lines : List Text) : List Text :=
  [] :: lines.flatMap fun t =>
    List.splitOn '\n' (if t.isEmpty then Text.trimEnd marker else marker ++ t)

/-- A block is made of its lines. -/
theorem block_eq (marker : Text) (lines : List Text) :
    block marker lines = ((blockLines marker lines).map (· ++ ['\n'])).flatten := by
  have line : ∀ t : Text, blockLine marker t = ((List.splitOn '\n'
      (if t.isEmpty then Text.trimEnd marker else marker ++ t)).map (· ++ ['\n'])).flatten := by
    intro t
    rw [← Text.pieces_append_lineFeed, Text.flatten_pieces]
    rfl
  unfold block blockLines
  rw [List.map_cons, List.flatten_cons, List.map_flatMap]
  show '\n' :: lines.flatMap (blockLine marker) = '\n' :: _
  congr 1
  rw [List.flatMap_def, List.flatMap_def, List.flatten_flatten, List.map_map, List.map_congr_left
    fun t _ => line t]
  rfl

theorem lineFeed_notMem_blockLines {marker t : Text} {lines : List Text}
    (h : t ∈ blockLines marker lines) : '\n' ∉ t := by
  rcases List.mem_cons.1 h with rfl | h
  · exact List.not_mem_nil
  · obtain ⟨u, -, hu⟩ := List.mem_flatMap.1 h
    exact Text.notMem_of_mem_splitOn hu

/-- The appended lines, without their line feeds. -/
def appendedLines (r : EvalResult) : List Text :=
  (if r.stdout.isEmpty then [] else blockLines "# >> ".toList (Text.lines r.stdout)) ++
    match r.lastException with
    | some e => blockLines "# ~> ".toList (exceptionLines e)
    | none => []

theorem lineFeed_notMem_appendedLines {r : EvalResult} {t : Text} (h : t ∈ appendedLines r) :
    '\n' ∉ t := by
  unfold appendedLines at h
  rcases List.mem_append.1 h with h | h
  · split at h
    · cases h
    · exact lineFeed_notMem_blockLines h
  · split at h
    · exact lineFeed_notMem_blockLines h
    · cases h

/-- The pieces of what is appended are the appended lines. -/
theorem pieces_appended (r : EvalResult) :
    Text.pieces (appended r) = (appendedLines r).map (· ++ ['\n']) := by
  have whole : appended r = ((appendedLines r).map (· ++ ['\n'])).flatten := by
    unfold appended appendedLines stdoutBlock exceptionBlock
    rw [List.map_append, List.flatten_append]
    congr 1
    · split
      · rfl
      · exact block_eq ..
    · cases r.lastException with
      | none => rfl
      | some e => exact block_eq ..
  rw [whole]
  refine Text.pieces_flatten fun p hp => ?_
  obtain ⟨t, ht, rfl⟩ := List.mem_map.1 hp
  exact ⟨t, lineFeed_notMem_appendedLines ht, rfl⟩

/-! ## What holds of all lines -/

section Forall

variable {P : Text → Prop}

/-- If something holds of every line with a marker, it holds of a block unless it fails for a line
that a text of the block holds behind a line feed. -/
theorem forall_blockLines {marker : Text} (noLineFeed : '\n' ∉ marker) (empty : P [])
    (bare : P (Text.trimEnd marker)) (marked : ∀ t, P (marker ++ t)) (lines : List Text) :
    (∀ t ∈ blockLines marker lines, P t) ↔
      ∀ t ∈ lines, ∀ line ∈ (t.splitOn '\n').tail, P line := by
  -- the marker stands before the first line of a text only
  have each : ∀ t : Text, (∀ line ∈ List.splitOn '\n'
      (if t.isEmpty then Text.trimEnd marker else marker ++ t), P line) ↔
        ∀ line ∈ (t.splitOn '\n').tail, P line := by
    intro t
    cases t with
    | nil =>
      refine ⟨fun _ => nofun, fun _ line hl => ?_⟩
      rw [List.isEmpty_nil, if_pos rfl, List.splitOn_eq_singleton (Text.notMem_trimEnd noLineFeed),
        List.mem_singleton] at hl
      exact hl ▸ bare
    | cons c r =>
      cases hs : List.splitOn '\n' (c :: r) with
      | nil => exact absurd hs (List.splitOn_ne_nil _ _)
      | cons first others =>
        rw [List.isEmpty_cons, if_neg Bool.false_ne_true,
          Text.splitOn_append_of_notMem noLineFeed _ hs, List.forall_mem_cons, List.tail_cons]
        exact and_iff_right (marked first)
  unfold blockLines
  rw [List.forall_mem_cons, List.forall_mem_flatMap]
  exact ⟨fun h t ht => (each t).1 (h.2 t ht), fun h => ⟨empty, fun t ht => (each t).2 (h t ht)⟩⟩

/-- If something holds of the empty line and of every line with a marker, it holds of all appended
lines unless it fails for a line that the name of the exception or a line of its backtrace holds
behind a line feed. Messages and output are cut into lines before they are written. -/
theorem forall_appendedLines (r : EvalResult) (empty : P [])
    (marked : ∀ marker ∈ ["# >> ".toList, "# ~> ".toList],
      P (Text.trimEnd marker) ∧ ∀ t, P (marker ++ t)) :
    (∀ t ∈ appendedLines r, P t) ↔ ∀ e, r.lastException = some e →
      ∀ t ∈ e.className :: e.backtrace, ∀ line ∈ (t.splitOn '\n').tail, P line := by
  -- the lines of the output and of the message have no line feed inside, only the others may
  have lines : ∀ t : Text, ∀ u ∈ Text.lines t, ∀ line ∈ (u.splitOn '\n').tail, P line := by
    intro t u hu line hl
    rw [List.splitOn_eq_singleton (Text.lineFeed_notMem_of_mem_lines hu)] at hl
    cases hl
  have output := marked _ (List.mem_cons_self ..)
  have exception := marked _ (List.mem_cons_of_mem _ (List.mem_singleton_self _))
  have first : ∀ t ∈ (if r.stdout.isEmpty then [] else
      blockLines "# >> ".toList (Text.lines r.stdout)), P t := by
    split
    · nofun
    · exact (forall_blockLines (by decide) empty output.1 output.2 _).2 (lines r.stdout)
  unfold appendedLines
  rw [List.forall_mem_append, and_iff_right first]
  cases r.lastException with
  | none => exact ⟨fun _ => nofun, fun _ => nofun⟩
  | some e =>
    have trace : (∀ t ∈ (if e.backtrace.isEmpty then [] else [] :: e.backtrace),
        ∀ line ∈ (t.splitOn '\n').tail, P line) ↔
        ∀ t ∈ e.backtrace, ∀ line ∈ (t.splitOn '\n').tail, P line := by
      split
      · next hb => rw [List.isEmpty_iff.1 hb]
      · rw [List.forall_mem_cons]
        exact and_iff_right nofun
    dsimp only
    rw [forall_blockLines (by decide) empty exception.1 exception.2, exceptionLines,
      List.forall_mem_append, List.forall_mem_cons, trace, and_iff_left (lines e.message)]
    simp only [Option.some.injEq, forall_eq', List.forall_mem_cons]

end Forall

/-! ## Lines that are no code -/

/-- A line that is empty, or starts with the marker of output or with that of exceptions. -/
def Inert (line : Text) : Prop :=
  line = [] ∨ Text.trimEnd ({} : Markers).stdout <+: line ∨
    Text.trimEnd ({} : Markers).exception <+: line

instance (line : Text) : Decidable (Inert line) := inferInstanceAs (Decidable (_ ∨ _ ∨ _))

/-- Let a program end with its lines, and let the markers be the usual ones. Every line below the
lines of the annotated program is empty or starts with a marker if and only if this is so for every
line that the class name of the exception, or a line of its backtrace, holds behind a line feed. -/
theorem inert_appended_iff {body annotated : Text} {r : EvalResult} {o : AnnotateOptions}
    (closed : body.Closed) (markers : o.markers = {})
    (annotates : annotate body r o = .ok annotated) :
    (∀ piece ∈ (Text.pieces annotated).drop (Text.lineCount body),
      ∃ line, piece = line ++ ['\n'] ∧ Inert line) ↔
    ∀ e, r.lastException = some e → ∀ text ∈ e.className :: e.backtrace,
      ∀ line ∈ (text.splitOn '\n').tail, Inert line := by
  obtain ⟨l, -, rfl⟩ := annotate_eq_ok.1 annotates
  have below : (Text.pieces (annotateWith l body r o)).drop (Text.lineCount body) =
      (appendedLines r).map (· ++ ['\n']) := by
    rw [pieces_annotateWith markers closed, pieces_appended, Text.lineCount,
      ← length_annotatedLines l body r o, List.drop_left]
  have marked : ∀ marker ∈ ["# >> ".toList, "# ~> ".toList],
      Inert (Text.trimEnd marker) ∧ ∀ t, Inert (marker ++ t) := by
    have starts : ∀ marker ∈ ["# >> ".toList, "# ~> ".toList],
        Inert (Text.trimEnd marker) ∧ (Text.trimEnd ({} : Markers).stdout <+: marker ∨
          Text.trimEnd ({} : Markers).exception <+: marker) := by decide
    intro marker hm
    obtain ⟨bare, start⟩ := starts marker hm
    exact ⟨bare, fun t => .inr (start.imp (·.trans (List.prefix_append marker t))
      (·.trans (List.prefix_append marker t)))⟩
  rw [below, List.forall_mem_map, ← forall_appendedLines r (.inl rfl) marked]
  refine forall₂_congr fun t _ => ⟨?_, fun inert => ⟨t, rfl, inert⟩⟩
  rintro ⟨line, same, inert⟩
  exact List.append_cancel_right same ▸ inert

/-- Carriage returns and line feeds in output and message, an empty line of output, and a class name
with a second line that has a marker of its own. -/
theorem inert_appended_message :
    let body := "a\n".toList
    let r : EvalResult := .ofEvents none
      [.stdout "x\r\n\ny".toList,
        .exception 9 "E\n# ~> F".toList "m\n\r\nn\r".toList ["a:1".toList, []]]
    let annotated :=
      "a\n\n# >> x\n# >>\n# >> y\n\n# ~> E\n# ~> F\n# ~> m\n# ~>\n# ~> n\r\n# ~>\n# ~> a:1\n# ~>\n"
        |>.toList
    Text.Closed body ∧ annotate body r {} = .ok annotated ∧
      ∀ piece ∈ (Text.pieces annotated).drop (Text.lineCount body),
        ∃ line, piece = line ++ ['\n'] ∧ Inert line := by
  intro body r annotated
  have checked : ∃ s ∈ scanFor 20 body, annotateWith s.layout body r {} = annotated := by
    decide +kernel
  obtain ⟨s, hs, hannotated⟩ := checked
  have closed : Text.Closed body := .inr rfl
  have annotates : annotate body r {} = .ok annotated := by
    rw [annotate_of_scan (scan_of_scanFor hs), hannotated]
  have inert : ∀ e ∈ r.lastException, ∀ text ∈ e.className :: e.backtrace,
      ∀ line ∈ (text.splitOn '\n').tail, Inert line := by decide +kernel
  exact ⟨closed, annotates, (inert_appended_iff closed rfl annotates).2 inert⟩

/-- The second line of an entry of a backtrace becomes a line of code. -/
theorem not_inert_appended_backtrace :
    let body := "a\n".toList
    let r : EvalResult := .ofEvents none [.exception 9 "E".toList "m".toList ["x\nputs 1".toList]]
    let annotated := "a\n\n# ~> E\n# ~> m\n# ~>\n# ~> x\nputs 1\n".toList
    Text.Closed body ∧ annotate body r {} = .ok annotated ∧
      "puts 1\n".toList ∈ (Text.pieces annotated).drop (Text.lineCount body) ∧
      ¬ Inert "puts 1".toList := by
  intro body r annotated
  have checked : ∃ s ∈ scanFor 20 body, annotateWith s.layout body r {} = annotated := by
    decide +kernel
  obtain ⟨s, hs, hannotated⟩ := checked
  refine ⟨.inr rfl, ?_, by decide +kernel, by decide⟩
  rw [annotate_of_scan (scan_of_scanFor hs), hannotated]

end Marginalia
