import Marginalia.Annotation
import Marginalia.Proofs.Text

/-!
# Annotated lines

What an annotated line consists of: the code of the line, blanks up to a column, the annotation and
the end of the line. An annotation holds no line end (`oneLine_renderCaptures`), so that an
annotated program has the lines of the program and then those of the blocks (`pieces_annotateWith`).
-/

namespace Marginalia

open Source

namespace Markers

variable {m : Markers}

/-- A comment is an annotation if it starts like one. -/
theorem isAnnotation_iff {t : Text} : m.isAnnotation t ↔ ∃ s ∈ m.starts, s <+: t := by
  unfold isAnnotation
  rw [List.any_eq_true]
  exact exists_congr fun s => and_congr_right fun _ => List.isPrefixOf_iff_prefix

theorem isAnnotation_append {t : Text} (h : m.isAnnotation t) (u : Text) :
    m.isAnnotation (t ++ u) := by
  obtain ⟨s, hs, hp⟩ := isAnnotation_iff.1 h
  exact isAnnotation_iff.2 ⟨s, hs, hp.trans (List.prefix_append t u)⟩

end Markers

/-- A text without line ends. -/
def Text.OneLine (t : Text) : Prop := ∀ c ∈ t, c ≠ '\n' ∧ c ≠ '\r'

/-- Texts of one line make a text of one line. -/
theorem Text.OneLine.append {t u : Text} (ht : t.OneLine) (hu : u.OneLine) :
    Text.OneLine (t ++ u) :=
  fun c hc => (List.mem_append.1 hc).elim (ht c) (hu c)

/-- A text of one line has no line feed. -/
theorem Text.OneLine.notMem {t : Text} (h : t.OneLine) : '\n' ∉ t := fun hm => (h _ hm).1 rfl

instance (t : Text) : Decidable t.OneLine :=
  List.decidableBAll (fun c => c ≠ '\n' ∧ c ≠ '\r') t

/-- The markers that stand in annotations hold no line ends. -/
def Markers.OneLine (m : Markers) : Prop := m.value.OneLine ∧ m.exception.OneLine

instance (m : Markers) : Decidable m.OneLine := inferInstanceAs (Decidable (_ ∧ _))

/-- The markers that are used by default stay on their line. -/
theorem Markers.oneLine_default : Markers.OneLine {} := by decide

/-! ## Annotations -/

/-- Annotations as they are written if no option but the alignment is set. -/
abbrev AnnotateOptions.aligned (alignment : Alignment) : AnnotateOptions := { alignment }

/-- What is put on a single line stays on it. -/
theorem oneLine_singleLine (t : Text) : (singleLine t).OneLine := by
  intro x hx
  obtain ⟨c, -, hc⟩ := List.mem_flatMap.1 hx
  split at hc
  · rw [List.mem_cons, List.mem_singleton] at hc
    rcases hc with rfl | rfl <;> decide
  · next hr =>
    split at hc
    · rw [List.mem_cons, List.mem_singleton] at hc
      rcases hc with rfl | rfl <;> decide
    · next hn =>
      rw [List.mem_singleton.1 hc]
      exact ⟨fun h => hn (beq_iff_eq.2 h), fun h => hr (beq_iff_eq.2 h)⟩

section Annotations

variable {cs : List Capture}

/-- An annotation is a marker and a text. -/
theorem renderCaptures_eq (alignment : Alignment) (h : cs ≠ []) : ∃ t : Text,
    renderCaptures (.aligned alignment) cs = "# => ".toList ++ t ∨
      renderCaptures (.aligned alignment) cs = "# ~> ".toList ++ t := by
  have some_kind : cs.filterMap Capture.value? ≠ [] ∨ cs.filterMap Capture.exception? ≠ [] := by
    obtain ⟨c, r, rfl⟩ := List.exists_cons_of_ne_nil h
    cases c <;> simp [Capture.value?, Capture.exception?]
  unfold renderCaptures
  by_cases hv : cs.filterMap Capture.value? = []
  · have he := some_kind.resolve_left (absurd hv)
    refine ⟨singleLine (List.intercalate ", ".toList (cs.filterMap Capture.exception?)), .inr ?_⟩
    simp [hv, he]
  · -- what stands behind the values, if exceptions do, belongs to the text
    simp only [List.isEmpty_iff, hv, if_false, List.append_assoc]
    exact ⟨_, .inl rfl⟩

/-- A text that is cut short stays on its line. -/
theorem oneLine_truncate {t : Text} (h : t.OneLine) (max : Nat) : (truncate max t).OneLine := by
  unfold truncate
  split
  · exact h
  · have front : Text.OneLine (t.take (max - ellipsis.length)) :=
      fun c hc => h c (List.mem_of_mem_take hc)
    exact front.append (by decide)

/-- Whatever was captured, an annotation is one line. -/
theorem oneLine_renderCaptures {o : AnnotateOptions} (plain : o.markers.OneLine)
    (cs : List Capture) :
    (renderCaptures o cs).OneLine := by
  have empty : Text.OneLine [] := nofun
  have blank : Text.OneLine [' '] := by decide
  unfold renderCaptures
  extract_lets values exceptions valuePart exceptionPart all
  have hvalue : Text.OneLine valuePart := by
    unfold valuePart
    split
    · exact empty
    · exact plain.1.append (oneLine_singleLine _)
  have hexception : Text.OneLine exceptionPart := by
    unfold exceptionPart
    split
    · exact empty
    · refine (Text.OneLine.append ?_ plain.2).append (oneLine_singleLine _)
      split
      · exact empty
      · exact blank
  have hall : Text.OneLine all := hvalue.append hexception
  split
  · exact oneLine_truncate hall _
  · exact hall

/-- What is recorded for a line is rendered as an annotation, if nothing is cut short. -/
theorem isAnnotation_renderCaptures (alignment : Alignment) (h : cs ≠ []) :
    Markers.isAnnotation {} (renderCaptures (.aligned alignment) cs) := by
  obtain ⟨t, ht | ht⟩ := renderCaptures_eq alignment h
  · rw [ht]
    exact Markers.isAnnotation_append (by decide) t
  · rw [ht]
    exact Markers.isAnnotation_append (by decide) t

end Annotations

/-! ## Lines -/

/-- What is written behind a line, if anything is. -/
def written (l : Layout) (r : EvalResult) (line : Nat) : Option (List Capture) :=
  (recorded r line).filter fun _ => isAnnotatable l line

/-- The blanks between the code of a line and its annotation. -/
def padding (column : Nat) (piece : Text) : Text :=
  List.replicate (max column ((codeOf piece).length + 2) - (codeOf piece).length) ' '

section Lines

variable {l : Layout} {r : EvalResult} {o : AnnotateOptions} {cs : List Capture}
  {column line : Nat} {piece : Text}

/-- An annotated line has its code, the padding, the annotation and the terminator. -/
theorem renderLine_of_written (o : AnnotateOptions) (h : written l r line = some cs) :
    renderLine l r o column line piece =
      codeOf piece ++ padding column piece ++ renderCaptures o cs ++ Text.terminator piece := by
  obtain ⟨hr, ha⟩ := Option.filter_eq_some_iff.1 h
  unfold renderLine
  rw [hr]
  exact if_pos ha

/-- A line for which nothing is written is left as it is. -/
theorem renderLine_of_not_written (o : AnnotateOptions) (h : written l r line = none) :
    renderLine l r o column line piece = piece := by
  unfold renderLine
  split
  · next hr =>
    have ha := Option.filter_eq_none_iff.1 h _ hr
    exact if_neg ha
  · rfl

/-- Something is written only where something was recorded. -/
theorem ne_nil_of_written (h : written l r line = some cs) : cs ≠ [] := by
  obtain ⟨hr, -⟩ := Option.filter_eq_some_iff.1 h
  obtain ⟨-, hcs⟩ := Option.filter_eq_some_iff.1 hr
  intro hnil
  rw [hnil] at hcs
  cases hcs

/-- What is written for a line was recorded for it. -/
theorem isSome_recorded_of_written (h : written l r line = some cs) : (recorded r line).isSome :=
  Option.isSome_iff_exists.2 ⟨cs, (Option.filter_eq_some_iff.1 h).1⟩

/-- Only a line that may have an annotation is annotated. -/
theorem isAnnotatable_of_written (h : written l r line = some cs) : isAnnotatable l line :=
  (Option.filter_eq_some_iff.1 h).2

/-- A line may have an annotation if it ends in code and has no comment. -/
theorem isAnnotatable_iff : isAnnotatable l line ↔ l.endsInCode line ∧ l.commentOn line = none := by
  rw [isAnnotatable, Bool.and_eq_true, Option.isNone_iff_eq_none]

/-- A line is blank just if its code is. -/
theorem isBlankText_codeOf (piece : Text) :
    Text.isBlankText (codeOf piece) = Text.isBlankText piece :=
  (Text.isBlankText_trimEnd _).trans (Text.isBlankText_lineText piece)

/-- Padding is blank. -/
theorem isBlankText_padding : Text.isBlankText (padding column piece) :=
  Text.isBlankText_replicate _

theorem padding_ne_nil : padding column piece ≠ [] := by
  rw [padding, ne_eq, List.replicate_eq_nil_iff]
  omega

/-- Padding stays on its line. -/
theorem oneLine_padding : (padding column piece).OneLine := by
  intro c hc
  rw [(List.mem_replicate.1 hc).2]
  decide

/-- A line is its code, blanks, and its end. -/
theorem exists_eq_codeOf_append (piece : Text) : ∃ blanks : Text, Text.isBlankText blanks ∧
    codeOf piece ++ blanks ++ Text.terminator piece = piece := by
  obtain ⟨blanks, hblanks, blank⟩ := Text.eq_dropEndWhile_append Text.isBlank (Text.lineText piece)
  refine ⟨blanks, blank, ?_⟩
  conv => rhs; rw [← Text.lineText_append_terminator piece, hblanks]
  rfl

theorem lineFeed_notMem_codeOf (h : Text.IsLine piece) : '\n' ∉ codeOf piece := by
  obtain ⟨s, hs, -⟩ := Text.eq_dropEndWhile_append Text.isBlank (Text.lineText piece)
  intro hm
  refine (Text.isLine_terminator h).1 ?_
  rw [hs]
  exact List.mem_append_left s hm

/-- An annotated line is a line. -/
theorem isLine_renderLine (plain : o.markers.OneLine) (h : Text.IsLine piece) :
    Text.IsLine (renderLine l r o column line piece) := by
  cases hw : written l r line with
  | none =>
    rw [renderLine_of_not_written _ hw]
    exact h
  | some cs =>
    rw [renderLine_of_written _ hw]
    refine (Text.isLine_terminator h).2.append ?_
    rw [List.mem_append, List.mem_append, not_or, not_or]
    exact ⟨⟨lineFeed_notMem_codeOf h, oneLine_padding.notMem⟩,
      (oneLine_renderCaptures plain cs).notMem⟩

/-- An annotated line is annotated up to its end. -/
theorem lineText_renderLine (plain : o.markers.OneLine) (h : written l r line = some cs) :
    Text.lineText (renderLine l r o column line piece) =
      codeOf piece ++ padding column piece ++ renderCaptures o cs := by
  rw [renderLine_of_written _ h]
  refine Text.lineText_append_terminator_of piece fun c hc => ?_
  -- there are blanks before the annotation, so the last character is none of the code
  have behind : padding column piece ++ renderCaptures o cs ≠ [] :=
    List.append_ne_nil_of_left_ne_nil padding_ne_nil _
  have last := List.getLast?_eq_some_getLast behind
  rw [List.append_assoc, List.getLast?_append, last, Option.some_or, ← last] at hc
  exact (oneLine_padding.append (oneLine_renderCaptures plain cs)) c (List.mem_of_getLast? hc)

/-- An annotated line keeps its terminator. -/
theorem terminator_renderLine (plain : o.markers.OneLine) :
    Text.terminator (renderLine l r o column line piece) = Text.terminator piece := by
  cases h : written l r line with
  | none => rw [renderLine_of_not_written o h]
  | some cs => rw [Text.terminator, lineText_renderLine plain h, renderLine_of_written o h,
    List.drop_left]

end Lines

/-! ## Programs -/

/-- The lines of a program, each with its number and its column. -/
def rows (l : Layout) (body : Text) (alignment : Alignment) : List ((Text × Nat) × Nat) :=
  (numberedPieces body).zip
    (alignment.columns ((numberedPieces body).map fun (piece, line) => lineInfo l piece line))

/-- The annotated lines are rendered row by row. -/
theorem annotatedLines_eq (l : Layout) (body : Text) (r : EvalResult) (o : AnnotateOptions) :
    annotatedLines l body r o =
      (rows l body o.alignment).map fun row => renderLine l r o row.2 row.1.2 row.1.1 := rfl

namespace Alignment

theorem length_columns (a : Alignment) (ls : List Line) : (a.columns ls).length = ls.length := by
  unfold columns
  cases a with
  | line => exact List.length_map _
  | file => exact List.length_map _
  | chunk =>
    -- the columns of the runs are as many as their lines
    have whole := congrArg List.length (flatten_runs ls)
    rw [List.length_flatten] at whole
    rw [List.length_flatMap, ← whole]
    congr 1
    exact List.map_congr_left fun run _ => List.length_map _

end Alignment

/-- The rows are the numbered lines of the body. -/
theorem map_rows (l : Layout) (body : Text) (alignment : Alignment) :
    (rows l body alignment).map Prod.fst = numberedPieces body := by
  refine List.map_fst_zip (Nat.le_of_eq ?_)
  rw [Alignment.length_columns, List.length_map]

/-- The numbered lines are the lines of the body. -/
theorem map_numberedPieces (body : Text) :
    (numberedPieces body).map Prod.fst = Text.pieces body := by
  rw [numberedPieces, List.zipIdx_map_fst]

/-- The rows have the lines of the body. -/
theorem map_rows_pieces (l : Layout) (body : Text) (alignment : Alignment) :
    (rows l body alignment).map (fun row => row.1.1) = Text.pieces body := by
  rw [← map_numberedPieces, ← map_rows l body alignment, List.map_map]
  rfl

theorem length_rows (l : Layout) (body : Text) (alignment : Alignment) :
    (rows l body alignment).length = (Text.pieces body).length := by
  rw [← map_rows_pieces l body alignment, List.length_map]

theorem length_annotatedLines (l : Layout) (body : Text) (r : EvalResult) (o : AnnotateOptions) :
    (annotatedLines l body r o).length = (Text.pieces body).length := by
  rw [annotatedLines_eq, List.length_map, length_rows]

theorem mem_pieces_of_mem_rows {l : Layout} {body : Text} {alignment : Alignment}
    {row : (Text × Nat) × Nat} (h : row ∈ rows l body alignment) : row.1 ∈ numberedPieces body := by
  rw [← map_rows l body alignment]
  exact List.mem_map_of_mem h

/-- The rows of a closed body are lines. -/
theorem isLine_of_mem_rows {l : Layout} {body : Text} {alignment : Alignment}
    {row : (Text × Nat) × Nat} (closed : body.Closed)
    (h : row ∈ rows l body alignment) : Text.IsLine row.1.1 := by
  refine closed.isLine _ ?_
  rw [← map_numberedPieces]
  exact List.mem_map_of_mem (mem_pieces_of_mem_rows h)

/-- What is appended to a program. -/
def appended (r : EvalResult) : Text := stdoutBlock {} r ++ exceptionBlock {} r

/-- An annotated program has as many lines as the program, and then those of the blocks. -/
theorem pieces_annotateWith {l : Layout} {body : Text} {r : EvalResult} {o : AnnotateOptions}
    (markers : o.markers = {}) (closed : body.Closed) :
    Text.pieces (annotateWith l body r o) = annotatedLines l body r o ++
      Text.pieces (appended r) := by
  have plain : o.markers.OneLine := markers ▸ Markers.oneLine_default
  unfold annotateWith
  rw [List.append_assoc, markers]
  refine Text.pieces_append (fun p hp => ?_) _
  obtain ⟨row, hrow, rfl⟩ := List.mem_map.1 hp
  exact isLine_renderLine plain (isLine_of_mem_rows closed hrow)

/-- A program is annotated along the layout that it has. -/
theorem annotate_eq_ok {body annotated : Text} {r : EvalResult} {o : AnnotateOptions} :
    annotate body r o = .ok annotated ↔
      ∃ l, layoutOf body = .ok l ∧ annotateWith l body r o = annotated := by
  unfold annotate
  cases layoutOf body <;> simp [Except.map]

/-- An accepted program has the layout of its scan. -/
theorem layoutOf_of_scan {body : Text} {s : Scan} (h : scan body = .ok (.ok s)) :
    layoutOf body = .ok s.layout := by
  unfold layoutOf
  rw [h]
  rfl

/-- An accepted program is annotated along the layout of its scan. -/
theorem annotate_of_scan {body : Text} {s : Scan} (h : scan body = .ok (.ok s)) (r : EvalResult)
    (o : AnnotateOptions) : annotate body r o = .ok (annotateWith s.layout body r o) :=
  annotate_eq_ok.2 ⟨s.layout, layoutOf_of_scan h, rfl⟩

end Marginalia
