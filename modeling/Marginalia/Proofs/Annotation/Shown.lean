import Mathlib.Data.List.Nodup
import Marginalia.Proofs.Annotation.Lines
import Marginalia.Proofs.Source.Accepted

/-!
# What annotating leaves

An annotated program begins with a line for each line of the program
(`pieces_flatten_annotatedLines`), whether the program is accepted or not and whether its last line
is finished or not. A line is either what it was, or its code with an annotation and the end that it
had. The captures that are not shown are those of the hidden lines (`mem_hiddenLines`). The main
statement, `annotate_leaves`, says all this of every program that can be scanned.
-/

namespace Marginalia

open Source

/-- A line shows what was captured for it: it ends in code and has no comment. -/
def Shows (l : Layout) (r : EvalResult) (line : Nat) : Prop :=
  (recorded r line).isSome ∧ l.endsInCode line ∧ l.commentOn line = none

instance (l : Layout) (r : EvalResult) (line : Nat) : Decidable (Shows l r line) :=
  inferInstanceAs (Decidable (_ ∧ _ ∧ _))

section Lines

variable {l : Layout} {body : Text} {r : EvalResult} {o : AnnotateOptions} {x : Text × Nat}
  {line : Text}

/-- A line shows something just if something is written for it. -/
theorem shows_iff_written {line : Nat} : Shows l r line ↔ (written l r line).isSome := by
  rw [Shows, ← isAnnotatable_iff, written]
  cases recorded r line with
  | none => simp
  | some cs => cases isAnnotatable l line <;> simp [Option.filter]

/-- The lines of the program, whatever is written behind them, are the pieces of what they make. -/
theorem pieces_flatten_annotatedLines (plain : o.markers.OneLine) :
    Text.pieces (annotatedLines l body r o).flatten = annotatedLines l body r o := by
  rw [annotatedLines_eq]
  apply Text.pieces_flatten_map (map_rows_pieces l body o.alignment)
  · exact fun row _ isLine => isLine_renderLine plain isLine
  · intro row hrow noLineFeed
    cases h : written l r row.1.2 with
    | none =>
      rw [renderLine_of_not_written o h]
      refine ⟨noLineFeed, Text.ne_nil_of_mem_pieces (t := body) ?_⟩
      rw [← map_rows_pieces l body o.alignment]
      exact List.mem_map_of_mem hrow
    | some cs =>
      obtain ⟨blanks, -, parts⟩ := exists_eq_codeOf_append row.1.1
      rw [← parts, List.mem_append, List.mem_append, not_or, not_or] at noLineFeed
      rw [renderLine_of_written o h]
      constructor
      · simp only [List.mem_append, not_or]
        exact ⟨⟨⟨noLineFeed.1.1, oneLine_padding.notMem⟩, (oneLine_renderCaptures plain cs).notMem⟩,
          noLineFeed.2⟩
      · simp [padding_ne_nil]

/-- The lines of the annotated program stand in the order of the lines they are made of. -/
theorem exists_column_of_mem_zip
    (h : (x, line) ∈ (numberedPieces body).zip (annotatedLines l body r o)) :
    ∃ column, (x, column) ∈ rows l body o.alignment ∧ renderLine l r o column x.2 x.1 = line := by
  rw [annotatedLines_eq, ← map_rows l body o.alignment, List.zip_map'] at h
  obtain ⟨⟨x', column⟩, hrow, same⟩ := List.mem_map.1 h
  obtain ⟨rfl, rfl⟩ := Prod.mk.inj same
  exact ⟨column, hrow, rfl⟩

/-- A line that shows its captures: its code, blanks up to its column, the annotation, and its
end. -/
theorem exists_annotation_of_mem_zip
    (h : (x, line) ∈ (numberedPieces body).zip (annotatedLines l body r o))
    (shows : Shows l r x.2) : ∃ column cs n, (x, column) ∈ rows l body o.alignment ∧
      recorded r x.2 = some cs ∧ 2 ≤ n ∧
      (codeOf x.1).length + n = max column ((codeOf x.1).length + 2) ∧
      line = codeOf x.1 ++ List.replicate n ' ' ++ renderCaptures o cs ++ Text.terminator x.1 := by
  obtain ⟨column, hrow, rfl⟩ := exists_column_of_mem_zip h
  obtain ⟨cs, hcs⟩ := Option.isSome_iff_exists.1 (shows_iff_written.1 shows)
  exact ⟨column, cs, max column ((codeOf x.1).length + 2) - (codeOf x.1).length, hrow,
    (Option.filter_eq_some_iff.1 hcs).1, by omega, by omega, renderLine_of_written o hcs⟩

/-- A line that shows nothing is left as it is. -/
theorem eq_of_mem_zip_of_not_shows
    (h : (x, line) ∈ (numberedPieces body).zip (annotatedLines l body r o))
    (hides : ¬ Shows l r x.2) : line = x.1 := by
  obtain ⟨column, -, rfl⟩ := exists_column_of_mem_zip h
  rw [shows_iff_written, Option.not_isSome_iff_eq_none] at hides
  exact renderLine_of_not_written o hides

theorem mem_numbers {n : Nat} :
    n ∈ (numberedPieces body).map Prod.snd ↔ 1 ≤ n ∧ n ≤ Text.lineCount body := by
  rw [numberedPieces, List.zipIdx_map_snd, List.mem_range'_1, Text.lineCount]
  omega

/-- Without captures every line stays. -/
theorem flatten_annotatedLines_of_unrecorded
    (unrecorded : ∀ n, 1 ≤ n → n ≤ Text.lineCount body → recorded r n = none) :
    (annotatedLines l body r o).flatten = body := by
  have same : annotatedLines l body r o = (rows l body o.alignment).map fun row => row.1.1 := by
    rw [annotatedLines_eq]
    refine List.map_congr_left fun row hrow => renderLine_of_not_written o ?_
    have number := mem_numbers.1 (List.mem_map_of_mem (mem_pieces_of_mem_rows hrow))
    rw [written, unrecorded _ number.1 number.2]
    rfl
  rw [same, map_rows_pieces, Text.flatten_pieces]

end Lines

section Answers

variable {body : Text} {r : EvalResult} {o : AnnotateOptions}

/-- A program can be annotated just if it can be scanned, be it accepted or refused. -/
theorem annotate_answers_iff :
    (∃ annotated, annotate body r o = .ok annotated) ↔ ∃ answer, scan body = .ok answer := by
  unfold annotate layoutOf
  cases scan body <;> simp [Except.map]

/-- The hidden lines are those with a record that may have no annotation. -/
theorem hiddenLines_eq_ok {hidden : List Nat} : hiddenLines body r = .ok hidden ↔
    ∃ l, layoutOf body = .ok l ∧ (((numberedPieces body).map Prod.snd).filter fun line =>
      (recorded r line).isSome && !isAnnotatable l line) = hidden := by
  unfold hiddenLines
  cases layoutOf body <;> simp [Except.map]

theorem mem_hiddenLines {l : Layout} {hidden : List Nat} (layout : layoutOf body = .ok l)
    (h : hiddenLines body r = .ok hidden) {n : Nat} : n ∈ hidden ↔
      (1 ≤ n ∧ n ≤ Text.lineCount body ∧ (recorded r n).isSome) ∧ isAnnotatable l n = false := by
  obtain ⟨l', layout', rfl⟩ := hiddenLines_eq_ok.1 h
  obtain rfl : l = l' := Except.ok.inj (layout.symm.trans layout')
  rw [List.mem_filter, mem_numbers, Bool.and_eq_true, Bool.not_eq_true', and_assoc, and_assoc,
    and_assoc]

/-- The hidden lines are in order. -/
theorem pairwise_hiddenLines {hidden : List Nat} (h : hiddenLines body r = .ok hidden) :
    hidden.Pairwise (· < ·) := by
  obtain ⟨l, -, rfl⟩ := hiddenLines_eq_ok.1 h
  rw [numberedPieces, List.zipIdx_map_snd]
  exact (List.pairwise_lt_range' 1).filter _

end Answers

/-! ## Whole programs -/

/-- What annotating leaves of a program with a layout: the lines of the annotated program that stand
for those of the program, and the lines whose captures are hidden. -/
structure Leaves (l : Layout) (body : Text) (r : EvalResult) (o : AnnotateOptions)
    (annotated : Text) (lines : List Text) (hidden : List Nat) : Prop where
  begins : annotated = lines.flatten ++ (stdoutBlock o.markers r ++ exceptionBlock o.markers r)
  length : lines.length = (Text.pieces body).length
  cut : Text.pieces lines.flatten = lines
  /-- Below a program that ends with its lines, the blocks do not touch the last of them. -/
  closed : body.Closed → (Text.pieces annotated).take lines.length = lines
  terminator : ∀ x line, (x, line) ∈ (numberedPieces body).zip lines →
    Text.terminator line = Text.terminator x.1
  /-- The code, two blanks at least, one annotation without line ends, and the end of the line. -/
  shown : ∀ x line, (x, line) ∈ (numberedPieces body).zip lines → Shows l r x.2 →
    ∃ cs n, recorded r x.2 = some cs ∧ (renderCaptures o cs).OneLine ∧ 2 ≤ n ∧
      line = codeOf x.1 ++ List.replicate n ' ' ++ renderCaptures o cs ++ Text.terminator x.1
  others : ∀ x line, (x, line) ∈ (numberedPieces body).zip lines → ¬ Shows l r x.2 → line = x.1
  ascending : hidden.Pairwise (· < ·)
  /-- A line of the program that has captures is either annotated or hidden. -/
  split : ∀ n, n ∈ hidden ↔
    (1 ≤ n ∧ n ≤ Text.lineCount body ∧ (recorded r n).isSome) ∧ ¬ Shows l r n
  untouched : (∀ n, 1 ≤ n → n ≤ Text.lineCount body → recorded r n = none) → r.stdout = [] →
    r.exceptions = [] → annotated = body

section Whole

variable {l : Layout} {body : Text} {r : EvalResult} {o : AnnotateOptions} {hidden : List Nat}

/-- Annotating leaves all but what it should write. -/
theorem leaves_annotateWith (plain : o.markers.OneLine) (layout : layoutOf body = .ok l)
    (hhidden : hiddenLines body r = .ok hidden) :
    Leaves l body r o (annotateWith l body r o) (annotatedLines l body r o) hidden where
  begins := by rw [annotateWith, List.append_assoc]
  length := length_annotatedLines ..
  cut := pieces_flatten_annotatedLines plain
  closed closed := by
    have isLine : ∀ p ∈ annotatedLines l body r o, Text.IsLine p := by
      intro p hp
      obtain ⟨row, hrow, rfl⟩ := List.mem_map.1 hp
      exact isLine_renderLine plain (isLine_of_mem_rows closed hrow)
    rw [annotateWith, List.append_assoc, Text.pieces_append isLine, List.take_left]
  terminator x line hx := by
    obtain ⟨column, -, rfl⟩ := exists_column_of_mem_zip hx
    exact terminator_renderLine plain
  shown x line hx shows := by
    obtain ⟨column, cs, n, -, hcs, two, -, hline⟩ := exists_annotation_of_mem_zip hx shows
    exact ⟨cs, n, hcs, oneLine_renderCaptures plain cs, two, hline⟩
  others x line hx hides := eq_of_mem_zip_of_not_shows hx hides
  ascending := pairwise_hiddenLines hhidden
  split n := by
    rw [mem_hiddenLines layout hhidden, ← Bool.not_eq_true, isAnnotatable_iff, Shows]
    exact and_congr_right fun range => by rw [and_iff_right range.2.2]
  untouched unrecorded silent calm := by
    have output : stdoutBlock o.markers r = [] := by rw [stdoutBlock, silent]; rfl
    have exception : exceptionBlock o.markers r = [] := by
      rw [exceptionBlock, EvalResult.lastException, calm]
      rfl
    rw [annotateWith, output, exception, List.append_nil, List.append_nil,
      flatten_annotatedLines_of_unrecorded unrecorded]

end Whole

/-- A program can be annotated just if it can be scanned, be it accepted or refused. Whatever was
captured, the annotated program then begins with the lines of the program, each with its own end and
unchanged unless it shows its captures, and the captures of the other lines are hidden. -/
theorem annotate_leaves {body : Text} {r : EvalResult} {o : AnnotateOptions}
    (plain : o.markers.OneLine) :
    ((∃ annotated, annotate body r o = .ok annotated) ↔ ∃ answer, scan body = .ok answer) ∧
    ∀ annotated, annotate body r o = .ok annotated → ∃ l lines hidden,
      layoutOf body = .ok l ∧ hiddenLines body r = .ok hidden ∧
        Leaves l body r o annotated lines hidden := by
  refine ⟨annotate_answers_iff, fun annotated annotates => ?_⟩
  obtain ⟨l, layout, rfl⟩ := annotate_eq_ok.1 annotates
  have hhidden := (hiddenLines_eq_ok (r := r)).2 ⟨l, layout, rfl⟩
  exact ⟨l, _, _, layout, hhidden, leaves_annotateWith plain layout hhidden⟩

/-- A string over two lines, a comment, a last line that is not finished, and captures with line
ends and beyond the end of the program. -/
theorem annotate_leaves_unfinished :
    let body := "s = \"a\nb\"\r\nx = 1 # keep\ny = 2".toList
    let r : EvalResult :=
      .ofEvents none [.value 1 "s".toList, .value 2 "\"a\nb\"".toList, .value 3 "1".toList,
      .exception 4 "E".toList "m\r\nn".toList [], .value 9 "z".toList, .stdout "o\n".toList]
    let o : AnnotateOptions :=
      { alignment := .line, maxLength := some 12, markers := { exception := "# ! ".toList } }
    let annotated := "s = \"a\nb\"  # => \"a\\nb\"\r\nx = 1 # keep\ny = 2  # ! E: m\\...".toList ++
      "\n# >> o\n\n# ! E\n# ! m\n# ! n\n".toList
    o.markers.OneLine ∧ annotate body r o = .ok annotated ∧
      ∃ hidden, hiddenLines body r = .ok hidden ∧ 3 ∈ hidden ∧ 4 ∉ hidden := by
  intro body r o annotated
  have checked : ∃ s ∈ scanFor 60 body, annotateWith s.layout body r o = annotated ∧
      s.layout.commentOn 3 ≠ none ∧ s.layout.endsInCode 4 ∧ s.layout.commentOn 4 = none := by
    decide +kernel
  obtain ⟨s, hs, hannotated, commented, code, uncommented⟩ := checked
  have accepted := scan_of_scanFor hs
  have plain : o.markers.OneLine := by decide
  have annotates : annotate body r o = .ok annotated := by
    rw [annotate_of_scan accepted, hannotated]
  obtain ⟨l, lines, hidden, layout, hhidden, leaves⟩ := (annotate_leaves plain).2 _ annotates
  obtain rfl : s.layout = l := Except.ok.inj ((layoutOf_of_scan accepted).symm.trans layout)
  have third : 3 ∈ hidden := (leaves.split 3).2 ⟨by decide +kernel, fun h => commented h.2.2⟩
  have fourth : 4 ∉ hidden :=
    fun h => ((leaves.split 4).1 h).2 ⟨by decide +kernel, code, uncommented⟩
  exact ⟨plain, annotates, hidden, hhidden, third, fourth⟩

/-- A character of two bytes behind `$-` is cut by the tokenizer, and the program cannot be
annotated, even though there is nothing to write. -/
theorem annotate_leaves_split :
    let body := "$-é\n".toList
    ({} : AnnotateOptions).markers.OneLine ∧ annotate body {} {} = .error (.splitCharacter 0) := by
  intro body
  have broken : ∃ t ∈ Tokenizer.runFor 20 (.ofSource body),
      Scan.ofTokens body t = .error (.splitCharacter 0) := by decide +kernel
  obtain ⟨t, ht, hbroken⟩ := broken
  have scanned : scan body = .error (.splitCharacter 0) := by
    rw [scan, tokenize, Tokenizer.run_eq_of_runFor ht, hbroken]
  refine ⟨Markers.oneLine_default, ?_⟩
  rw [annotate, layoutOf, scanned]
  rfl

end Marginalia
