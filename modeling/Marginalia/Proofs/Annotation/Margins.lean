import Marginalia.Proofs.Annotation.Lines
import Marginalia.Proofs.Source.Comments
import Marginalia.Proofs.Source.MarginLines

/-!
# Margins of annotated programs

An annotated program has the lines of the program with other margins: behind the code of an
annotated line stand blanks and a comment, and below the last line the appended lines
(`lines_annotatedMargins`). So the tokenizer walks over both side by side.
-/

namespace Marginalia

open Source Tokenizer

/-- A line of a program, counted from 1. -/
def lineOfBody (body : Text) (line : Nat) : Text := (Text.pieces body)[line - 1]?.getD []

/-- The comment that is written on a line, with the carriage returns before the end of the line. -/
def writtenComment (l : Layout) (body : Text) (r : EvalResult) (o : AnnotateOptions) (line : Nat) :
    Option Text :=
  (written l r line).map fun cs =>
    renderCaptures o cs ++ (Text.terminator (lineOfBody body line)).dropLast

section Lines

variable {l : Layout} {body : Text} {r : EvalResult} {alignment : Alignment} {cs : List Capture}
  {column line : Nat} {piece : Text}

/-- The end of a finished line is a line feed behind carriage returns. -/
theorem terminator_eq (h : Text.IsLine piece) :
    Text.terminator piece = (Text.terminator piece).dropLast ++ ['\n'] ∧
      (∀ c ∈ (Text.terminator piece).dropLast, c = '\r') := by
  obtain ⟨t, ht, heq⟩ := (Text.isLine_terminator h).2
  have all := List.all_eq_true.1 (Text.terminator_all piece)
  rw [heq, List.dropLast_concat]
  refine ⟨rfl, fun c hc => ?_⟩
  have hend := all c (by rw [heq]; exact List.mem_append_left _ hc)
  rw [Bool.or_eq_true, beq_iff_eq, beq_iff_eq] at hend
  exact hend.resolve_left fun h => ht (h ▸ hc)

/-- A line is found by its number. -/
theorem lineOfBody_eq (h : (piece, line) ∈ numberedPieces body) : lineOfBody body line = piece := by
  obtain ⟨h1, h2, h3⟩ := List.mem_zipIdx h
  unfold lineOfBody
  rw [h3, List.getElem?_eq_getElem]
  rfl

theorem mem_pieces_of_mem_numberedPieces {x : Text × Nat} (h : x ∈ numberedPieces body) :
    x.1 ∈ Text.pieces body := by
  rw [← map_numberedPieces]
  exact List.mem_map_of_mem h

/-- Padding is made of spaces. -/
theorem eq_space_of_mem_padding {c : Char} (h : c ∈ padding column piece) : c = ' ' :=
  (List.mem_replicate.1 h).2

/-- Padding starts with a space. -/
theorem head?_padding : (padding column piece).head? = some ' ' := by
  have some : 0 < (padding column piece).length := by
    rw [padding, List.length_replicate]
    omega
  obtain ⟨c, t, ht⟩ := List.exists_cons_of_length_pos some
  have hc : c ∈ padding column piece := by
    rw [ht]
    exact List.mem_cons_self
  rw [ht, eq_space_of_mem_padding hc]
  rfl

/-- Code ends in a visible character. -/
theorem visible_codeOf {c : Char} (h : (codeOf piece).getLast? = some c) :
    Text.isAsciiBlank c = false :=
  isAsciiBlank_eq_false (Text.getLast?_dropEndWhile h)

/-- The comment that is written on a line of the program. -/
theorem writtenComment_of_written (hmem : (piece, line) ∈ numberedPieces body)
    (h : written l r line = some cs) (o : AnnotateOptions) : writtenComment l body r o line =
      some (renderCaptures o cs ++ (Text.terminator piece).dropLast) := by
  unfold writtenComment
  rw [h, lineOfBody_eq hmem]
  rfl

/-- A line with what is written on it. -/
theorem renderLine_of_writtenComment (hmem : (piece, line) ∈ numberedPieces body)
    (isLine : Text.IsLine piece) {o : AnnotateOptions} {c : Text}
    (h : writtenComment l body r o line = some c) :
    renderLine l r o column line piece = codeOf piece ++ padding column piece ++ (c ++ ['\n']) := by
  obtain ⟨cs, hw, -⟩ := Option.map_eq_some_iff.1 h
  rw [writtenComment_of_written hmem hw, Option.some.injEq] at h
  rw [renderLine_of_written _ hw, ← h]
  conv => lhs; rw [(terminator_eq isLine).1]
  simp only [List.append_assoc]

/-- Annotations are comments. -/
theorem isComment_writtenComment {c : Text} (closed : body.Closed)
    (h : writtenComment l body r (.aligned alignment) line = some c) :
    ∃ t, c = '#' :: t ∧ '\n' ∉ t := by
  obtain ⟨cs, hcs, rfl⟩ := Option.map_eq_some_iff.1 h
  have one : (renderCaptures (.aligned alignment) cs).OneLine :=
    oneLine_renderCaptures Markers.oneLine_default cs
  have ends : '\n' ∉ (Text.terminator (lineOfBody body line)).dropLast := by
    intro hm
    have piece : Text.IsLine (lineOfBody body line) := by
      unfold lineOfBody at hm ⊢
      cases hp : (Text.pieces body)[line - 1]? with
      | none =>
        rw [hp] at hm
        cases hm
      | some p => exact closed.isLine p (List.mem_of_getElem? hp)
    exact absurd ((terminator_eq piece).2 _ hm) (by decide)
  have none : '\n' ∉ renderCaptures (.aligned alignment) cs ++
      (Text.terminator (lineOfBody body line)).dropLast := by
    rw [List.mem_append, not_or]
    exact ⟨one.notMem, ends⟩
  obtain ⟨t, ht | ht⟩ := renderCaptures_eq alignment (ne_nil_of_written hcs)
  · rw [ht] at none ⊢
    exact ⟨_, rfl, fun hm => none (List.mem_cons_of_mem _ hm)⟩
  · rw [ht] at none ⊢
    exact ⟨_, rfl, fun hm => none (List.mem_cons_of_mem _ hm)⟩

/-- What is appended starts with an empty line. -/
theorem appended_cases (r : EvalResult) : appended r = [] ∨ ∃ t, appended r = '\n' :: t := by
  have block (marker : Text) (lines : List Text) (t : Text) :
    ∃ u, block marker lines ++ t = '\n' :: u := ⟨_, rfl⟩
  unfold appended stdoutBlock exceptionBlock
  split
  · split
    · rw [List.nil_append, ← List.append_nil (Marginalia.block _ _)]
      exact .inr (block _ _ [])
    · exact .inl rfl
  · exact .inr (block _ _ _)

/-- What is appended is a stop. -/
theorem stops_appended (r : EvalResult) : Stops (appended r) := by
  rcases appended_cases r with none | ⟨t, some⟩
  · rw [none]
    exact stops_nil
  · rw [some]
    exact stops_cons (by decide) t

end Lines

/-- What annotating changes at the ends of lines. The blanks behind the code of an annotated line
are of the given kind. -/
def annotatedMargins (l : Layout) (body : Text) (r : EvalResult) (alignment : Alignment)
    (closed : body.Closed) (tails : Text → Prop) (blank : ∀ u, tails u → Blanks u) : Margins where
  differs line := (written l r line).isSome
  ends u w := tails u ∧ (∀ c ∈ w, c = ' ') ∧ w.head? = some ' '
  comment := writtenComment l body r (.aligned alignment)
  last := 1 + (Text.pieces body).length
  below := appended r
  blanks u _ h := ⟨blank u h.1, fun c hc => by
    rw [h.2.1 c hc]
    decide⟩
  differs_of_comment n c h := by
    obtain ⟨cs, hcs, -⟩ := Option.map_eq_some_iff.1 h
    rw [hcs]
    rfl
  isComment n c h := isComment_writtenComment closed h
  stops := stops_appended r

/-- Behind the code of each annotated line stand blanks of the given kind. -/
def TailsOf (tails : Text → Prop) (l : Layout) (body : Text) (r : EvalResult) : Prop :=
  ∀ x ∈ numberedPieces body, (written l r x.2).isSome → ∃ u, tails u ∧
    x.1 = codeOf x.1 ++ (u ++ ['\n'])

section Margins

variable {l : Layout} {body : Text} {r : EvalResult} {alignment : Alignment} {closed : body.Closed}
  {tails : Text → Prop} {blank : ∀ u, tails u → Blanks u}

/-- The rows are numbered from one. -/
theorem numbers_rows (l : Layout) (body : Text) (alignment : Alignment) :
    (rows l body alignment).map (·.1.2) = List.range' 1 (rows l body alignment).length := by
  have same := congrArg (List.map Prod.snd) (map_rows l body alignment)
  rw [List.map_map] at same
  refine same.trans ?_
  rw [length_rows, numberedPieces, List.zipIdx_map_snd]

/-- The annotated program is the program with these margins. -/
theorem lines_annotatedMargins (ends : TailsOf tails l body r) :
    (annotatedMargins l body r alignment closed tails blank).Lines 1 (Text.pieces body)
      (annotatedLines l body r (.aligned alignment)) := by
  rw [← map_rows_pieces l body alignment, annotatedLines_eq]
  refine Margins.lines_of_rows (fun row => row.1.2) (numbers_rows l body alignment)
    (by rw [length_rows]; rfl) fun row hrow => ?_
  obtain ⟨⟨piece, line⟩, column⟩ := row
  have hmem : (piece, line) ∈ numberedPieces body := mem_pieces_of_mem_rows hrow
  have isLine := closed.isLine piece (mem_pieces_of_mem_numberedPieces hmem)
  cases hw : written l r line with
  | none =>
    -- the line stays as it is
    dsimp only
    rw [renderLine_of_not_written _ hw]
    refine .same isLine fun differs => ?_
    change (written l r line).isSome at differs
    rw [hw] at differs
    cases differs
  | some cs =>
    have differs : (written l r line).isSome := by
      rw [hw]
      rfl
    have space : (padding column piece).head? = some ' ' := head?_padding
    obtain ⟨u, hu, whole⟩ := ends _ hmem differs
    have right : renderLine l r (.aligned alignment) column line piece = codeOf piece ++
        (padding column piece ++
          ((writtenComment l body r (.aligned alignment) line).getD [] ++ ['\n'])) := by
      rw [renderLine_of_writtenComment hmem isLine (writtenComment_of_written hmem hw _),
        writtenComment_of_written hmem hw, Option.getD_some, List.append_assoc]
    dsimp only at whole ⊢
    rw [right]
    conv => lhs; rw [whole]
    exact .margin differs ⟨hu, fun _ => eq_space_of_mem_padding, space⟩
      (fun _ h => by rw [h] at space; cases space)
      (lineFeed_notMem_codeOf isLine) fun c hc => visible_codeOf hc

/-- Where a program ends with its lines, the annotated program is its lines and what is below. -/
theorem annotateWith_eq (l : Layout) (body : Text) (r : EvalResult) (alignment : Alignment) :
    annotateWith l body r (.aligned alignment) =
      (annotatedLines l body r (.aligned alignment)).flatten ++ appended r :=
  List.append_assoc _ _ _

/-- The walks over the program and over the annotated program start side by side. -/
theorem along_annotatedMargins (ends : TailsOf tails l body r) :
    Along (annotatedMargins l body r alignment closed tails blank) (.ofSource body)
      (.ofSource (annotateWith l body r (.aligned alignment))) := by
  have lines : (annotatedMargins l body r alignment closed tails blank).Lines 1 (Text.pieces body)
      (annotatedLines l body r (.aligned alignment)) := lines_annotatedMargins ends
  have along := lines.along
  rw [Text.flatten_pieces] at along
  rw [annotateWith_eq]
  exact along

end Margins

section Accepted

variable {body : Text} {s : Scan} {r : EvalResult} {alignment : Alignment} {closed : body.Closed}
  {tails : Text → Prop} {blank : ∀ u, tails u → Blanks u}

/-- In a closed program, if no `$-` takes a line feed, no line feed is lost. -/
theorem whole_ofSource (closed : body.Closed) (accepted : scan body = .ok (.ok s))
    (undashed : ∀ t, Reaches (.ofSource body) t → ∀ a, t.cursor.rest ≠ '$' :: '-' :: '\n' :: a) :
    (Tokenizer.ofSource body).Whole where
  firstLine := Nat.le_refl _
  complete := by
    obtain ⟨_, -, complete, -⟩ := Scan.eq_of_scan accepted
    exact complete
  closed := closed
  undashed := undashed

/-- A line that may be annotated ends in code and has no comment. -/
theorem not_covers_of_isAnnotatable (accepted : scan body = .ok (.ok s)) {line : Nat}
    (open_ : isAnnotatable s.layout line) : ¬ Covers (tokenize body).found line ∧
      ∀ k ∈ (tokenize body).tokens, k.kind = .comment → k.line ≠ line := by
  obtain ⟨ends, none⟩ := isAnnotatable_iff.1 open_
  constructor
  · obtain ⟨_, -, -, rfl⟩ := Scan.eq_of_scan accepted
    exact not_covers_of_endsInCode ends
  · intro k hk comment here
    unfold Layout.commentOn at none
    rw [List.find?_eq_none, comments_of_scan accepted] at none
    refine none ⟨k.line, k.start, k.stop⟩ ?_ (by rw [here]; exact beq_self_eq_true line)
    exact List.mem_map.2 ⟨k, List.mem_filter.2 ⟨hk, beq_iff_eq.2 comment⟩, rfl⟩

/-- Margins that differ on lines that may be annotated fit the program. -/
theorem fits_of_isAnnotatable {m : Margins} (accepted : scan body = .ok (.ok s))
    (open_ : ∀ n, m.differs n → isAnnotatable s.layout n) : Fits m (.ofSource body) where
  uncovered n differs := (not_covers_of_isAnnotatable accepted (open_ n differs)).1
  uncommented k hk comment differs :=
    (not_covers_of_isAnnotatable accepted (open_ _ differs)).2 k hk comment rfl

/-- Annotations stand only where the tokenizer comes to the end of a line of the program itself. -/
theorem fits_annotatedMargins (accepted : scan body = .ok (.ok s)) :
    Fits (annotatedMargins s.layout body r alignment closed tails blank) (.ofSource body) :=
  fits_of_isAnnotatable accepted fun _ differs => by
    obtain ⟨cs, hcs⟩ := Option.isSome_iff_exists.1 differs
    exact isAnnotatable_of_written hcs

end Accepted

end Marginalia
