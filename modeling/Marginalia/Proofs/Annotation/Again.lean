import Marginalia.Proofs.Annotation.Removal

/-!
# Annotating again

What becomes of a program that is annotated with the same result once more. The program without the
blanks at the ends of annotated lines (`cleaned`) gives the same annotated program, if the same
lines of it may be annotated (`annotateWith_cleaned`). And what becomes of the appended lines
depends on whether they are seen as comments (`keptBelow`).
-/

namespace Marginalia

open Source

/-- A list that is made of numbered elements is numbered in the same way. -/
theorem zipIdx_map_zipIdx {α β : Type} (f : α × Nat → β) (xs : List α) (n : Nat) :
    ((xs.zipIdx n).map f).zipIdx n = (xs.zipIdx n).map fun x => (f x, x.2) := by
  induction xs generalizing n with
  | nil => rfl
  | cons x xs ih => rw [List.zipIdx_cons, List.map_cons, List.zipIdx_cons, ih, List.map_cons]

section Again

variable {l found : Layout} {body : Text} {r : EvalResult} {alignment : Alignment} {x : Text × Nat}

/-! ## Lines of the program -/

/-- The program without the blanks that stand at the ends of annotated lines. -/
def cleaned (l : Layout) (r : EvalResult) (body : Text) : Text :=
  ((numberedPieces body).map (keptLine l r)).flatMap Kept.text

/-- Code does not end in an end of a line. -/
theorem lineEnd_ne_of_codeOf (piece : Text) :
    ∀ c, (codeOf piece).getLast? = some c → c ≠ '\n' ∧ c ≠ '\r' := by
  intro c hc
  have visible := Text.getLast?_dropEndWhile hc
  constructor
  all_goals
    rintro rfl
    revert visible
    decide

/-- A line that is kept has the code that it had. -/
theorem codeOf_keptLine (l : Layout) (r : EvalResult) (x : Text × Nat) :
    codeOf (keptLine l r x).text = codeOf x.1 := by
  unfold keptLine
  split
  · show Text.trimEnd (Text.lineText (codeOf x.1 ++ Text.terminator x.1)) = codeOf x.1
    rw [Text.lineText_append_terminator_of x.1 (lineEnd_ne_of_codeOf x.1)]
    exact Text.trimEnd_trimEnd _
  · rfl

/-- A line that is kept has the terminator that it had. -/
theorem terminator_keptLine (l : Layout) (r : EvalResult) (x : Text × Nat) :
    Text.terminator (keptLine l r x).text = Text.terminator x.1 := by
  unfold keptLine
  split
  · exact Text.terminator_append_terminator x.1 (lineEnd_ne_of_codeOf x.1)
  · rfl

/-- A line that is kept is blank just if it was. -/
theorem isBlankText_keptLine (l : Layout) (r : EvalResult) (x : Text × Nat) :
    Text.isBlankText (keptLine l r x).text = Text.isBlankText x.1 := by
  rw [← isBlankText_codeOf, codeOf_keptLine, isBlankText_codeOf]

/-- A line that is kept is a line. -/
theorem isLine_keptLine (closed : body.Closed) (hx : x ∈ numberedPieces body) :
    Text.IsLine (keptLine l r x).text := by
  have isLine : Text.IsLine x.1 := by
    apply closed.isLine
    rw [← map_numberedPieces]
    exact List.mem_map_of_mem hx
  unfold keptLine
  split
  · exact (Text.isLine_terminator isLine).2.append (lineFeed_notMem_codeOf isLine)
  · exact isLine

/-- The lines of what is left are those that are kept. -/
theorem pieces_cleaned (closed : body.Closed) :
    Text.pieces (cleaned l r body) = (numberedPieces body).map fun x => (keptLine l r x).text := by
  have lines : ∀ p ∈ (numberedPieces body).map fun x => (keptLine l r x).text, Text.IsLine p := by
    intro p hp
    obtain ⟨x, hx, rfl⟩ := List.mem_map.1 hp
    exact isLine_keptLine closed hx
  rw [cleaned, List.flatMap_map, List.flatMap_def]
  exact Text.pieces_flatten lines

/-- The lines that are kept have the numbers that they had. -/
theorem numberedPieces_cleaned (closed : body.Closed) : numberedPieces (cleaned l r body) =
    (numberedPieces body).map fun x => ((keptLine l r x).text, x.2) := by
  rw [numberedPieces, pieces_cleaned closed]
  exact zipIdx_map_zipIdx _ _ 1

/-! ## Annotating what is left -/

/-- The lines that may be annotated are the same. -/
def SameOpen (found l : Layout) (body : Text) : Prop :=
  ∀ x ∈ numberedPieces body, isAnnotatable found x.2 = isAnnotatable l x.2

/-- A line that is kept tells of itself what it did. -/
theorem lineInfo_keptLine (same : isAnnotatable found x.2 = isAnnotatable l x.2) :
    lineInfo found (keptLine l r x).text x.2 = lineInfo l x.1 x.2 := by
  unfold lineInfo
  rw [codeOf_keptLine, isBlankText_keptLine, same]

/-- The lines that are kept have the columns that they had. -/
theorem rows_cleaned (closed : body.Closed) (same : SameOpen found l body) :
    rows found (cleaned l r body) alignment =
      (rows l body alignment).map fun row => (((keptLine l r row.1).text, row.1.2), row.2) := by
  have infos : (numberedPieces (cleaned l r body)).map (fun x => lineInfo found x.1 x.2) =
      (numberedPieces body).map fun x => lineInfo l x.1 x.2 := by
    rw [numberedPieces_cleaned closed, List.map_map]
    exact List.map_congr_left fun x hx => lineInfo_keptLine (same x hx)
  show (numberedPieces (cleaned l r body)).zip (alignment.columns
    ((numberedPieces (cleaned l r body)).map fun x => lineInfo found x.1 x.2)) = _
  rw [infos, numberedPieces_cleaned closed, List.zip_map_left]
  rfl

/-- A line that is kept is annotated as it was. -/
theorem renderLine_keptLine (o : AnnotateOptions) (column : Nat)
    (same : isAnnotatable found x.2 = isAnnotatable l x.2) :
    renderLine found r o column x.2 (keptLine l r x).text = renderLine l r o column x.2 x.1 := by
  have hwritten : written found r x.2 = written l r x.2 := by
    unfold written
    rw [same]
  cases h : written l r x.2 with
  | some cs =>
    have hpadding : padding column (keptLine l r x).text = padding column x.1 := by
      unfold padding
      rw [codeOf_keptLine]
    rw [renderLine_of_written o h, renderLine_of_written o (hwritten.trans h), hpadding,
      codeOf_keptLine, terminator_keptLine]
  | none =>
    have whole : keptLine l r x = .whole x.1 := by
      unfold keptLine
      rw [h]
      rfl
    rw [renderLine_of_not_written o h, renderLine_of_not_written o (hwritten.trans h), whole]
    rfl

/-- Annotating what is left of a program gives the annotated program. -/
theorem annotateWith_cleaned (closed : body.Closed) (same : SameOpen found l body) :
    annotateWith found (cleaned l r body) r (.aligned alignment) =
      annotateWith l body r (.aligned alignment) := by
  have lines : annotatedLines found (cleaned l r body) r (.aligned alignment) =
      annotatedLines l body r (.aligned alignment) := by
    rw [annotatedLines_eq, annotatedLines_eq]
    show (rows found (cleaned l r body) alignment).map _ = (rows l body alignment).map _
    rw [rows_cleaned closed same, List.map_map]
    apply List.map_congr_left
    intro row hrow
    exact renderLine_keptLine (x := row.1) _ row.2 (same row.1 (mem_pieces_of_mem_rows hrow))
  unfold annotateWith
  rw [lines]

/-- An annotated program is closed, if the program is. -/
theorem closed_annotateWith (closed : body.Closed) :
    Text.Closed (annotateWith l body r (.aligned alignment)) := by
  rw [← Text.flatten_pieces (annotateWith l body r (.aligned alignment)),
    pieces_annotateWith rfl closed, pieces_appended]
  apply Text.closed_flatten
  rw [List.forall_mem_append]
  constructor
  · intro p hp
    obtain ⟨row, hrow, rfl⟩ := List.mem_map.1 hp
    exact (isLine_renderLine Markers.oneLine_default (isLine_of_mem_rows closed hrow)).closed
  · intro p hp
    obtain ⟨t, -, rfl⟩ := List.mem_map.1 hp
    exact .inr List.getLast?_concat

/-! ## What is left of an annotated program -/

/-- The comment that is known of an appended line. Appended lines are not seen as comments if the
end of the program is no code. -/
def appendedRemark (seen : Bool) (piece : Text) : Option (Int × Text) :=
  if seen then blockRemark piece else none

/-- What becomes of the appended lines. -/
def keptBelow (seen : Bool) (r : EvalResult) : List Kept :=
  (appendedLines r).map fun t => keptOf {} (t ++ ['\n']) (appendedRemark seen (t ++ ['\n']))

/-- Appended lines that are seen go. -/
theorem isTail_keptBelow (falls : ∀ t ∈ appendedLines r, Falls t) :
    ∀ k ∈ keptBelow true r, k.isTail := by
  unfold keptBelow
  rw [List.forall_mem_map]
  exact fun t ht => (isTail_keptOf_block (lineFeed_notMem_appendedLines ht)).2 (falls t ht)

/-- Of the appended lines one is dropped, if there are any. -/
theorem dropped_mem_keptBelow (some : appendedLines r ≠ []) : .dropped ∈ keptBelow true r := by
  obtain ⟨t, ht, marked⟩ := exists_isAnnotation_of_appendedLines some
  rcases keptOf_block (lineFeed_notMem_appendedLines ht) with ⟨dropped, -⟩ | ⟨-, unmarked⟩
  · exact dropped ▸ List.mem_map_of_mem ht
  · exact absurd marked unmarked

end Again

/-! ## The lines of a cleaned program -/

section Cleaning

variable {body prepared piece : Text} {l : Layout} {m : Markers} {start line : Nat} {ks : List Kept}

/-- What is kept of a line is closed. -/
theorem closed_keepLine {k : Kept} (isLine : Text.IsLine piece)
    (h : keepLine body l m start line piece = .ok k) : k.text.Closed := by
  unfold keepLine at h
  split at h
  · cases h
    exact isLine.closed
  · split at h
    · dsimp only at h
      split at h
      · cases h
        split
        · exact .inl rfl
        · obtain ⟨code, ends⟩ := Text.isLine_terminator isLine
          exact (ends.append (Text.notMem_trimEnd fun hm => code (List.mem_of_mem_take hm))).closed
      · cases h
    · cases h
      exact isLine.closed

/-- What is kept of lines is closed. -/
theorem closed_keepLines {ps : List Text} (isLine : ∀ p ∈ ps, Text.IsLine p)
    (h : keepLines body l m start line ps = .ok ks) : ∀ k ∈ ks, k.text.Closed := by
  induction ps generalizing start line ks with
  | nil =>
    cases h
    exact nofun
  | cons p ps ih =>
    rw [List.forall_mem_cons] at isLine
    rw [keepLines] at h
    cases hk : keepLine body l m start line p with
    | error e => rw [hk] at h; cases h
    | ok k =>
      rw [hk] at h
      cases hks : keepLines body l m (start + p.length) (line + 1) ps with
      | error e => simp only [hks] at h; cases h
      | ok rest =>
        simp only [hks] at h
        cases h
        rw [List.forall_mem_cons]
        exact ⟨closed_keepLine isLine.1 hk, ih isLine.2 hks⟩

theorem mem_of_mem_dropTail {k : Kept} (h : k ∈ dropTail ks) : k ∈ ks := by
  unfold dropTail at h
  dsimp only at h
  split at h
  · obtain ⟨s, hs, -⟩ := Text.eq_dropEndWhile_append Kept.isTail ks
    rw [hs]
    exact List.mem_append_left s h
  · exact h

/-- A program that ends with its lines does so after it has been cleaned. -/
theorem closed_removeAnnotations (closed : body.Closed)
    (h : removeAnnotations body m = .ok prepared) :
    prepared.Closed := by
  obtain ⟨e, -, rfl⟩ | ⟨s, -, h⟩ := removeAnnotations_eq_ok h
  · exact closed
  · obtain ⟨ks, hks, rfl⟩ : ∃ ks, keepLines body s.layout m 0 1 (Text.pieces body) = .ok ks ∧
        (dropTail ks).flatMap Kept.text = prepared := by
      unfold removeWith at h
      cases hks : keepLines body s.layout m 0 1 (Text.pieces body) with
      | error e => rw [hks] at h; cases h
      | ok ks => rw [hks] at h; exact ⟨ks, rfl, Except.ok.inj h⟩
    rw [List.flatMap_def]
    apply Text.closed_flatten
    intro p hp
    obtain ⟨k, hk, rfl⟩ := List.mem_map.1 hp
    exact closed_keepLines closed.isLine hks k (mem_of_mem_dropTail hk)

end Cleaning

end Marginalia
