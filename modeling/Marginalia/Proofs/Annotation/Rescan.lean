import Marginalia.Proofs.Annotation.Again
import Marginalia.Proofs.Annotation.Margins
import Marginalia.Proofs.Annotation.Remains
import Marginalia.Proofs.Source.Harmless

/-!
# Reading an annotated program

What a scan of an annotated program finds. Where the code of annotated lines is read alike whatever
follows it (`Legible`), the annotated program is accepted, and the comments of its lines are those
of the program, the annotations, and the appended lines unless the end mark hides them
(`remarks_annotateWith`). Without its annotations the program is accepted as well, with the same
lines for annotations (`exists_scan_cleaned`).
-/

namespace Marginalia

open Source Tokenizer

/-! ## The comment of a line -/

/-- The characters of the comment that is known of a line. -/
def textOn (body : Text) (l : Layout) (line : Nat) : Option Text :=
  (l.commentOn line).map (·.text body)

/-- A comment at the end of a line: in which column it starts, and its characters. -/
def endRemark (piece : Text) (known : Option Text) : Option (Int × Text) :=
  known.map fun x => (((piece.length - (x.length + 1) : Nat) : Int), x)

section Layout

variable {body piece x : Text} {before after : List Text} {s : Scan} {line : Nat}

/-- The remark at the end of a line stands behind its code. -/
theorem endRemark_line (code x : Text) :
    endRemark (code ++ (x ++ ['\n'])) (some x) = some ((code.length : Int), x) := by
  have column : (code ++ (x ++ ['\n'])).length - (x.length + 1) = code.length := by
    rw [List.length_append, List.length_append, List.length_singleton, Nat.add_sub_cancel]
  show some (_, _) = _
  rw [column]

/-- The comment from a column on is the one at the end of the line. -/
theorem trailing_of_line (code : Text) (h : '\n' ∉ x) :
    trailing code.length (code ++ (x ++ ['\n'])) = ((code.length : Int), x) := by
  rw [trailing, List.drop_left, takeWhile_line h]

/-- The text on a line is that of the comment that the tokenizer finds there. -/
theorem textOn_eq_some_iff (accepted : scan body = .ok (.ok s)) :
    textOn body s.layout line = some x ↔ HasComment (tokenize body).tokens line x := by
  unfold textOn
  rw [Option.map_eq_some_iff]
  constructor
  · rintro ⟨c, found, rfl⟩
    have here := beq_iff_eq.1 (List.find?_some (p := fun d : Comment => d.line == line) found)
    have hc := List.mem_of_find?_eq_some found
    rw [comments_of_scan accepted] at hc
    obtain ⟨k, hk, rfl⟩ := List.mem_map.1 hc
    obtain ⟨hk, comment⟩ := List.mem_filter.1 hk
    have comment := beq_iff_eq.1 comment
    exact ⟨k, hk, comment, here, (text_of_comment hk comment).symm⟩
  · rintro ⟨k, hk, comment, rfl, rfl⟩
    have hc : (⟨k.line, k.start, k.stop⟩ : Comment) ∈ s.layout.comments := by
      rw [comments_of_scan accepted]
      exact List.mem_map.2 ⟨k, List.mem_filter.2 ⟨hk, beq_iff_eq.2 comment⟩, rfl⟩
    exact ⟨_, commentOn_of_mem accepted hc, text_of_comment hk comment⟩

/-- All line feeds before a comment are counted if it stands on the line that it is numbered
with. -/
theorem counted_of_stands (accepted : scan body = .ok (.ok s))
    (stands : ∀ k ∈ (tokenize body).tokens, k.kind = .comment →
      k.line + Text.lineFeeds k.after = 1 + Text.lineFeeds body) :
    ∀ c ∈ s.layout.comments, Counted body c.start := by
  intro c hc
  obtain ⟨_, -, -, -, -, counted⟩ := comment_of_scan accepted hc
  rw [comments_of_scan accepted] at hc
  obtain ⟨k, hk, rfl⟩ := List.mem_map.1 hc
  obtain ⟨hk, comment⟩ := List.mem_filter.1 hk
  have comment := beq_iff_eq.1 comment
  obtain ⟨t, reach, rest, -, place, noLineFeed⟩ := exists_reaches_of_comment hk comment
  rw [(placed_of_reaches (placed_ofSource body) reach).cursor.rest, place] at rest
  have total := Text.lineFeeds_append (body.take k.start) (body.drop k.start)
  rw [List.take_append_drop, rest, Text.lineFeeds_append, Text.lineFeeds_eq_zero noLineFeed,
    Nat.zero_add] at total
  have here := stands k hk comment
  refine counted.1 ?_
  show k.line = Text.lineFeeds (body.take k.start) + 1
  omega

/-- A comment whose line is counted reaches to the end of that line. -/
theorem exists_eq_of_textOn (accepted : scan body = .ok (.ok s)) (closed : body.Closed)
    (counted : ∀ c ∈ s.layout.comments, Counted body c.start)
    (hp : Text.pieces body = before ++ piece :: after) {c : Comment}
    (found : s.layout.commentOn (before.length + 1) = some c) :
    ∃ code, piece = code ++ (c.text body ++ ['\n']) ∧
      c.start = before.flatten.length + code.length := by
  have hc : c ∈ s.layout.comments := List.mem_of_find?_eq_some found
  obtain ⟨text, -, -⟩ := comment_text_of_scan accepted hc
  obtain ⟨le, lt⟩ := (commentOn_iff accepted hp hc (counted c hc)).1 found
  obtain ⟨i, hi⟩ := Nat.exists_eq_add_of_le le
  obtain ⟨u, hu, rfl⟩ : Text.IsLine piece := closed.isLine piece (by rw [hp]; simp)
  rw [List.length_append, List.length_singleton] at lt
  have within : i ≤ u.length := by omega
  have behind : c.text body = u.drop i := by
    rw [text, hi, ← List.drop_drop, Text.drop_of_pieces hp, List.flatten_cons, List.append_assoc,
      List.drop_append_of_le_length within]
    exact takeWhile_line fun h => hu (List.mem_of_mem_drop h)
  refine ⟨u.take i, ?_, ?_⟩
  · rw [behind, ← List.append_assoc, List.take_append_drop]
  · rw [hi, List.length_take, Nat.min_eq_left within]

/-- The remark of a line is the one at its end. -/
theorem remark_eq (accepted : scan body = .ok (.ok s)) (closed : body.Closed)
    (counted : ∀ c ∈ s.layout.comments, Counted body c.start)
    (hp : Text.pieces body = before ++ piece :: after) :
    remark body s.layout before.flatten.length (before.length + 1) =
      endRemark piece (textOn body s.layout (before.length + 1)) := by
  unfold remark endRemark textOn
  cases found : s.layout.commentOn (before.length + 1) with
  | none => rfl
  | some c =>
    obtain ⟨code, rfl, start⟩ := exists_eq_of_textOn accepted closed counted hp found
    refine Eq.trans ?_ (endRemark_line code _).symm
    show some (_, _) = some (_, _)
    rw [start]
    congr 2
    omega

/-- The comments that are known of the lines of a program, if each of them stands on its line. -/
theorem remarks_eq (accepted : scan body = .ok (.ok s)) (closed : body.Closed)
    (counted : ∀ c ∈ s.layout.comments, Counted body c.start) :
    remarks body s.layout 0 1 (Text.pieces body) =
      (numberedPieces body).map fun p => endRemark p.1 (textOn body s.layout p.2) := by
  have rest (before after : List Text) (hp : Text.pieces body = before ++ after) :
      remarks body s.layout before.flatten.length (before.length + 1) after =
        (after.zipIdx (before.length + 1)).map fun p =>
          endRemark p.1 (textOn body s.layout p.2) := by
    induction after generalizing before with
    | nil => rfl
    | cons piece after ih =>
      have next := ih (before ++ [piece]) (by rw [hp, List.append_assoc]; rfl)
      rw [List.flatten_append, List.flatten_singleton, List.length_append, List.length_append,
        List.length_singleton] at next
      rw [remarks, remark_eq accepted closed counted hp, next, List.zipIdx_cons, List.map_cons]
  exact rest [] _ rfl

/-- A comment that stands on its line starts in that line. -/
theorem onLine_of_counted (accepted : scan body = .ok (.ok s)) (closed : body.Closed)
    (counted : ∀ c ∈ s.layout.comments, Counted body c.start) (m : Markers) :
    ∀ x ∈ (Text.pieces body).zip (remarks body s.layout 0 1 (Text.pieces body)),
      OnLine m x.1 x.2 := by
  rw [remarks_eq accepted closed counted]
  conv in Text.pieces body => rw [← map_numberedPieces]
  rw [List.zip_map']
  rintro _ hx
  obtain ⟨⟨piece, line⟩, mem, rfl⟩ := List.mem_map.1 hx
  rintro column comment known -
  obtain ⟨h1, h2, h3⟩ := List.mem_zipIdx mem
  have hp : Text.pieces body = (Text.pieces body).take (line - 1) ++
      piece :: (Text.pieces body).drop (line - 1 + 1) := by
    rw [h3, List.getElem_cons_drop, List.take_append_drop]
  have number : ((Text.pieces body).take (line - 1)).length + 1 = line := by
    rw [List.length_take]
    omega
  obtain ⟨x, hx, same⟩ := Option.map_eq_some_iff.1 known
  obtain ⟨c, found, rfl⟩ := Option.map_eq_some_iff.1 hx
  -- the comment stands behind the code of the line, and so before its end
  obtain ⟨code, split, -⟩ := exists_eq_of_textOn accepted closed counted hp (number.symm ▸ found)
  obtain ⟨-, hash, -⟩ := comment_text_of_scan accepted (List.mem_of_find?_eq_some found)
  obtain ⟨r, hr⟩ := List.head?_eq_some_iff.1 hash
  obtain ⟨rfl, rfl⟩ := Prod.mk.inj same
  dsimp only at split ⊢
  have within : code.length ≤ (Text.lineText piece).length := by
    rw [split, hr, List.cons_append, Text.lineText_append_visible code (by decide),
      List.length_append]
    exact Nat.le_add_right _ _
  have length := congrArg List.length split
  rw [List.length_append, List.length_append, List.length_singleton] at length
  omega

end Layout

/-! ## What is appended -/

/-- Every appended line is empty or a comment, if the name of the exception and the lines of its
backtrace are single lines. -/
theorem codeless_appendedLines {r : EvalResult}
    (oneLine : ∀ e, r.lastException = some e → ∀ t ∈ e.className :: e.backtrace, '\n' ∉ t) :
    ∀ t ∈ appendedLines r, Codeless t := by
  have starts : ∀ t ∈ appendedLines r, t = [] ∨ ∃ u, t = '#' :: u := by
    refine (forall_appendedLines (P := fun t => t = [] ∨ ∃ u, t = '#' :: u) r (.inl rfl) ?_).2 ?_
    · rintro marker (_ | ⟨_, _ | ⟨_, h⟩⟩)
      · exact ⟨.inr ⟨_, rfl⟩, fun t => .inr ⟨_, rfl⟩⟩
      · exact ⟨.inr ⟨_, rfl⟩, fun t => .inr ⟨_, rfl⟩⟩
      · cases h
    · intro e he t ht line hl
      rw [List.splitOn_eq_singleton (oneLine e he t ht)] at hl
      cases hl
  exact fun t ht => ⟨lineFeed_notMem_appendedLines ht, starts t ht⟩

/-- The first appended line is empty. -/
theorem head?_appendedLines {r : EvalResult} {t : Text} (h : (appendedLines r).head? = some t) :
    t = [] := by
  unfold appendedLines at h
  split at h
  · cases he : r.lastException with
    | none =>
      rw [he] at h
      cases h
    | some e =>
      rw [he] at h
      exact (Option.some.inj h).symm
  · exact (Option.some.inj h).symm

/-- What is appended are the appended lines. -/
theorem appended_eq (r : EvalResult) :
    appended r = ((appendedLines r).map (· ++ ['\n'])).flatten := by
  rw [← pieces_appended, Text.flatten_pieces]

/-- An appended line without code is a comment as a whole, unless it is empty. -/
theorem blockRemark_of_codeless {t : Text} (h : Codeless t) :
    blockRemark (t ++ ['\n']) = endRemark (t ++ ['\n']) (if t = [] then none else some t) := by
  rw [blockRemark_line h.1]
  rcases h.2 with rfl | ⟨u, rfl⟩
  · rfl
  · have visible : Text.isBlankText ('#' :: u) = false := rfl
    rw [visible, if_neg Bool.false_ne_true, if_neg (List.cons_ne_nil _ _)]
    exact (endRemark_line [] _).symm

/-! ## The annotated program -/

/-- A program whose lines, where something is written behind them, are read alike whatever stands
there; and what is appended holds no lines of its own. -/
structure Legible (l : Layout) (body : Text) (r : EvalResult) : Prop where
  undashed : ∀ t, Reaches (.ofSource body) t → ∀ a, t.cursor.rest ≠ '$' :: '-' :: '\n' :: a
  firm : ∀ t, Reaches (.ofSource body) t → (written l r t.cursor.line).isSome → t.Firm
  tails : TailsOf White l body r
  /-- Behind an annotated line that is blank, no line goes on with a call. -/
  quiet : ∀ x ∈ numberedPieces body, (written l r x.2).isSome → Text.isBlankText x.1 →
    leadingDot false ((Text.pieces body).drop x.2).flatten = false
  oneLine : ∀ e, r.lastException = some e → ∀ t ∈ e.className :: e.backtrace, '\n' ∉ t

section Annotated

variable {body : Text} {s t : Scan} {r : EvalResult}

/-- What annotating writes is harmless. -/
theorem harmless_annotateWith (alignment : Alignment) (closed : body.Closed)
    (accepted : scan body = .ok (.ok s)) (legible : Legible s.layout body r) :
    (annotatedMargins s.layout body r alignment closed White fun _ => White.blanks).Harmless body
      (annotatedLines s.layout body r (.aligned alignment)) (appendedLines r) where
  closed := closed
  whole := whole_ofSource closed accepted legible.undashed
  fits := fits_annotatedMargins accepted
  lines := lines_annotatedMargins legible.tails
  whitened _ _ ends := ⟨ends.1, fun c hc => .inl (ends.2.1 c hc)⟩
  firm := legible.firm
  quiet i x hx comment blank := by
    have mem : (x, 1 + i) ∈ numberedPieces body := by
      rw [Nat.add_comm]
      exact List.mem_zipIdx_iff_le_and_getElem?_sub.2 ⟨Nat.le_add_left 1 i, hx⟩
    change (Option.map _ _).isSome at comment
    rw [Option.isSome_map] at comment
    have quiet := legible.quiet _ mem comment blank
    rwa [Nat.add_comm] at quiet
  below := appended_eq r
  codeless := codeless_appendedLines legible.oneLine
  first _ := head?_appendedLines

variable {alignment : Alignment} (closed : body.Closed) (accepted : scan body = .ok (.ok s))
  (legible : Legible s.layout body r)

include closed accepted legible

/-- An annotated program is accepted. -/
theorem exists_scan_annotateWith (alignment : Alignment) :
    ∃ t, scan (annotateWith s.layout body r (.aligned alignment)) = .ok (.ok t) := by
  rw [annotateWith_eq]
  exact (harmless_annotateWith alignment closed accepted legible).exists_scan accepted

/-- In an annotated program all line feeds before a comment are counted. -/
theorem counted_annotateWith
    (again : scan (annotateWith s.layout body r (.aligned alignment)) = .ok (.ok t)) :
    ∀ c ∈ t.layout.comments,
      Counted (annotateWith s.layout body r (.aligned alignment)) c.start := by
  refine counted_of_stands again ?_
  rw [annotateWith_eq]
  exact fun k hk comment =>
    (harmless_annotateWith alignment closed accepted legible).stands hk comment

/-- In a legible program all line feeds before a comment are counted. -/
theorem counted_of_legible : ∀ c ∈ s.layout.comments, Counted body c.start :=
  counted_of_stands accepted fun _ hk comment =>
    (harmless_annotateWith .line closed accepted legible).stands_source hk comment

/-- The comments of an annotated program are those of the program, the annotations, and the appended
lines unless the end mark hides them. -/
theorem textOn_annotateWith
    (again : scan (annotateWith s.layout body r (.aligned alignment)) = .ok (.ok t)) (line : Nat)
    (x : Text) :
    textOn (annotateWith s.layout body r (.aligned alignment)) t.layout line = some x ↔
      textOn body s.layout line = some x ∨
      (1 ≤ line ∧ line < 1 + (Text.pieces body).length) ∧
        writtenComment s.layout body r (.aligned alignment) line = some x ∨
      ¬ Marked body ∧ ∃ i, line = 1 + (Text.pieces body).length + i ∧
        (appendedLines r)[i]? = some x ∧ x ≠ [] := by
  rw [textOn_eq_some_iff again, textOn_eq_some_iff accepted, annotateWith_eq]
  exact (harmless_annotateWith alignment closed accepted legible).hasComment_iff line x

/-- On the lines of the program are the comments of the program, and the annotations. -/
theorem textOn_of_mem_rows
    (again : scan (annotateWith s.layout body r (.aligned alignment)) = .ok (.ok t))
    {row : (Text × Nat) × Nat} (hrow : row ∈ rows s.layout body alignment) :
    textOn (annotateWith s.layout body r (.aligned alignment)) t.layout row.1.2 =
      (writtenComment s.layout body r (.aligned alignment) row.1.2).or
      (textOn body s.layout row.1.2) := by
  obtain ⟨first, last, -⟩ := List.mem_zipIdx (mem_pieces_of_mem_rows hrow)
  refine Option.ext fun x => ?_
  rw [textOn_annotateWith closed accepted legible again, and_iff_right ⟨first, last⟩]
  have within : ¬ (¬ Marked body ∧
      ∃ i, row.1.2 = 1 + (Text.pieces body).length + i ∧ (appendedLines r)[i]? = some x ∧
        x ≠ []) := by
    rintro ⟨-, i, here, -⟩
    rw [here, Nat.add_comm 1] at last
    exact absurd last (Nat.not_lt_of_le (Nat.le_add_right _ i))
  rw [or_iff_left within]
  cases hw : written s.layout r row.1.2 with
  | none =>
    rw [writtenComment, hw]
    exact or_iff_left nofun
  | some cs =>
    have own : textOn body s.layout row.1.2 = none := by
      rw [textOn, (isAnnotatable_iff.1 (isAnnotatable_of_written hw)).2]
      rfl
    rw [own, Option.or_none]
    exact or_iff_right nofun

/-- Below are the appended lines, unless the end mark hides them. -/
theorem textOn_of_appended
    (again : scan (annotateWith s.layout body r (.aligned alignment)) = .ok (.ok t))
    {seen : Bool} (hseen : seen = true ↔ ¬ Marked body) {i : Nat} {x : Text}
    (hx : (appendedLines r)[i]? = some x) :
    textOn (annotateWith s.layout body r (.aligned alignment)) t.layout
      (1 + (Text.pieces body).length + i) =
      if seen then if x = [] then none else some x else none := by
  refine Option.ext fun y => ?_
  rw [textOn_annotateWith closed accepted legible again, ← hseen]
  -- the body's own comments and those written beside code stand on lines above
  have below : ¬ textOn body s.layout (1 + (Text.pieces body).length + i) = some y := by
    intro own
    obtain ⟨k, hk, comment, line, -⟩ := (textOn_eq_some_iff accepted).1 own
    have within : k.line < 1 + (Text.pieces body).length :=
      (harmless_annotateWith alignment closed accepted legible).line_lt_of_comment hk comment
    omega
  rw [or_iff_right below, or_iff_right fun h =>
    absurd h.1.2 (Nat.not_lt_of_le (Nat.le_add_right _ i))]
  have here : (∃ j, 1 + (Text.pieces body).length + i = 1 + (Text.pieces body).length + j ∧
      (appendedLines r)[j]? = some y ∧ y ≠ []) ↔ x = y ∧ y ≠ [] := by
    constructor
    · rintro ⟨j, same, hy, some⟩
      rw [← Nat.add_left_cancel same, hx] at hy
      exact ⟨Option.some.inj hy, some⟩
    · rintro ⟨rfl, some⟩
      exact ⟨i, rfl, hx, some⟩
  rw [here]
  cases seen with
  | false => exact iff_of_false (fun h => nomatch h.1) nofun
  | true =>
    by_cases empty : x = []
    · rw [if_pos rfl, if_pos empty]
      exact iff_of_false (fun h => h.2.2 (h.2.1 ▸ empty)) nofun
    · rw [if_pos rfl, if_neg empty, Option.some.injEq]
      exact ⟨fun h => h.2.1, fun h => ⟨rfl, h, h ▸ empty⟩⟩

/-- The comments of the lines of the program, once it is annotated. -/
theorem endRemark_renderLine
    (again : scan (annotateWith s.layout body r (.aligned alignment)) = .ok (.ok t))
    {row : (Text × Nat) × Nat} (hrow : row ∈ rows s.layout body alignment) :
    endRemark (renderLine s.layout r (.aligned alignment) row.2 row.1.2 row.1.1)
        (textOn (annotateWith s.layout body r (.aligned alignment)) t.layout row.1.2) =
      inlineRemark s.layout r alignment row (endRemark row.1.1 (textOn body s.layout row.1.2)) := by
  have mem := mem_pieces_of_mem_rows hrow
  rw [textOn_of_mem_rows closed accepted legible again hrow]
  unfold inlineRemark
  cases hw : written s.layout r row.1.2 with
  | none =>
    rw [writtenComment, hw, renderLine_of_not_written _ hw]
    rfl
  | some cs =>
    obtain ⟨x, hx⟩ : ∃ x, writtenComment s.layout body r (.aligned alignment) row.1.2 = some x :=
      ⟨_, writtenComment_of_written mem hw _⟩
    obtain ⟨u, rfl, hu⟩ := isComment_writtenComment closed hx
    have noLineFeed : '\n' ∉ '#' :: u := List.not_mem_cons_of_ne_of_not_mem (by decide) hu
    rw [renderLine_of_writtenComment mem (isLine_of_mem_rows closed hrow) hx, hx,
      trailing_of_line _ noLineFeed, Option.some_or, endRemark_line]
    rfl

omit accepted legible in
/-- The lines of an annotated program with their numbers. -/
theorem numberedPieces_annotateWith :
    numberedPieces (annotateWith s.layout body r (.aligned alignment)) =
      ((rows s.layout body alignment).map fun row =>
        (renderLine s.layout r (.aligned alignment) row.2 row.1.2 row.1.1, row.1.2)) ++
      ((appendedLines r).map (· ++ ['\n'])).zipIdx (1 + (Text.pieces body).length) := by
  have above : (annotatedLines s.layout body r (.aligned alignment)).zipIdx 1 =
      (rows s.layout body alignment).map fun row =>
        (renderLine s.layout r (.aligned alignment) row.2 row.1.2 row.1.1, row.1.2) := by
    rw [List.zipIdx_eq_zip_range', annotatedLines_eq, List.length_map, ← List.zip_map']
    exact congrArg _ (numbers_rows s.layout body alignment).symm
  rw [numberedPieces, pieces_annotateWith rfl closed, List.zipIdx_append, above,
    length_annotatedLines, pieces_appended]

/-- The lines of the program with their comments. -/
theorem zip_rows_remarks :
    (rows s.layout body alignment).zip (remarks body s.layout 0 1 (Text.pieces body)) =
      (rows s.layout body alignment).map fun row =>
        (row, endRemark row.1.1 (textOn body s.layout row.1.2)) := by
  rw [remarks_eq accepted closed (counted_of_legible closed accepted legible),
    ← map_rows s.layout body alignment, List.map_map]
  conv => lhs; lhs; rw [← List.map_id (rows s.layout body alignment)]
  exact List.zip_map'

/-- The comments of an annotated program, line by line. -/
theorem remarks_annotateWith
    (again : scan (annotateWith s.layout body r (.aligned alignment)) = .ok (.ok t)) {seen : Bool}
    (hseen : seen = true ↔ ¬ Marked body) :
    remarks (annotateWith s.layout body r (.aligned alignment)) t.layout 0 1
        (Text.pieces (annotateWith s.layout body r (.aligned alignment))) =
      inlineRemarks s.layout body r alignment ++ (Text.pieces (appended r)).map
        (appendedRemark seen) := by
  rw [remarks_eq again (closed_annotateWith closed)
    (counted_annotateWith closed accepted legible again), numberedPieces_annotateWith closed,
    List.map_append]
  congr 1
  · rw [inlineRemarks, zip_rows_remarks closed accepted legible, List.map_map, List.map_map]
    exact List.map_congr_left fun row hrow =>
      endRemark_renderLine closed accepted legible again hrow
  · rw [pieces_appended]
    refine List.ext_getElem? fun i => ?_
    rw [List.getElem?_map, List.getElem?_zipIdx, List.getElem?_map, List.getElem?_map,
      List.getElem?_map]
    cases hx : (appendedLines r)[i]? with
    | none => rfl
    | some x =>
      have seenAs := textOn_of_appended closed accepted legible again hseen hx
      have codeless := codeless_appendedLines legible.oneLine x (List.mem_of_getElem? hx)
      show some (endRemark (x ++ ['\n']) _) = some (appendedRemark seen (x ++ ['\n']))
      rw [seenAs, appendedRemark, blockRemark_of_codeless codeless]
      cases seen <;> rfl

end Annotated

/-! ## The program without annotations -/

/-- What is lost at the ends of lines when the annotations of an annotated program are removed. -/
def cleanedMargins (l : Layout) (body : Text) (r : EvalResult) : Margins where
  differs line := (written l r line).isSome
  ends u w := White u ∧ White w
  comment _ := none
  last := 1 + (Text.pieces body).length
  below := []
  blanks _ _ h := ⟨h.1.blanks, h.2.blanks⟩
  differs_of_comment _ _ h := nomatch h
  isComment _ _ h := nomatch h
  stops := stops_nil

section Cleaned

variable {body : Text} {s u : Scan} {r : EvalResult}

/-- What is left of the lines differs from them in blanks behind the code alone. -/
theorem lines_cleanedMargins {l : Layout} (closed : body.Closed) (tails : TailsOf White l body r) :
    (cleanedMargins l body r).Lines 1 (Text.pieces body)
      ((numberedPieces body).map fun x => (keptLine l r x).text) := by
  have numbers : (numberedPieces body).map Prod.snd =
      List.range' 1 (numberedPieces body).length := by
    rw [numberedPieces, List.zipIdx_map_snd, List.length_zipIdx]
  have last : (cleanedMargins l body r).last = 1 + (numberedPieces body).length := by
    rw [numberedPieces, List.length_zipIdx]
    rfl
  rw [← map_numberedPieces]
  refine Margins.lines_of_rows Prod.snd numbers last fun x hx => ?_
  have isLine := closed.isLine _ (mem_pieces_of_mem_numberedPieces hx)
  unfold keptLine
  by_cases differs : (written l r x.2).isSome
  · obtain ⟨v, hv, whole⟩ := tails x hx differs
    obtain ⟨ends, returns⟩ := terminator_eq isLine
    rw [if_pos differs]
    show (cleanedMargins l body r).Line x.2 x.1 (codeOf x.1 ++ Text.terminator x.1)
    rw [ends]
    conv => lhs; rw [whole]
    exact .margin differs ⟨hv, fun c hc => .inr (.inr (returns c hc))⟩
      (fun comment => absurd comment Bool.false_ne_true) (lineFeed_notMem_codeOf isLine)
      fun c hc => visible_codeOf hc
  · rw [if_neg differs]
    exact .same isLine differs

/-- What is left of a program differs from it harmlessly. -/
theorem harmless_cleaned (closed : body.Closed) (accepted : scan body = .ok (.ok s))
    (legible : Legible s.layout body r) :
    (cleanedMargins s.layout body r).Harmless body
      ((numberedPieces body).map fun x => (keptLine s.layout r x).text) [] where
  closed := closed
  whole := whole_ofSource closed accepted legible.undashed
  fits := fits_of_isAnnotatable accepted fun _ differs => by
    obtain ⟨cs, hcs⟩ := Option.isSome_iff_exists.1 differs
    exact isAnnotatable_of_written hcs
  lines := lines_cleanedMargins closed legible.tails
  whitened _ _ ends := ends
  firm := legible.firm
  quiet _ _ _ comment := nomatch comment
  below := rfl
  codeless := nofun
  first := nofun

/-- The program is accepted without its annotations, and the same lines may be annotated. -/
theorem exists_scan_cleaned (closed : body.Closed) (accepted : scan body = .ok (.ok s))
    (legible : Legible s.layout body r) : ∃ u, scan (cleaned s.layout r body) = .ok (.ok u) ∧
      SameOpen u.layout s.layout body := by
  have harmless := harmless_cleaned closed accepted legible
  have second : (cleanedMargins s.layout body r).second
      ((numberedPieces body).map fun x => (keptLine s.layout r x).text) =
        cleaned s.layout r body := by
    rw [cleaned, List.flatMap_map, List.flatMap_def]
    exact List.append_nil _
  obtain ⟨u, trims⟩ := harmless.exists_scan accepted
  refine ⟨u, second ▸ trims, fun x _ => Bool.eq_iff_iff.2 ?_⟩
  obtain ⟨ends, own⟩ := harmless.open_iff (fun _ => rfl) rfl accepted trims x.2
  rw [isAnnotatable_iff, isAnnotatable_iff, ends, own]

end Cleaned

end Marginalia
