import Marginalia.Proofs.Annotation.Rescan

/-!
# What an annotated program gives back

Removing the annotations of an annotated program leaves its lines as `keptInline` tells, and those
of the appended lines that do not go. If the program is regained (`Regained`), this is the program
but for blanks at the ends of annotated lines (`dropTail_of_regained`). Conversely, if what is left
gives the annotated program again when it is annotated with the same result, the program has been
regained (`regained_of_annotateWith`): no line has gone then, since no line can take its place.
-/

namespace Marginalia

open Source Tokenizer

/-! ## Lines that are left -/

/-- The lines that are left where annotations are removed. -/
def remaining (ks : List Kept) : List Text := (ks.filter (· != .dropped)).map Kept.text

/-- A line that goes, or of which a finished line is left. -/
def Kept.Finished (k : Kept) : Prop := k = .dropped ∨ Text.IsLine k.text

theorem remaining_append (ks js : List Kept) :
    remaining (ks ++ js) = remaining ks ++ remaining js := by
  rw [remaining, List.filter_append, List.map_append]
  rfl

/-- What remains of the lines makes the text that is kept. -/
theorem flatten_remaining (ks : List Kept) : (remaining ks).flatten = ks.flatMap Kept.text := by
  induction ks with
  | nil => rfl
  | cons k ks ih =>
    rw [List.flatMap_cons, ← ih]
    cases k <;> rfl

/-- What remains of finished lines are the lines of the text that is kept. -/
theorem pieces_remaining {ks : List Kept} (each : ∀ k ∈ ks, k.Finished) :
    Text.pieces (ks.flatMap Kept.text) = remaining ks := by
  rw [← flatten_remaining]
  refine Text.pieces_flatten fun p hp => ?_
  obtain ⟨k, hk, rfl⟩ := List.mem_map.1 hp
  obtain ⟨mem, stays⟩ := List.mem_filter.1 hk
  exact (each k mem).resolve_left (bne_iff_ne.1 stays)

/-- Of a finished line a finished line is left. -/
theorem finished_keptOf {m : Markers} {piece : Text} (isLine : Text.IsLine piece)
    (known : Option (Int × Text)) :
    (keptOf m piece known).Finished := by
  unfold keptOf
  split
  · exact .inr isLine
  · split
    · dsimp only
      split
      · exact .inl rfl
      · obtain ⟨code, ends⟩ := Text.isLine_terminator isLine
        exact .inr (ends.append (Text.notMem_trimEnd fun hm => code (List.mem_of_mem_take hm)))
    · exact .inr isLine

section Left

variable {l found : Layout} {body : Text} {r : EvalResult} {alignment : Alignment} {seen : Bool}

/-- The lines of a closed program are finished. -/
theorem finished_keptInline (closed : body.Closed) :
    ∀ k ∈ keptInline l body r alignment, k.Finished := by
  intro k hk
  obtain ⟨x, hx, rfl⟩ := List.mem_map.1 hk
  exact finished_keptOf (isLine_renderLine Markers.oneLine_default
    (isLine_of_mem_rows closed (List.of_mem_zip hx).1)) _

/-- The appended lines are finished. -/
theorem finished_keptBelow : ∀ k ∈ keptBelow seen r, k.Finished := by
  intro k hk
  obtain ⟨t, ht, rfl⟩ := List.mem_map.1 hk
  exact finished_keptOf ⟨t, lineFeed_notMem_appendedLines ht, rfl⟩ _

theorem length_keptInline (l : Layout) (r : EvalResult) (alignment : Alignment) :
    (keptInline l body r alignment).length = (Text.pieces body).length := by
  rw [keptInline, List.length_map, List.length_zip, length_rows, length_remarks, Nat.min_self]

/-- What is left of an annotated program, line by line. -/
theorem pieces_dropTail (closed : body.Closed) :
    Text.pieces ((dropTail (keptInline l body r alignment ++ keptBelow seen r)).flatMap Kept.text) =
      remaining (dropTail (keptInline l body r alignment ++ keptBelow seen r)) :=
  pieces_remaining fun k hk => (List.mem_append.1 (mem_of_mem_dropTail hk)).elim
    (finished_keptInline closed k) (finished_keptBelow k)

/-- What is left of an annotated program is closed. -/
theorem closed_dropTail (closed : body.Closed) :
    Text.Closed ((dropTail (keptInline l body r alignment ++ keptBelow seen r)).flatMap
      Kept.text) := by
  rw [List.flatMap_def]
  refine Text.closed_flatten fun p hp => ?_
  obtain ⟨k, hk, rfl⟩ := List.mem_map.1 hp
  have finished : k.Finished := (List.mem_append.1 (mem_of_mem_dropTail hk)).elim
    (finished_keptInline closed k) (finished_keptBelow k)
  rcases finished with rfl | line
  · exact .inl rfl
  · exact line.closed

end Left

/-! ## Programs that are given back -/

/-- The program is given back when its annotations are removed, but for blanks at the ends of its
lines. -/
structure Regained (l : Layout) (body : Text) (r : EvalResult) : Prop where
  /-- No comment of the program is an annotation itself. -/
  plain : ∀ c ∈ l.comments, Markers.isAnnotation {} (c.text body) = false
  /-- No annotation is written on a blank line. -/
  shown : ∀ x ∈ numberedPieces body, (written l r x.2).isSome → ¬ Text.isBlankText x.1
  /-- What is appended is no data, and stands behind a line that is not empty. -/
  below : appendedLines r = [] ∨ ¬ Marked body ∧
    ∀ p, (Text.pieces body).getLast? = some p → p ≠ ['\n'] ∧ p ≠ ['\r', '\n']

section Back

variable {l found : Layout} {body : Text} {r : EvalResult} {alignment : Alignment} {seen : Bool}

/-- What is appended goes if it holds no lines of its own. -/
theorem falls_of_oneLine
    (oneLine : ∀ e, r.lastException = some e → ∀ t ∈ e.className :: e.backtrace, '\n' ∉ t) :
    ∀ t ∈ appendedLines r, Falls t := by
  refine (falls_appendedLines r).2 fun e he t ht line hl => ?_
  rw [List.splitOn_eq_singleton (oneLine e he t ht)] at hl
  cases hl

/-- What is left of an annotated program are its lines, if they can be regained. -/
theorem dropTail_of_regained (regained : Regained l body r) (hseen : seen = true ↔ ¬ Marked body)
    (falls : ∀ t ∈ appendedLines r, Falls t) :
    dropTail (keptInline l body r alignment ++ keptBelow seen r) =
      (numberedPieces body).map (keptLine l r) := by
  have stays (t : Text × Nat) : (keptLine l r t == .dropped) = false := by
    unfold keptLine
    split <;> rfl
  rw [keptInline_eq alignment regained.plain regained.shown]
  rcases regained.below with none | ⟨unmarked, visible⟩
  -- nothing is appended, so nothing is dropped
  · unfold keptBelow dropTail
    rw [none, List.map_nil, List.append_nil, if_neg]
    rw [Bool.not_eq_true, List.any_eq_false]
    intro k hk
    obtain ⟨x, -, rfl⟩ := List.mem_map.1 (List.mem_of_mem_drop hk)
    exact Bool.eq_false_iff.1 (stays x)
  -- all that is appended is dropped, up to the last line of the program
  · obtain rfl := hseen.2 unmarked
    refine dropTail_of_falls ((isTail_getLast?_keptLine regained.shown).2 visible)
      (isTail_keptBelow falls) ?_
    by_cases none : appendedLines r = []
    · left
      rw [keptBelow, none, List.map_nil]
    · exact .inr (dropped_mem_keptBelow none)

/-! ## Annotating again -/

/-- Two programs with the same annotated program have the same lines in it. -/
theorem annotatedLines_of_annotateWith {left : Text} (closed : body.Closed) (closed' : left.Closed)
    (same : annotateWith found left r (.aligned alignment) =
      annotateWith l body r (.aligned alignment)) :
    annotatedLines found left r (.aligned alignment) =
      annotatedLines l body r (.aligned alignment) := by
  have pieces := congrArg Text.pieces same
  rw [pieces_annotateWith rfl closed', pieces_annotateWith rfl closed] at pieces
  exact List.append_cancel_right pieces

/-- If as many lines are left as there were, none of them has gone. -/
theorem dropTail_eq_of_length {front back : List Kept} (tails : ∀ k ∈ back, k.isTail)
    (dropped : back = [] ∨ .dropped ∈ back)
    (count : front.length ≤ (remaining (dropTail (front ++ back))).length) :
    dropTail (front ++ back) = front ∧ .dropped ∉ front := by
  have start : dropTail (front ++ back) <+: front := by
    obtain ⟨s, hs, -⟩ := Text.eq_dropEndWhile_append Kept.isTail front
    rcases dropped with rfl | dropped
    · rw [List.append_nil]
      unfold dropTail
      dsimp only
      split
      · exact ⟨s, hs.symm⟩
      · exact List.prefix_rfl
    · rw [dropTail_append tails dropped]
      exact ⟨s, hs.symm⟩
  have less : (remaining (dropTail (front ++ back))).length ≤
      (dropTail (front ++ back)).length := by
    rw [remaining, List.length_map]
    exact List.length_filter_le _ _
  have whole := start.eq_of_length (Nat.le_antisymm start.length_le (Nat.le_trans count less))
  refine ⟨whole, fun gone => ?_⟩
  rw [whole, remaining, List.length_map] at count
  have all := List.length_filter_eq_length_iff.1
    (Nat.le_antisymm (List.length_filter_le _ _) count) _ gone
  cases all

end Back

section Lines

variable {l : Layout} {body piece : Text} {s : Scan} {r : EvalResult} {i : Nat}

/-- Each line has a row with its number. -/
theorem getElem?_rows (l : Layout) (alignment : Alignment)
    (hp : (Text.pieces body)[i]? = some piece) :
    ∃ column, (rows l body alignment)[i]? = some ((piece, i + 1), column) := by
  have here : ((rows l body alignment).map Prod.fst)[i]? = some (piece, i + 1) := by
    rw [map_rows, numberedPieces, List.getElem?_zipIdx, hp, Nat.add_comm]
    rfl
  rw [List.getElem?_map, Option.map_eq_some_iff] at here
  obtain ⟨⟨x, column⟩, hrow, rfl⟩ := here
  exact ⟨column, hrow⟩

/-- A line on which nothing is written stays as it is. -/
theorem getElem?_annotatedLines (alignment : Alignment) (hp : (Text.pieces body)[i]? = some piece)
    (none : written l r (i + 1) = none) :
    (annotatedLines l body r (.aligned alignment))[i]? = some piece := by
  obtain ⟨column, hrow⟩ := getElem?_rows l alignment hp
  rw [annotatedLines_eq, List.getElem?_map]
  show Option.map _ (rows l body alignment)[i]? = _
  rw [hrow, Option.map_some, renderLine_of_not_written _ none]

variable {alignment : Alignment} (closed : body.Closed) (accepted : scan body = .ok (.ok s))
  (legible : Legible s.layout body r)

include closed accepted legible

/-- What becomes of a line on which nothing is written. -/
theorem getElem?_keptInline (alignment : Alignment) (hp : (Text.pieces body)[i]? = some piece)
    (none : written s.layout r (i + 1) = none) :
    (keptInline s.layout body r alignment)[i]? =
      some (keptOf {} piece (endRemark piece (textOn body s.layout (i + 1)))) := by
  obtain ⟨column, hrow⟩ := getElem?_rows s.layout alignment hp
  rw [keptInline, zip_rows_remarks closed accepted legible, List.getElem?_map,
    List.getElem?_map, hrow]
  show some (keptOf {} (renderLine s.layout r _ column (i + 1) piece)
    (inlineRemark s.layout r alignment
    ((piece, i + 1), column) _)) = _
  rw [renderLine_of_not_written _ none, inlineRemark, none]
  rfl

/-- If no line has gone, nothing was written on blank lines. -/
theorem shown_of_kept (kept : .dropped ∉ keptInline s.layout body r alignment) :
    ∀ x ∈ numberedPieces body, (written s.layout r x.2).isSome → ¬ Text.isBlankText x.1 := by
  intro x hx some blank
  rw [← map_rows s.layout body alignment] at hx
  obtain ⟨row, hrow, rfl⟩ := List.mem_map.1 hx
  obtain ⟨cs, hw⟩ := Option.isSome_iff_exists.1 some
  refine kept ?_
  rw [keptInline, zip_rows_remarks closed accepted legible, List.map_map]
  exact List.mem_map.2 ⟨row, hrow, (keptOf_of_written hw).trans (if_pos blank)⟩

/-- The line of a comment, up to the comment. -/
theorem exists_line_of_comment {c : Comment} (hc : c ∈ s.layout.comments) :
    ∃ i code, c.line = i + 1 ∧ (Text.pieces body)[i]? = some (code ++ (c.text body ++ ['\n'])) ∧
      textOn body s.layout (i + 1) = some (c.text body) := by
  have known := commentOn_of_mem accepted hc
  obtain ⟨_, -, -, first, -⟩ := comment_of_scan accepted hc
  have last : c.line < 1 + (Text.pieces body).length := by
    rw [comments_of_scan accepted] at hc
    obtain ⟨k, hk, rfl⟩ := List.mem_map.1 hc
    obtain ⟨hk, comment⟩ := List.mem_filter.1 hk
    exact (harmless_annotateWith .line closed accepted legible).line_lt_of_comment hk
      (beq_iff_eq.1 comment)
  obtain ⟨before, piece, after, hp, length⟩ :=
    Text.exists_line (t := body) (j := c.line - 1) (by omega)
  have line : before.length + 1 = c.line := by omega
  obtain ⟨code, rfl, -⟩ :=
    exists_eq_of_textOn accepted closed (counted_of_legible closed accepted legible) hp
    (line.symm ▸ known)
  refine ⟨before.length, code, line.symm, ?_, ?_⟩
  · rw [hp, List.getElem?_append_right (Nat.le_refl _), Nat.sub_self]
    rfl
  · rw [textOn, line, known]
    rfl

omit closed accepted legible in
/-- Of a line with an annotation less is left. -/
theorem text_keptOf_endRemark {comment : Text} (code : Text) (hash : comment.head? = some '#')
    (marked : Markers.isAnnotation {} comment) :
    (keptOf {} (code ++ (comment ++ ['\n']))
      (endRemark (code ++ (comment ++ ['\n'])) (some comment))).text ≠
      code ++ (comment ++ ['\n']) := by
  rw [endRemark_line]
  unfold keptOf
  dsimp only
  rw [if_pos marked, Int.toNat_natCast]
  split
  · exact (List.append_ne_nil_of_right_ne_nil _
      (List.append_ne_nil_of_right_ne_nil _ (List.cons_ne_nil _ _))).symm
  · obtain ⟨x, rfl⟩ := List.head?_eq_some_iff.1 hash
    generalize hpiece : code ++ ('#' :: x ++ ['\n']) = piece
    have line : Text.lineText piece = code ++ '#' :: Text.lineText (x ++ ['\n']) := by
      rw [← hpiece, List.cons_append, Text.lineText_append_visible code (by decide)]
      exact congrArg (code ++ ·) (Text.dropEndWhile_cons_of_neg rfl _)
    intro same
    -- what is left would have to hold the hash
    have length := congrArg List.length same
    obtain ⟨v, hv, -⟩ :=
      Text.eq_dropEndWhile_append Text.isBlank ((Text.lineText piece).take code.length)
    have cut := congrArg List.length hv
    rw [List.length_append, List.length_take] at cut
    have split := congrArg List.length (Text.lineText_append_terminator piece)
    have front := congrArg List.length line
    change (Text.dropEndWhile Text.isBlank ((Text.lineText piece).take code.length) ++
      Text.terminator piece).length = _ at length
    rw [List.length_append] at length split
    rw [List.length_append, List.length_cons] at front
    omega

/-- If no line has gone, and annotating again gives the same lines, no comment was an annotation. -/
theorem plain_of_kept {found : Layout} {left : Text}
    (kept : .dropped ∉ keptInline s.layout body r alignment)
    (hleft : Text.pieces left = remaining (keptInline s.layout body r alignment))
    (same : annotatedLines found left r (.aligned alignment) =
      annotatedLines s.layout body r (.aligned alignment))
    (unmarked : ∀ c ∈ s.layout.comments, Markers.isAnnotation {} (c.text body) →
      recorded r c.line = none) :
    ∀ c ∈ s.layout.comments, Markers.isAnnotation {} (c.text body) = false := by
  intro c hc
  refine Bool.eq_false_iff.2 fun marked => ?_
  obtain ⟨i, code, line, hp, own⟩ := exists_line_of_comment closed accepted legible hc
  have bare (l : Layout) : written l r (i + 1) = none := by
    rw [written, ← line, unmarked c hc marked]
    rfl
  have becomes := getElem?_keptInline closed accepted legible alignment hp (bare _)
  rw [own] at becomes
  -- no line is lost, so that each line keeps its number
  have all : remaining (keptInline s.layout body r alignment) =
      (keptInline s.layout body r alignment).map Kept.text := by
    rw [remaining, List.filter_eq_self.2]
    rintro k hk
    refine bne_iff_ne.2 ?_
    rintro rfl
    exact kept hk
  have there : (Text.pieces left)[i]? = some (keptOf {} (code ++ (c.text body ++ ['\n']))
      (endRemark (code ++ (c.text body ++ ['\n'])) (some (c.text body)))).text := by
    rw [hleft, all, List.getElem?_map, becomes]
    rfl
  -- the line would come back without its annotation, which nothing writes again
  have again := getElem?_annotatedLines alignment there (bare found)
  rw [same, getElem?_annotatedLines alignment hp (bare _)] at again
  obtain ⟨-, hash, -⟩ := comment_text_of_scan accepted hc
  exact text_keptOf_endRemark code hash marked (Option.some.inj again).symm

end Lines

/-! ## Programs with an end mark -/

section Marked

variable {body : Text} {s : Scan} {r : EvalResult} {alignment : Alignment} (closed : body.Closed)
  (accepted : scan body = .ok (.ok s)) (legible : Legible s.layout body r)

/-- The first line of a text starts as the text does. -/
theorem Text.pieces_of_head? {t : Text} {c : Char} (closed : t.Closed) (head : t.head? = some c) :
    ∃ piece after, Text.pieces t = piece :: after ∧ piece.head? = some c := by
  have whole := Text.flatten_pieces t
  cases hp : Text.pieces t with
  | nil =>
    rw [hp] at whole
    rw [← whole] at head
    cases head
  | cons piece after =>
    obtain ⟨u, -, rfl⟩ := closed.isLine piece (hp ▸ List.mem_cons_self)
    refine ⟨_, after, rfl, ?_⟩
    rw [hp] at whole
    rw [← whole] at head
    cases u with
    | nil => exact head
    | cons d u => exact head

include closed accepted legible

/-- Where the end mark stands, a line starts with an underscore, and from there on no line may be
annotated or has a comment. -/
theorem exists_mark (marked : Marked body) :
    ∃ before piece after, Text.pieces body = before ++ piece :: after ∧
    piece.head? = some '_' ∧ ∀ i, before.length ≤ i → i < (Text.pieces body).length →
      isAnnotatable s.layout (i + 1) = false ∧ textOn body s.layout (i + 1) = none := by
  have whole := (harmless_annotateWith .line closed accepted legible).whole
  obtain ⟨t, reach, mark⟩ := marked
  have place := (placed_of_reaches (placed_ofSource body) reach).cursor
  have head := head?_of_atEndMark mark
  have start : AtLineStart body t.cursor.position :=
    place.lineStart.1 (Bool.and_eq_true_iff.1 mark).1
  -- before the mark stand whole lines
  have split : body = body.take t.cursor.position ++ t.cursor.rest := by
    rw [place.rest, List.take_append_drop]
  have front : Text.Closed (body.take t.cursor.position) := by
    by_cases zero : t.cursor.position = 0
    · rw [zero]
      exact .inl rfl
    · right
      rw [List.getLast?_take, if_neg zero, start.resolve_left zero]
      rfl
  obtain ⟨piece, after, hpieces, hhead⟩ := Text.pieces_of_head? (whole.closed_of_reaches reach) head
  have hp : Text.pieces body = Text.pieces (body.take t.cursor.position) ++ piece :: after := by
    conv => lhs; rw [split]
    rw [← hpieces, ← Text.pieces_append front.isLine, Text.flatten_pieces]
  have count := Text.lineFeeds_append (body.take t.cursor.position) t.cursor.rest
  rw [← split, front.lineFeeds_eq] at count
  have here := whole.line_eq reach
  change t.cursor.line + Text.lineFeeds t.cursor.rest = 1 + Text.lineFeeds body at here
  refine ⟨_, piece, after, hp, hhead, fun i below last => ⟨?_, ?_⟩⟩
  · refine Bool.eq_false_iff.2 fun open_ => (not_covers_of_isAnnotatable accepted open_).1 ?_
    exact covers_of_atEndMark reach mark (ending_of_reaches reach whole.complete) (by omega) last
  · -- a comment stands before the mark, and the end of its line, too
    refine Option.eq_none_iff_forall_not_mem.2 fun x hx => ?_
    obtain ⟨k, hk, comment, line, -⟩ := (textOn_eq_some_iff accepted).1 hx
    obtain ⟨u, _, reach', hash, -, -, line', -⟩ := exists_comment hk comment
    have ne : t ≠ u := by
      rintro rfl
      rw [hash] at head
      cases head
    have lt : u.cursor.position < t.cursor.position := by
      rcases reach.linear reach' with back | onward
      · exact absurd (eq_of_atEndMark mark back).symm ne
      · exact onward.eq_or_lt.resolve_left ne
    have place' := (placed_of_reaches (placed_ofSource body) reach').cursor
    have between : Text.Closed ((body.take t.cursor.position).drop u.cursor.position) :=
      front.of_suffix (List.drop_suffix _ _)
    have length : (body.take t.cursor.position).length = t.cursor.position := by
      rw [List.length_take, Nat.min_eq_left place.inside]
    have some : (body.take t.cursor.position).drop u.cursor.position ≠ [] := fun none => by
      have := List.drop_eq_nil_iff.1 none
      omega
    have feeds : 0 < Text.lineFeeds ((body.take t.cursor.position).drop u.cursor.position) :=
      List.count_pos_iff.2 (List.mem_of_getLast? (between.resolve_left some))
    have there := whole.line_eq reach'
    change u.cursor.line + Text.lineFeeds u.cursor.rest = 1 + Text.lineFeeds body at there
    have parts : u.cursor.rest = (body.take t.cursor.position).drop u.cursor.position ++
        t.cursor.rest := by
      rw [place'.rest]
      conv => lhs; rw [split]
      exact List.drop_append_of_le_length (by omega)
    rw [parts, Text.lineFeeds_append] at there
    omega

/-- From the line of the end mark on, all lines stay. -/
theorem drop_keptInline {before after : List Text} (hp : Text.pieces body = before ++ after)
    (plain : ∀ i, before.length ≤ i → i < (Text.pieces body).length →
      isAnnotatable s.layout (i + 1) = false ∧ textOn body s.layout (i + 1) = none) :
    (keptInline s.layout body r alignment).drop before.length = after.map .whole := by
  refine List.ext_getElem? fun i => ?_
  rw [List.getElem?_drop, List.getElem?_map]
  have here : (Text.pieces body)[before.length + i]? = after[i]? := by
    rw [hp, List.getElem?_append_right (Nat.le_add_right _ _), Nat.add_sub_cancel_left]
  cases hx : after[i]? with
  | none =>
    rw [hx, List.getElem?_eq_none_iff, ← length_keptInline s.layout r alignment] at here
    exact List.getElem?_eq_none_iff.2 here
  | some piece =>
    rw [hx] at here
    obtain ⟨open_, own⟩ := plain _ (Nat.le_add_right _ i) (List.getElem?_eq_some_iff.1 here).1
    have none : written s.layout r (before.length + i + 1) = none :=
      Option.filter_eq_none_iff.2 fun _ _ => Bool.eq_false_iff.1 open_
    rw [getElem?_keptInline closed accepted legible alignment here none, own]
    rfl

end Marked

/-! ## Lines that start with an underscore -/

/-- Whether a line starts as the end mark does. -/
def underscored (piece : Text) : Bool := piece.head? == some '_'

/-- What is written on a line does not change how it starts. -/
theorem underscored_renderLine (l : Layout) (r : EvalResult) (o : AnnotateOptions)
    (column line : Nat) (piece : Text) :
    underscored (renderLine l r o column line piece) = underscored piece := by
  cases hw : written l r line with
  | none => rw [renderLine_of_not_written o hw]
  | some cs =>
    rw [renderLine_of_written o hw]
    obtain ⟨blanks, -, whole⟩ := exists_eq_codeOf_append piece
    have blank := isBlankText_codeOf piece
    cases hcode : codeOf piece with
    | cons c code =>
      rw [hcode] at whole
      conv => rhs; rw [← whole]
      rfl
    | nil =>
      have space : (padding column piece).head? = some ' ' := head?_padding
      obtain ⟨p, hp⟩ := List.head?_eq_some_iff.1 space
      rw [hcode] at blank
      rw [hp]
      cases piece with
      | nil => rfl
      | cons c piece =>
        refine (beq_eq_false_iff_ne.2 fun same => ?_).symm
        rw [List.head?_cons, Option.some.injEq] at same
        rw [same] at blank
        cases blank

/-- Annotating leaves what starts with an underscore. -/
theorem map_underscored_annotatedLines (l : Layout) (body : Text) (r : EvalResult)
    (o : AnnotateOptions) :
    (annotatedLines l body r o).map underscored = (Text.pieces body).map underscored := by
  rw [annotatedLines_eq, List.map_map, ← map_rows_pieces l body o.alignment, List.map_map]
  exact List.map_congr_left fun row _ => underscored_renderLine ..

/-- The last sign of two rows is followed by the same. -/
theorem append_cons_true_ne {xs ys bs cs : List Bool} (none : true ∉ cs) (some : cs ≠ []) :
    xs ++ true :: bs ≠ ys ++ true :: (bs ++ cs) := by
  intro same
  have mem (ls : List Bool) : true ∈ ls.reverse ++ [true] :=
    List.mem_append_right _ (List.mem_singleton_self _)
  have place (zs ls : List Bool) :
      (zs ++ true :: ls).reverse.idxOf true = (ls.reverse ++ [true]).idxOf true := by
    rw [List.reverse_append, List.reverse_cons, List.idxOf_append_of_mem (mem ls)]
  have places := congrArg (fun ls : List Bool => ls.reverse.idxOf true) same
  rw [place, place, List.reverse_append, List.append_assoc,
    List.idxOf_append_of_notMem (fun h => none (List.mem_reverse.1 h)), List.length_reverse]
      at places
  have := List.length_pos_iff.2 some
  omega

/-! ## The program is given back -/

section Conversely

variable {found : Layout} {body : Text} {s : Scan} {r : EvalResult} {alignment : Alignment}
  {seen : Bool} (closed : body.Closed) (accepted : scan body = .ok (.ok s))
  (legible : Legible s.layout body r)

include closed accepted legible

omit closed accepted legible in
/-- An appended line that an end mark hides stays as it is, and starts with no underscore. -/
theorem underscored_of_mem_keptBelow (codeless : ∀ t ∈ appendedLines r, Codeless t) {k : Kept}
    (hk : k ∈ keptBelow false r) : k ≠ .dropped ∧ underscored k.text = false := by
  obtain ⟨t, ht, rfl⟩ := List.mem_map.1 hk
  refine ⟨nofun, ?_⟩
  show underscored (t ++ ['\n']) = false
  rcases (codeless t ht).2 with rfl | ⟨u, rfl⟩
  · rfl
  · rfl

omit closed accepted legible in
/-- Behind an end mark one of the appended lines stays. -/
theorem exists_stays (codeless : ∀ t ∈ appendedLines r, Codeless t) (some : appendedLines r ≠ []) :
    ∃ k ∈ keptBelow false r, ¬ k.isTail := by
  obtain ⟨t, ht, marks⟩ := exists_isAnnotation_of_appendedLines some
  refine ⟨_, List.mem_map_of_mem ht, ?_⟩
  show ¬ (Kept.whole (t ++ ['\n'])).isTail
  rcases (codeless t ht).2 with rfl | ⟨u, rfl⟩
  · revert marks
    decide
  · nofun

/-- Behind an end mark the appended lines stay, so that there are more lines behind the last
underscore. -/
theorem annotatedLines_ne_of_marked (marked : Marked body) (some : appendedLines r ≠ []) :
    annotatedLines found
      ((dropTail (keptInline s.layout body r alignment ++ keptBelow false r)).flatMap Kept.text) r
      (.aligned alignment) ≠ annotatedLines s.layout body r (.aligned alignment) := by
  obtain ⟨before, piece, after, hp, head, plain⟩ := exists_mark closed accepted legible marked
  have codeless := codeless_appendedLines legible.oneLine
  obtain ⟨k, hk, stays⟩ := exists_stays codeless some
  have hidden : ∃ rest, dropTail (keptInline s.layout body r alignment ++ keptBelow false r) =
      keptInline s.layout body r alignment ++ rest ∧ rest <+: keptBelow false r ∧ k ∈ rest :=
    mem_dropTail_of_stays hk stays
  obtain ⟨rest, hrest, start, more⟩ := hidden
  -- what is left from the line of the mark on
  have onward : remaining ((keptInline s.layout body r alignment).drop before.length) =
      piece :: after := by
    rw [drop_keptInline closed accepted legible hp plain, remaining, List.filter_eq_self.2,
      List.map_map]
    · exact List.map_id _
    · rintro _ hk
      obtain ⟨p, -, rfl⟩ := List.mem_map.1 hk
      rfl
  have first : underscored piece = true := beq_iff_eq.2 head
  intro same
  have signs := congrArg (List.map underscored) same
  rw [map_underscored_annotatedLines, map_underscored_annotatedLines, pieces_dropTail closed, hrest,
    ← List.take_append_drop before.length (keptInline s.layout body r alignment), List.append_assoc,
    remaining_append, remaining_append, onward, hp, List.map_append, List.map_append,
      List.map_append,
    List.map_cons, List.cons_append, first] at signs
  refine append_cons_true_ne (fun sign => ?_) (fun none => ?_) signs.symm
  · obtain ⟨p, hp, sign⟩ := List.mem_map.1 sign
    obtain ⟨k, hk, rfl⟩ := List.mem_map.1 hp
    rw [(underscored_of_mem_keptBelow codeless (start.mem (List.mem_of_mem_filter hk))).2] at sign
    cases sign
  · have left : k.text ∈ remaining rest := by
      refine List.mem_map_of_mem (List.mem_filter.2 ⟨more, bne_iff_ne.2 ?_⟩)
      exact (underscored_of_mem_keptBelow codeless hk).1
    rw [List.map_eq_nil_iff.1 none] at left
    cases left

/-- If what is left of an annotated program gives the annotated program again, no line has gone, and
the program has been given back. -/
theorem regained_of_annotateWith (hseen : seen = true ↔ ¬ Marked body)
    (unmarked : ∀ c ∈ s.layout.comments, Markers.isAnnotation {} (c.text body) →
      recorded r c.line = none)
    (same : annotateWith found
      ((dropTail (keptInline s.layout body r alignment ++ keptBelow seen r)).flatMap
      Kept.text) r (.aligned alignment) = annotateWith s.layout body r (.aligned alignment)) :
    Regained s.layout body r := by
  have lines := annotatedLines_of_annotateWith closed (closed_dropTail closed) same
  have visible : appendedLines r = [] ∨ ¬ Marked body := by
    refine Classical.or_iff_not_imp_left.2 fun some marked => ?_
    have hidden : seen = false := Bool.eq_false_iff.2 fun h => hseen.1 h marked
    rw [hidden] at lines
    exact annotatedLines_ne_of_marked closed accepted legible marked some lines
  have below : (∀ k ∈ keptBelow seen r, k.isTail) ∧
      (keptBelow seen r = [] ∨ .dropped ∈ keptBelow seen r) := by
    by_cases none : appendedLines r = []
    · rw [keptBelow, none]
      exact ⟨nofun, .inl rfl⟩
    · rw [hseen.2 (visible.resolve_left none)]
      exact ⟨isTail_keptBelow (falls_of_oneLine legible.oneLine), .inr (dropped_mem_keptBelow none)⟩
  -- there are as many lines as before
  have count := congrArg List.length lines
  rw [length_annotatedLines, length_annotatedLines, pieces_dropTail closed,
    ← length_keptInline s.layout r alignment] at count
  obtain ⟨whole, kept⟩ := dropTail_eq_of_length below.1 below.2 (Nat.le_of_eq count.symm)
  have shown := shown_of_kept closed accepted legible kept
  have plain := plain_of_kept closed accepted legible kept
    ((pieces_dropTail closed).trans (congrArg remaining whole))
    lines unmarked
  refine ⟨plain, shown, ?_⟩
  refine Classical.or_iff_not_imp_left.2 fun some => ⟨visible.resolve_left some, ?_⟩
  -- the last line of the program is none of those that go with what is appended
  refine (isTail_getLast?_keptLine shown).1 fun k hk => ?_
  have dropped : .dropped ∈ keptBelow seen r := by
    rw [hseen.2 (visible.resolve_left some)]
    exact dropped_mem_keptBelow some
  rw [← keptInline_eq alignment plain shown, ← whole, dropTail_append below.1 dropped] at hk
  exact Bool.eq_false_iff.1 (Text.getLast?_dropEndWhile hk)

end Conversely

end Marginalia
