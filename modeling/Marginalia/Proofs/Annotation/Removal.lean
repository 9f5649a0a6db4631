import Marginalia.Annotation.Removal
import Marginalia.Proofs.Annotation.Blocks
import Marginalia.Proofs.Source.Accepted

/-!
# Removal undoes annotation

What becomes of a line when annotations are removed depends on the comment that is known of it
(`keptOf`), and so removal is one pass over the lines and their comments (`keepLines_eq`). For an
annotated program in which the comments are where they were written, every line of the program comes
back, and an appended line goes if it is empty or starts with a marker (`Falls`). The main
statement, `removeAnnotations_annotate`, says exactly when all of them go.
-/

namespace Marginalia

open Source

/-! ## Comments, line by line -/

/-- The characters of a comment. -/
def Source.Comment.text (c : Comment) (body : Text) : Text :=
  (body.drop c.start).take (c.stop - c.start)

/-- The comment that is known of a line: in which column it starts, and its characters. -/
def remark (body : Text) (l : Layout) (start line : Nat) : Option (Int × Text) :=
  (l.commentOn line).map fun c => ((c.start : Int) - start, c.text body)

/-- The comments that are known of the lines from one that starts at a position. -/
def remarks (body : Text) (l : Layout) : Nat → Nat → List Text → List (Option (Int × Text))
  | _, _, [] => []
  | start, line, p :: ps =>
    remark body l start line :: remarks body l (start + p.length) (line + 1) ps

theorem length_remarks (body : Text) (l : Layout) (start line : Nat) (ps : List Text) :
    (remarks body l start line ps).length = ps.length := by
  induction ps generalizing start line with
  | nil => rfl
  | cons p ps ih => rw [remarks, List.length_cons, ih, List.length_cons]

theorem mem_comments_of_mem_remarks {body : Text} {l : Layout} {start line : Nat} {ps : List Text}
    {column : Int} {t : Text} (h : some (column, t) ∈ remarks body l start line ps) :
    ∃ c ∈ l.comments, c.text body = t := by
  induction ps generalizing start line with
  | nil => cases h
  | cons p ps ih =>
    rcases List.mem_cons.1 h with h | h
    · obtain ⟨c, hc, heq⟩ := Option.map_eq_some_iff.1 h.symm
      exact ⟨c, List.mem_of_find?_eq_some hc, (Prod.mk.inj heq).2⟩
    · exact ih h

/-- What becomes of a line, by the comment that is known of it. -/
def keptOf (m : Markers) (piece : Text) : Option (Int × Text) → Kept
  | none => .whole piece
  | some (column, comment) =>
    if m.isAnnotation comment then
      let code := (Text.lineText piece).take column.toNat
      if Text.isBlankText code then .dropped
      else .trimmed (Text.trimEnd code) (Text.terminator piece)
    else .whole piece

/-- A comment that is an annotation starts on the line of which it is known. -/
def OnLine (m : Markers) (piece : Text) (known : Option (Int × Text)) : Prop :=
  ∀ column comment, known = some (column, comment) → m.isAnnotation comment →
    0 ≤ column ∧ column ≤ (Text.lineText piece).length

/-- If the remark of a line is on it, the line is kept as it should be. -/
theorem keepLine_eq {body : Text} {l : Layout} {m : Markers} {start line : Nat} {piece : Text}
    (h : OnLine m piece (remark body l start line)) :
    keepLine body l m start line piece = .ok (keptOf m piece (remark body l start line)) := by
  unfold keepLine
  cases hc : l.commentOn line with
  | none =>
    rw [show remark body l start line = none from by rw [remark, hc]; rfl]
    rfl
  | some c =>
    have hr : remark body l start line = some ((c.start : Int) - start, c.text body) := by
      rw [remark, hc]
      rfl
    have column : ((c.start : Int) - start).toNat = c.start - start := by omega
    rw [hr]
    unfold keptOf
    dsimp only
    split
    · next ha =>
      have ⟨h1, h2⟩ := h _ _ hr ha
      have stands : start ≤ c.start ∧ c.start ≤ start + (Text.lineText piece).length := by omega
      rw [if_pos stands, if_pos (show m.isAnnotation (c.text body) from ha), column]
    · next ha => rw [if_neg (show ¬ m.isAnnotation (c.text body) from ha)]

/-- If all remarks are on their lines, the lines are kept as they should be. -/
theorem keepLines_eq {body : Text} {l : Layout} {m : Markers} {start line : Nat} {ps : List Text}
    (h : ∀ x ∈ ps.zip (remarks body l start line ps), OnLine m x.1 x.2) :
    keepLines body l m start line ps =
      .ok ((ps.zip (remarks body l start line ps)).map fun x => keptOf m x.1 x.2) := by
  induction ps generalizing start line with
  | nil => rfl
  | cons p ps ih =>
    rw [remarks, List.zip_cons_cons] at h ⊢
    have first := h _ List.mem_cons_self
    have others := ih fun x hx => h x (List.mem_cons_of_mem _ hx)
    rw [keepLines, keepLine_eq first, others]
    rfl

/-! ## The comments of an annotated program -/

/-- The comment from a column of a line to its end. -/
def trailing (column : Nat) (piece : Text) : Int × Text :=
  (column, (piece.drop column).takeWhile (· != '\n'))

/-- The comment of a line that is annotated, or else the one that it has. -/
def inlineRemark (l : Layout) (r : EvalResult) (alignment : Alignment)
    (row : (Text × Nat) × Nat) (own : Option (Int × Text)) : Option (Int × Text) :=
  if (written l r row.1.2).isSome then
    some (trailing (codeOf row.1.1 ++ padding row.2 row.1.1).length
      (renderLine l r (.aligned alignment) row.2 row.1.2 row.1.1))
  else own

/-- The comment that an appended line is, unless it is blank. -/
def blockRemark (piece : Text) : Option (Int × Text) :=
  if Text.isBlankText piece then none
    else some (trailing (piece.takeWhile Text.isBlank).length piece)

/-- The comments of the lines of the program once it is annotated: those of the program, and the
annotations. -/
def inlineRemarks (l : Layout) (body : Text) (r : EvalResult) (alignment : Alignment) :
    List (Option (Int × Text)) :=
  ((rows l body alignment).zip (remarks body l 0 1 (Text.pieces body))).map
    fun x => inlineRemark l r alignment x.1 x.2

/-- The comments of an annotated program, line by line: those of the program, the annotations, and
the appended lines that are not blank. -/
def annotatedRemarks (l : Layout) (body : Text) (r : EvalResult) (alignment : Alignment) :
    List (Option (Int × Text)) :=
  inlineRemarks l body r alignment ++ (Text.pieces (appended r)).map blockRemark

section Inline

variable {l : Layout} {r : EvalResult} {alignment : Alignment} {row : (Text × Nat) × Nat}
  {own : Option (Int × Text)}

/-- The annotation of a line is cut off with the blanks before it. A line that was blank goes. -/
theorem keptOf_of_written {cs : List Capture} (h : written l r row.1.2 = some cs) :
    keptOf {} (renderLine l r (.aligned alignment) row.2 row.1.2 row.1.1)
        (inlineRemark l r alignment row own) =
      if Text.isBlankText row.1.1 then .dropped else .trimmed (codeOf row.1.1)
        (Text.terminator row.1.1) := by
  have hne := ne_nil_of_written h
  have marked : Markers.isAnnotation {} (((renderLine l r (.aligned alignment) row.2 row.1.2
      row.1.1).drop (codeOf row.1.1 ++ padding row.2 row.1.1).length).takeWhile (· != '\n')) := by
    rw [renderLine_of_written _ h, List.append_assoc, List.drop_left, List.takeWhile_append_of_pos]
    · exact Markers.isAnnotation_append (isAnnotation_renderCaptures alignment hne) _
    · intro c hc
      exact bne_iff_ne.2 (oneLine_renderCaptures Markers.oneLine_default cs c hc).1
  have front : (Text.lineText (renderLine l r (.aligned alignment) row.2 row.1.2 row.1.1)).take
      (codeOf row.1.1 ++ padding row.2 row.1.1).length =
        codeOf row.1.1 ++ padding row.2 row.1.1 := by
    rw [lineText_renderLine Markers.oneLine_default h, List.take_left]
  have shown : Text.isBlankText (codeOf row.1.1 ++ padding row.2 row.1.1) =
      Text.isBlankText row.1.1 := by
    rw [Text.isBlankText_append, isBlankText_codeOf, isBlankText_padding, Bool.and_true]
  have trimmed : Text.trimEnd (codeOf row.1.1 ++ padding row.2 row.1.1) = codeOf row.1.1 := by
    rw [Text.trimEnd_append_of_blank _ isBlankText_padding]
    exact Text.trimEnd_trimEnd _
  unfold inlineRemark trailing keptOf
  rw [h]
  dsimp only [Option.isSome_some, if_true]
  rw [if_pos rfl]
  dsimp only
  rw [if_pos marked, Int.toNat_natCast, front, shown, trimmed,
    terminator_renderLine Markers.oneLine_default]

/-- The remark of an annotated line is on it. -/
theorem onLine_of_written {cs : List Capture} (h : written l r row.1.2 = some cs) :
    OnLine {} (renderLine l r (.aligned alignment) row.2 row.1.2 row.1.1)
      (inlineRemark l r alignment row own) := by
  unfold inlineRemark
  rw [h, Option.isSome_some, if_pos rfl]
  intro column comment heq _
  cases heq
  rw [lineText_renderLine Markers.oneLine_default h]
  exact ⟨Int.natCast_nonneg _, Int.ofNat_le.2 (List.prefix_append _ _).length_le⟩

/-- The remark of a line that is not annotated is on it. -/
theorem onLine_of_not_written (h : written l r row.1.2 = none)
    (plain : ∀ column t, own = some (column, t) → Markers.isAnnotation {} t = false)
    (piece : Text) : OnLine {} piece (inlineRemark l r alignment row own) := by
  unfold inlineRemark
  rw [h, Option.isSome_none, if_neg Bool.false_ne_true]
  intro column comment heq marked
  rw [plain column comment heq] at marked
  cases marked

/-- A line that is not annotated is kept as it is. -/
theorem keptOf_of_not_written (h : written l r row.1.2 = none)
    (plain : ∀ column t, own = some (column, t) → Markers.isAnnotation {} t = false) :
    keptOf {} (renderLine l r (.aligned alignment) row.2 row.1.2 row.1.1)
      (inlineRemark l r alignment row own) = .whole row.1.1 := by
  rw [renderLine_of_not_written _ h, inlineRemark, h]
  dsimp only [Option.isSome_none]
  rw [if_neg Bool.false_ne_true]
  cases own with
  | none => rfl
  | some known =>
    unfold keptOf
    dsimp only
    rw [if_neg (by rw [plain known.1 known.2 rfl]; exact Bool.false_ne_true)]

end Inline

/-! ## Appended lines -/

/-- An appended line goes with the annotations: it is empty, or it starts with a marker. -/
def Falls (line : Text) : Prop :=
  line = [] ∨ line = ['\r'] ∨ Markers.isAnnotation {} (Text.trimStart line)

instance (line : Text) : Decidable (Falls line) := inferInstanceAs (Decidable (_ ∨ _ ∨ _))

/-- The remark of an appended line is what stands behind its blanks. -/
theorem blockRemark_line {t : Text} (ht : '\n' ∉ t) :
    blockRemark (t ++ ['\n']) =
      if Text.isBlankText t then none
      else some (((t.takeWhile Text.isBlank).length : Int), Text.trimStart t) := by
  have blank : Text.isBlankText (t ++ ['\n']) = Text.isBlankText t := by
    rw [Text.isBlankText_append]
    exact Bool.and_true _
  unfold blockRemark
  rw [blank]
  split
  · rfl
  · next h =>
    -- the first character that is no blank stands before the line feed
    obtain ⟨u, c, r, rfl, hu, hc⟩ := Text.eq_append_of_not_blank (Bool.eq_false_iff.2 h)
    have rest : ∀ x ∈ c :: r, x != '\n' := fun x hx =>
      bne_iff_ne.2 fun h => ht (List.mem_append_right u (h ▸ hx))
    rw [trailing, List.append_assoc, List.cons_append, Text.takeWhile_isBlank hu hc,
      Text.takeWhile_isBlank hu hc, Text.trimStart_append hu hc, List.drop_left,
      ← List.cons_append, List.takeWhile_append_of_pos rest]
    simp

/-- An appended line is dropped if it is an annotation, and kept if not. -/
theorem keptOf_block {t : Text} (ht : '\n' ∉ t) :
    keptOf {} (t ++ ['\n']) (blockRemark (t ++ ['\n'])) = .dropped ∧
        Markers.isAnnotation {} (Text.trimStart t) ∨
      keptOf {} (t ++ ['\n']) (blockRemark (t ++ ['\n'])) = .whole (t ++ ['\n']) ∧
        ¬ Markers.isAnnotation {} (Text.trimStart t) := by
  rw [blockRemark_line ht]
  split
  · next blank =>
    exact .inr ⟨rfl, by rw [Text.trimStart_of_blank blank]; decide⟩
  · next h =>
    unfold keptOf
    dsimp only
    split
    · next ha =>
      obtain ⟨u, c, r, rfl, hu, hc⟩ := Text.eq_append_of_not_blank (Bool.eq_false_iff.2 h)
      have lead : (Text.lineText (u ++ c :: r ++ ['\n'])).take u.length = u := by
        rw [List.append_assoc, List.cons_append, Text.lineText_append_visible u hc, List.take_left]
      refine .inl ⟨?_, ha⟩
      rw [Text.takeWhile_isBlank hu hc, Int.toNat_natCast, lead, if_pos hu]
    · next ha => exact .inr ⟨rfl, ha⟩

/-- An appended line falls if it is blank or an annotation. -/
theorem isTail_keptOf_block {t : Text} (ht : '\n' ∉ t) :
    (keptOf {} (t ++ ['\n']) (blockRemark (t ++ ['\n']))).isTail ↔ Falls t := by
  unfold Falls
  rcases keptOf_block ht with ⟨hk, marked⟩ | ⟨hk, unmarked⟩
  · rw [hk]
    exact ⟨fun _ => .inr (.inr marked), fun _ => rfl⟩
  · rw [hk, Kept.isTail, Bool.or_eq_true, beq_iff_eq, beq_iff_eq]
    have empty : t ++ ['\n'] = ['\n'] ↔ t = [] := List.append_left_eq_self
    have carriage : t ++ ['\n'] = ['\r'] ++ ['\n'] ↔ t = ['\r'] := List.append_left_inj ['\n']
    rw [empty, show t ++ ['\n'] = ['\r', '\n'] ↔ t = ['\r'] from carriage]
    exact ⟨fun h => h.imp_right .inl, fun h => h.imp_right fun h => h.resolve_right unmarked⟩

/-- The remark of an appended line is on it. -/
theorem onLine_blockRemark {t : Text} (ht : '\n' ∉ t) :
    OnLine {} (t ++ ['\n']) (blockRemark (t ++ ['\n'])) := by
  rw [blockRemark_line ht]
  intro column comment h _
  split at h
  · cases h
  · next visible =>
    obtain ⟨u, c, r, rfl, hu, hc⟩ := Text.eq_append_of_not_blank (Bool.eq_false_iff.2 visible)
    cases h
    rw [Text.takeWhile_isBlank hu hc, List.append_assoc, List.cons_append,
      Text.lineText_append_visible u hc, List.length_append]
    omega

theorem isAnnotation_marker_append {marker : Text}
    (hm : marker = "# >> ".toList ∨ marker = "# ~> ".toList) (t : Text) :
    Markers.isAnnotation {} (Text.trimStart (marker ++ t)) := by
  rcases hm with rfl | rfl
  · show Markers.isAnnotation {} ("# >> ".toList ++ t)
    exact Markers.isAnnotation_append (by decide) t
  · show Markers.isAnnotation {} ("# ~> ".toList ++ t)
    exact Markers.isAnnotation_append (by decide) t

/-- All appended lines go if and only if no name of an exception and no line of its backtrace holds
a line of its own that stays. -/
theorem falls_appendedLines (r : EvalResult) : (∀ t ∈ appendedLines r, Falls t) ↔
    ∀ e, r.lastException = some e → ∀ t ∈ e.className :: e.backtrace,
      ∀ line ∈ (t.splitOn '\n').tail, Falls line := by
  refine forall_appendedLines r (.inl rfl) fun marker hm => ?_
  have bare : ∀ marker ∈ ["# >> ".toList, "# ~> ".toList], Falls (Text.trimEnd marker) := by decide
  exact ⟨bare marker hm, fun t => .inr (.inr (isAnnotation_marker_append (by simpa using hm) t))⟩

/-! ## Whole programs -/

/-- Appended lines that go take the empty lines before them with them. -/
theorem dropTail_append {front back : List Kept} (falls : ∀ k ∈ back, k.isTail)
    (dropped : .dropped ∈ back) :
    dropTail (front ++ back) = Text.dropEndWhile Kept.isTail front := by
  have kept : Text.dropEndWhile Kept.isTail (front ++ back) =
      Text.dropEndWhile Kept.isTail front :=
    Text.dropEndWhile_append_of_all front (List.all_eq_true.2 falls)
  obtain ⟨s, hs, -⟩ := Text.eq_dropEndWhile_append Kept.isTail front
  have behind : (front ++ back).drop (Text.dropEndWhile Kept.isTail front).length = s ++ back := by
    conv => lhs; rhs; lhs; rw [hs]
    rw [List.append_assoc, List.drop_left]
  unfold dropTail
  dsimp only
  rw [kept, behind]
  exact if_pos (List.any_eq_true.2 ⟨.dropped, List.mem_append_right s dropped, rfl⟩)

/-- Lines at the end that all fall are dropped, if one of them was an annotation. -/
theorem dropTail_of_falls {front back : List Kept}
    (stays : ∀ k, front.getLast? = some k → ¬ k.isTail) (falls : ∀ k ∈ back, k.isTail)
    (dropped : back = [] ∨ .dropped ∈ back) : dropTail (front ++ back) = front := by
  have kept : Text.dropEndWhile Kept.isTail front = front :=
    Text.dropEndWhile_of_getLast? fun k hk => Bool.eq_false_iff.2 (stays k hk)
  rcases dropped with rfl | h
  · unfold dropTail
    dsimp only
    rw [List.append_nil, kept, List.drop_length]
    rfl
  · rw [dropTail_append falls h, kept]

theorem mem_dropTail_of_stays {front back : List Kept} {k : Kept} (hk : k ∈ back)
    (stays : ¬ k.isTail) : ∃ rest, dropTail (front ++ back) = front ++ rest ∧ rest <+: back ∧
      k ∈ rest := by
  have all : back.all Kept.isTail = false := Bool.eq_false_iff.2 fun h =>
    stays (List.all_eq_true.1 h k hk)
  have kept := Text.dropEndWhile_append (p := Kept.isTail) front all
  unfold dropTail
  dsimp only
  rw [kept]
  split
  · obtain ⟨s, hs, tail⟩ := Text.eq_dropEndWhile_append Kept.isTail back
    refine ⟨_, rfl, ⟨s, hs.symm⟩, ?_⟩
    rw [hs] at hk
    exact (List.mem_append.1 hk).resolve_right fun h => stays (List.all_eq_true.1 tail k h)
  · exact ⟨back, rfl, List.prefix_rfl, hk⟩

/-- Among the lines of a block is one that is an annotation, whatever its text holds. -/
theorem exists_isAnnotation_of_appendedLines {r : EvalResult} (h : appendedLines r ≠ []) :
    ∃ t ∈ appendedLines r, Markers.isAnnotation {} (Text.trimStart t) := by
  have first : ∀ {marker : Text}, marker = "# >> ".toList ∨ marker = "# ~> ".toList →
      ∀ {lines : List Text}, lines ≠ [] →
        ∃ t ∈ blockLines marker lines, Markers.isAnnotation {} (Text.trimStart t) := by
    intro marker hm lines hlines
    obtain ⟨u, others, rfl⟩ := List.exists_cons_of_ne_nil hlines
    have line : ∃ t ∈ List.splitOn '\n' (if u.isEmpty then Text.trimEnd marker else marker ++ u),
        Markers.isAnnotation {} (Text.trimStart t) := by
      cases u with
      | nil =>
        refine ⟨Text.trimEnd marker, ?_⟩
        rcases hm with rfl | rfl
        all_goals decide
      | cons c u =>
        cases hs : List.splitOn '\n' (c :: u) with
        | nil => exact absurd hs (List.splitOn_ne_nil _ _)
        | cons p ps =>
          refine ⟨marker ++ p, ?_⟩
          rcases hm with rfl | rfl
          · rw [List.isEmpty_cons, if_neg Bool.false_ne_true,
              Text.splitOn_append_of_notMem (by decide) _ hs]
            exact ⟨List.mem_cons_self, isAnnotation_marker_append (.inl rfl) p⟩
          · rw [List.isEmpty_cons, if_neg Bool.false_ne_true,
              Text.splitOn_append_of_notMem (by decide) _ hs]
            exact ⟨List.mem_cons_self, isAnnotation_marker_append (.inr rfl) p⟩
    obtain ⟨t, ht, marked⟩ := line
    exact ⟨t, List.mem_cons_of_mem _ (List.mem_append_left _ ht), marked⟩
  unfold appendedLines at h ⊢
  -- the first text of the first block
  by_cases hout : r.stdout.isEmpty
  · cases he : r.lastException with
    | none =>
      rw [if_pos hout, he] at h
      exact absurd rfl h
    | some e =>
      obtain ⟨t, ht, marked⟩ := first (.inr rfl) (List.cons_ne_nil e.className _)
      exact ⟨t, List.mem_append_right _ ht, marked⟩
  · have hlines : Text.lines r.stdout ≠ [] := fun hnil => by
      have whole := Text.flatten_pieces r.stdout
      rw [List.map_eq_nil_iff.1 hnil] at whole
      rw [← whole] at hout
      exact hout rfl
    obtain ⟨t, ht, marked⟩ := first (.inl rfl) hlines
    rw [if_neg hout]
    exact ⟨t, List.mem_append_left _ ht, marked⟩

section Whole

variable {l : Layout} {body : Text} {r : EvalResult} {alignment : Alignment}

/-- What becomes of a line in the annotated program. -/
def keptRow (l : Layout) (r : EvalResult) (alignment : Alignment)
    (x : ((Text × Nat) × Nat) × Option (Int × Text)) : Kept :=
  keptOf {} (renderLine l r (.aligned alignment) x.1.2 x.1.1.2 x.1.1.1)
    (inlineRemark l r alignment x.1 x.2)

/-- What becomes of a line of the program: its annotation goes with the blanks before it. -/
def keptLine (l : Layout) (r : EvalResult) (x : Text × Nat) : Kept :=
  if (written l r x.2).isSome then .trimmed (codeOf x.1) (Text.terminator x.1) else .whole x.1

/-- What becomes of the lines of the program. -/
def keptInline (l : Layout) (body : Text) (r : EvalResult) (alignment : Alignment) : List Kept :=
  ((rows l body alignment).zip (remarks body l 0 1 (Text.pieces body))).map (keptRow l r alignment)

/-- What becomes of the appended lines. -/
def keptAppended (r : EvalResult) : List Kept :=
  (appendedLines r).map fun t => keptOf {} (t ++ ['\n']) (blockRemark (t ++ ['\n']))

/-- A row is kept as its line. -/
theorem keptRow_eq {x : ((Text × Nat) × Nat) × Option (Int × Text)}
    (shown : (written l r x.1.1.2).isSome → ¬ Text.isBlankText x.1.1.1)
    (plain : ∀ column t, x.2 = some (column, t) → Markers.isAnnotation {} t = false) :
    keptRow l r alignment x = keptLine l r x.1.1 := by
  unfold keptLine
  cases h : written l r x.1.1.2 with
  | some cs =>
    rw [h] at shown
    exact (keptOf_of_written h).trans (if_neg (shown rfl))
  | none => exact keptOf_of_not_written h plain

/-- A line without blanks at its end is kept as it was. -/
theorem text_keptLine {x : Text × Nat} (trimmed : codeOf x.1 = Text.lineText x.1) :
    (keptLine l r x).text = x.1 := by
  unfold keptLine
  split
  · show codeOf x.1 ++ Text.terminator x.1 = x.1
    rw [trimmed]
    exact Text.lineText_append_terminator x.1
  · rfl

/-- A line of the program falls only if it is empty. -/
theorem isTail_keptLine {x : Text × Nat}
    (shown : (written l r x.2).isSome → ¬ Text.isBlankText x.1) :
    (keptLine l r x).isTail ↔ x.1 = ['\n'] ∨ x.1 = ['\r', '\n'] := by
  unfold keptLine
  split
  · next h =>
    have visible := shown h
    refine ⟨nofun, ?_⟩
    rintro (hx | hx)
    all_goals
      rw [hx] at visible
      exact absurd (by decide) visible
  · rw [Kept.isTail, Bool.or_eq_true, beq_iff_eq, beq_iff_eq]

/-- Each row has its remark, or none. -/
theorem map_rows_remarks :
    (((rows l body alignment).zip (remarks body l 0 1 (Text.pieces body))).map Prod.fst) =
      rows l body alignment := by
  refine List.map_fst_zip (Nat.le_of_eq ?_)
  rw [length_rows, length_remarks]

/-- The annotated lines are those of the rows. -/
theorem annotatedLines_rows : annotatedLines l body r (.aligned alignment) =
    ((rows l body alignment).zip (remarks body l 0 1 (Text.pieces body))).map fun x =>
      renderLine l r (.aligned alignment) x.1.2 x.1.1.2 x.1.1.1 := by
  show (rows l body alignment).map _ = _
  conv => lhs; rw [← map_rows_remarks]
  rw [List.map_map]
  rfl

/-- The lines of an annotated program with the comments that are known of them. -/
theorem zip_annotateWith {f : Text → Option (Int × Text)} (closed : body.Closed) :
    (Text.pieces (annotateWith l body r (.aligned alignment))).zip
      (inlineRemarks l body r alignment ++ (Text.pieces (appended r)).map f) =
        (((rows l body alignment).zip (remarks body l 0 1 (Text.pieces body))).map fun x =>
          (renderLine l r (.aligned alignment) x.1.2 x.1.1.2 x.1.1.1,
            inlineRemark l r alignment x.1 x.2)) ++
        (appendedLines r).map fun t => (t ++ ['\n'], f (t ++ ['\n'])) := by
  unfold inlineRemarks
  rw [pieces_annotateWith rfl closed, pieces_appended, annotatedLines_rows, List.map_map,
    List.zip_append, List.zip_map', List.zip_map']
  · rfl
  · rw [List.length_map, List.length_map]

/-- What is left of an annotated program, by the comments that are known of its lines. Which
comments are known of the appended lines is left open. -/
theorem removeWith_of_remarks {found : Layout} {f : Text → Option (Int × Text)}
    (closed : body.Closed)
    (same : remarks (annotateWith l body r (.aligned alignment)) found 0 1
        (Text.pieces (annotateWith l body r (.aligned alignment))) =
      inlineRemarks l body r alignment ++ (Text.pieces (appended r)).map f)
    (placed : ∀ x ∈ (Text.pieces (annotateWith l body r (.aligned alignment))).zip
      (remarks (annotateWith l body r (.aligned alignment)) found 0 1
        (Text.pieces (annotateWith l body r (.aligned alignment)))), OnLine {} x.1 x.2) :
    removeWith (annotateWith l body r (.aligned alignment)) found {} =
      .ok ((dropTail (keptInline l body r alignment ++
        (appendedLines r).map fun t => keptOf {} (t ++ ['\n']) (f (t ++ ['\n'])))).flatMap
          Kept.text) := by
  have kept : keepLines (annotateWith l body r (.aligned alignment)) found {} 0 1
      (Text.pieces (annotateWith l body r (.aligned alignment))) = .ok _ := keepLines_eq placed
  unfold removeWith
  rw [kept, same, zip_annotateWith closed, List.map_append, List.map_map, List.map_map]
  rfl

/-- If all remarks are as they should be, the annotated program is left with the lines that are
kept. -/
theorem removeWith_annotateWith {found : Layout} (closed : body.getLast? = some '\n')
    (plain : ∀ c ∈ l.comments, Markers.isAnnotation {} (c.text body) = false)
    (same : remarks (annotateWith l body r (.aligned alignment)) found 0 1
        (Text.pieces (annotateWith l body r (.aligned alignment))) =
      annotatedRemarks l body r alignment) :
    removeWith (annotateWith l body r (.aligned alignment)) found {} =
      .ok ((dropTail (keptInline l body r alignment ++ keptAppended r)).flatMap Kept.text) := by
  refine removeWith_of_remarks (.inr closed) same ?_
  -- a comment of the program is no annotation, and the others stand on their lines
  rw [same, annotatedRemarks, zip_annotateWith (.inr closed)]
  intro x hx
  rcases List.mem_append.1 hx with hx | hx
  · obtain ⟨⟨row, own⟩, hy, rfl⟩ := List.mem_map.1 hx
    cases h : written l r row.1.2 with
    | some cs => exact onLine_of_written h
    | none =>
      refine onLine_of_not_written h (fun column t hown => ?_) _
      have mem := (List.of_mem_zip hy).2
      dsimp only at mem hown
      rw [hown] at mem
      obtain ⟨c, hc, rfl⟩ := mem_comments_of_mem_remarks mem
      exact plain c hc
  · obtain ⟨t, ht, rfl⟩ := List.mem_map.1 hx
    exact onLine_blockRemark (lineFeed_notMem_appendedLines ht)

/-- Without annotations and blank lines before annotating, each line is kept by itself. -/
theorem keptInline_eq (alignment : Alignment)
    (plain : ∀ c ∈ l.comments, Markers.isAnnotation {} (c.text body) = false)
    (shown : ∀ x ∈ numberedPieces body, (written l r x.2).isSome → ¬ Text.isBlankText x.1) :
    keptInline l body r alignment = (numberedPieces body).map (keptLine l r) := by
  have each : ∀ x ∈ (rows l body alignment).zip (remarks body l 0 1 (Text.pieces body)),
      keptRow l r alignment x = keptLine l r x.1.1 := by
    intro x hx
    have hnumbered := mem_pieces_of_mem_rows (List.of_mem_zip hx).1
    refine keptRow_eq (shown _ hnumbered) fun column t hown => ?_
    have mem := (List.of_mem_zip hx).2
    rw [hown] at mem
    obtain ⟨c, hc, rfl⟩ := mem_comments_of_mem_remarks mem
    exact plain c hc
  calc keptInline l body r alignment
    _ = ((rows l body alignment).zip (remarks body l 0 1 (Text.pieces body))).map
          fun x => keptLine l r x.1.1 := List.map_congr_left each
    _ = ((((rows l body alignment).zip (remarks body l 0 1 (Text.pieces body))).map
          Prod.fst).map Prod.fst).map (keptLine l r) := by
      rw [List.map_map, List.map_map]
      rfl
    _ = (numberedPieces body).map (keptLine l r) := by rw [map_rows_remarks, map_rows]

/-- Without blanks at their ends, the lines that are kept are the program. -/
theorem flatMap_keptLine (trimmed : ∀ p ∈ Text.pieces body, codeOf p = Text.lineText p) :
    ((numberedPieces body).map (keptLine l r)).flatMap Kept.text = body := by
  have each : ∀ x ∈ numberedPieces body, (keptLine l r x).text = x.1 := by
    intro x hx
    refine text_keptLine (trimmed _ ?_)
    rw [← map_numberedPieces]
    exact List.mem_map_of_mem hx
  calc ((numberedPieces body).map (keptLine l r)).flatMap Kept.text
    _ = ((numberedPieces body).map Prod.fst).flatten := by
      rw [List.flatMap_map, List.flatMap_def]
      exact congrArg List.flatten (List.map_congr_left each)
    _ = body := by rw [map_numberedPieces, Text.flatten_pieces]

/-- The last line of the program is dropped with the appended lines just if it is empty. -/
theorem isTail_getLast?_keptLine
    (shown : ∀ x ∈ numberedPieces body, (written l r x.2).isSome → ¬ Text.isBlankText x.1) :
    (∀ k, ((numberedPieces body).map (keptLine l r)).getLast? = some k → ¬ k.isTail) ↔
      ∀ p, (Text.pieces body).getLast? = some p → p ≠ ['\n'] ∧ p ≠ ['\r', '\n'] := by
  rw [← map_numberedPieces, List.getLast?_map, List.getLast?_map]
  cases h : (numberedPieces body).getLast? with
  | none => exact ⟨fun _ => nofun, fun _ => nofun⟩
  | some x =>
    have tail := isTail_keptLine (shown x (List.mem_of_getLast? h))
    constructor
    · rintro stays p ⟨⟩
      have := stays _ rfl
      rw [tail, not_or] at this
      exact this
    · rintro visible k ⟨⟩
      rw [tail, not_or]
      exact visible _ rfl

/-- Without blanks at their ends the lines are kept as they were. -/
theorem keptInline_spec (alignment : Alignment)
    (plain : ∀ c ∈ l.comments, Markers.isAnnotation {} (c.text body) = false)
    (trimmed : ∀ p ∈ Text.pieces body, codeOf p = Text.lineText p)
    (shown : ∀ x ∈ numberedPieces body, (recorded r x.2).isSome → ¬ Text.isBlankText x.1) :
    ((keptInline l body r alignment).flatMap Kept.text = body) ∧
      ((∀ p, (Text.pieces body).getLast? = some p → ¬ Text.isBlankText p) →
        ∀ k, (keptInline l body r alignment).getLast? = some k → ¬ k.isTail) := by
  have shown' : ∀ x ∈ numberedPieces body, (written l r x.2).isSome → ¬ Text.isBlankText x.1 := by
    intro x hx h
    obtain ⟨cs, hcs⟩ := Option.isSome_iff_exists.1 h
    exact shown x hx (isSome_recorded_of_written hcs)
  rw [keptInline_eq alignment plain shown', isTail_getLast?_keptLine shown']
  refine ⟨flatMap_keptLine trimmed, fun last p hp => ?_⟩
  have visible := last p hp
  constructor
  all_goals
    rintro rfl
    exact visible (by decide)

end Whole

/-- Let a program be accepted that ends in a line feed, has no comment that starts with a marker,
no blanks at the end of a line and no blank last line, and let something be recorded only for
lines that are not blank. Let the annotated program be accepted, too, with the comments of the
program, the annotations and the appended lines as its comments. Then removing its annotations
gives the program back if and only if no class name of the exception that is appended, and no
line of its backtrace, has a line feed with a line behind it that is not empty and does not start
with a marker. -/
theorem removeAnnotations_annotate {body annotated : Text} {r : EvalResult} {alignment : Alignment}
    {s t : Scan} (closed : body.getLast? = some '\n') (accepted : scan body = .ok (.ok s))
    (plain : ∀ c ∈ s.layout.comments, Markers.isAnnotation {} (c.text body) = false)
    (trimmed : ∀ p ∈ Text.pieces body, codeOf p = Text.lineText p)
    (last : ∀ p, (Text.pieces body).getLast? = some p → ¬ Text.isBlankText p)
    (shown : ∀ x ∈ numberedPieces body, (recorded r x.2).isSome → ¬ Text.isBlankText x.1)
    (annotates : annotate body r (.aligned alignment) = .ok annotated)
    (again : scan annotated = .ok (.ok t))
    (found : remarks annotated t.layout 0 1 (Text.pieces annotated) =
      annotatedRemarks s.layout body r alignment) :
    removeAnnotations annotated {} = .ok body ↔
      ∀ e, r.lastException = some e → ∀ text ∈ e.className :: e.backtrace,
        ∀ line ∈ (text.splitOn '\n').tail, Falls line := by
  rw [← falls_appendedLines]
  obtain rfl : annotateWith s.layout body r (.aligned alignment) = annotated := by
    rw [annotate_of_scan accepted] at annotates
    exact Except.ok.inj annotates
  have removes : removeAnnotations (annotateWith s.layout body r (.aligned alignment)) {} =
      .ok ((dropTail (keptInline s.layout body r alignment ++ keptAppended r)).flatMap
        Kept.text) := by
    unfold removeAnnotations
    rw [again]
    exact removeWith_annotateWith closed plain found
  obtain ⟨restores, stays⟩ := keptInline_spec alignment plain trimmed shown
  rw [removes]
  constructor
  · -- an appended line that stays makes the result longer than the program
    intro same line hline
    refine Classical.byContradiction fun hstays => ?_
    have noLineFeed := lineFeed_notMem_appendedLines hline
    have whole := (keptOf_block noLineFeed).resolve_left fun h =>
      hstays (.inr (.inr h.2))
    have member : keptOf {} (line ++ ['\n']) (blockRemark (line ++ ['\n'])) ∈ keptAppended r :=
      List.mem_map_of_mem hline
    obtain ⟨rest, hrest, -, hmem⟩ := mem_dropTail_of_stays member
      fun h => hstays ((isTail_keptOf_block noLineFeed).1 h)
    have length := congrArg List.length (Except.ok.inj same)
    rw [hrest, List.flatMap_append, restores, List.length_append] at length
    have empty : rest.flatMap Kept.text = [] := List.length_eq_zero_iff.1 (by omega)
    have := List.flatMap_eq_nil_iff.1 empty _ hmem
    rw [whole.1] at this
    exact absurd this (List.append_ne_nil_of_right_ne_nil _ (List.cons_ne_nil _ _))
  · -- the appended lines are the tail that is dropped, for one of them is an annotation
    intro falls
    have tails : ∀ k ∈ keptAppended r, k.isTail := by
      intro k hk
      obtain ⟨line, hline, rfl⟩ := List.mem_map.1 hk
      exact (isTail_keptOf_block (lineFeed_notMem_appendedLines hline)).2 (falls line hline)
    have dropped : keptAppended r = [] ∨ .dropped ∈ keptAppended r := by
      by_cases hnil : appendedLines r = []
      · exact .inl (by rw [keptAppended, hnil, List.map_nil])
      · obtain ⟨line, hline, marked⟩ := exists_isAnnotation_of_appendedLines hnil
        rcases keptOf_block (lineFeed_notMem_appendedLines hline) with h | h
        · exact .inr (h.1 ▸ List.mem_map_of_mem hline)
        · exact absurd marked h.2
    rw [dropTail_of_falls (stays last) tails dropped, restores]

/-- A program with both kinds of line ends and a comment, with a value, output and an exception. -/
theorem removeAnnotations_annotate_restores :
    let body := "a\nb # c\r\n".toList
    let annotated := "a  # => 1\nb # c\r\n\n# >> hi\n\n# ~> E\n# ~> m\n".toList
    let r : EvalResult := .ofEvents none
      [.value 1 "1".toList, .stdout "hi\n".toList, .exception 2 "E".toList "m".toList []]
    ∃ s t : Scan, body.getLast? = some '\n' ∧ scan body = .ok (.ok s) ∧
      (∀ c ∈ s.layout.comments, Markers.isAnnotation {} (c.text body) = false) ∧
      (∀ p ∈ Text.pieces body, codeOf p = Text.lineText p) ∧
      (∀ p ∈ (Text.pieces body).getLast?, ¬ Text.isBlankText p) ∧
      (∀ x ∈ numberedPieces body, (recorded r x.2).isSome → ¬ Text.isBlankText x.1) ∧
      annotate body r (.aligned .chunk) = .ok annotated ∧ scan annotated = .ok (.ok t) ∧
      remarks annotated t.layout 0 1 (Text.pieces annotated) =
        annotatedRemarks s.layout body r .chunk ∧
      removeAnnotations annotated {} = .ok body := by
  intro body annotated r
  have checked : ∃ s ∈ scanFor 30 body, ∃ t ∈ scanFor 40 annotated,
      (∀ c ∈ s.layout.comments, Markers.isAnnotation {} (c.text body) = false) ∧
      annotateWith s.layout body r (.aligned .chunk) = annotated ∧
      remarks annotated t.layout 0 1 (Text.pieces annotated) =
        annotatedRemarks s.layout body r .chunk := by decide +kernel
  obtain ⟨s, hs, t, ht, plain, hannotated, found⟩ := checked
  have closed : body.getLast? = some '\n' := by decide
  have accepted := scan_of_scanFor hs
  have again := scan_of_scanFor ht
  have trimmed : ∀ p ∈ Text.pieces body, codeOf p = Text.lineText p := by decide +kernel
  have last : ∀ p ∈ (Text.pieces body).getLast?, ¬ Text.isBlankText p := by decide +kernel
  have shown : ∀ x ∈ numberedPieces body, (recorded r x.2).isSome → ¬ Text.isBlankText x.1 := by
    decide +kernel
  have annotates : annotate body r (.aligned .chunk) = .ok annotated := by
    rw [annotate_of_scan accepted, hannotated]
  have falls : ∀ e ∈ r.lastException, ∀ text ∈ e.className :: e.backtrace,
      ∀ line ∈ (text.splitOn '\n').tail, Falls line := by decide +kernel
  have restores := (removeAnnotations_annotate closed accepted plain trimmed last shown annotates
    again found).2 falls
  exact ⟨s, t, closed, accepted, plain, trimmed, last, shown, annotates, again, found, restores⟩

/-- The second line of a class name is a comment that no marker starts, and it stays. -/
theorem removeAnnotations_annotate_className :
    let body := "a\n".toList
    let annotated := "a  # ~> A\\n# foo: m\n\n# ~> A\n# foo\n# ~> m\n".toList
    let r : EvalResult := .ofEvents none [.exception 1 "A\n# foo".toList "m".toList []]
    ∃ s t : Scan, body.getLast? = some '\n' ∧ scan body = .ok (.ok s) ∧
      (∀ c ∈ s.layout.comments, Markers.isAnnotation {} (c.text body) = false) ∧
      (∀ p ∈ Text.pieces body, codeOf p = Text.lineText p) ∧
      (∀ p ∈ (Text.pieces body).getLast?, ¬ Text.isBlankText p) ∧
      (∀ x ∈ numberedPieces body, (recorded r x.2).isSome → ¬ Text.isBlankText x.1) ∧
      annotate body r (.aligned .chunk) = .ok annotated ∧ scan annotated = .ok (.ok t) ∧
      remarks annotated t.layout 0 1 (Text.pieces annotated) =
        annotatedRemarks s.layout body r .chunk ∧
      removeAnnotations annotated {} = .ok "a\n\n# foo\n".toList := by
  intro body annotated r
  have checked : ∃ s ∈ scanFor 30 body, ∃ t ∈ scanFor 40 annotated,
      (∀ c ∈ s.layout.comments, Markers.isAnnotation {} (c.text body) = false) ∧
      annotateWith s.layout body r (.aligned .chunk) = annotated ∧
      remarks annotated t.layout 0 1 (Text.pieces annotated) =
        annotatedRemarks s.layout body r .chunk ∧
      (removeWith annotated t.layout {}).toOption = some "a\n\n# foo\n".toList := by decide +kernel
  obtain ⟨s, hs, t, ht, plain, hannotated, found, hremoved⟩ := checked
  have accepted := scan_of_scanFor hs
  have again := scan_of_scanFor ht
  refine ⟨s, t, by decide, accepted, plain, by decide +kernel, by decide +kernel, by decide +kernel,
    ?_, again, found, ?_⟩
  · rw [annotate_of_scan accepted, hannotated]
  · unfold removeAnnotations
    rw [again]
    show removeWith annotated t.layout {} = _
    cases hw : removeWith annotated t.layout {} with
    | error e => rw [hw] at hremoved; cases hremoved
    | ok u => rw [hw] at hremoved; rw [Option.some.inj hremoved]

end Marginalia
