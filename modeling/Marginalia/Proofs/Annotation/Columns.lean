import Mathlib.Order.Bounds.Basic
import Marginalia.Proofs.Annotation.Shown

/-!
# Columns of annotations

In which column the annotations of a program start. Lines are cut into runs from the end of a
program to its start, and the columns of a run depend on its lines only (`columns_chunk_append`),
because it stands between blank lines or the ends of the program. On the other side runs are told
without cutting: two lines lie in one run if no line from the one to the other is blank (`SameRun`).
The main statement, `annotations_aligned`, says for each alignment in which column an annotation
starts.
-/

namespace Marginalia

open Source

/-- Whatever does not satisfy `p` lies in a run of such elements, between two that do or at the
ends. -/
theorem exists_run_of_mem {α : Type} {p : α → Bool} {xs : List α} {x : α} (hx : x ∈ xs)
    (outside : p x = false) : ∃ before run after, xs = before ++ run ++ after ∧ x ∈ run ∧
      (∀ y ∈ run, p y = false) ∧ (∀ y, before.getLast? = some y → p y) ∧
      ∀ y, after.head? = some y → p y := by
  obtain ⟨u, v, rfl⟩ := List.append_of_mem hx
  obtain ⟨s, hs, left⟩ := Text.eq_dropEndWhile_append (fun y => !p y) u
  have plain : ∀ y ∈ s ++ x :: v.takeWhile (fun y => !p y), p y = false := by
    rw [List.forall_mem_append, List.forall_mem_cons]
    refine ⟨fun y hy => ?_, outside, fun y hy => ?_⟩
    · exact Bool.not_eq_true' _ ▸ List.all_eq_true.1 left y hy
    · exact Bool.not_eq_true' _ ▸ List.all_eq_true.1 List.all_takeWhile y hy
  refine ⟨Text.dropEndWhile (fun y => !p y) u, s ++ x :: v.takeWhile (fun y => !p y),
    v.dropWhile (fun y => !p y), ?_, by simp, plain, fun y hy => ?_, fun y hy => ?_⟩
  · conv => lhs; rw [hs, ← List.takeWhile_append_dropWhile (p := fun y => !p y) (l := v)]
    simp only [List.append_assoc, List.cons_append]
  · simpa using Text.getLast?_dropEndWhile hy
  · have first := List.head?_dropWhile_not (fun y => !p y) v
    rw [hy] at first
    simpa using first

/-- Between two other parts, the middle of a list is zipped with one value. -/
theorem eq_of_mem_zip_append {α β : Type} {before run after : List α} {front back : List β}
    {c d : β} {x : α}
    (h : (x, d) ∈ (before ++ run ++ after).zip (front ++ List.replicate run.length c ++ back))
    (lengths : before.length = front.length) (inside : x ∉ before ∧ x ∉ after) : d = c := by
  rw [List.zip_append (by simp [lengths]), List.zip_append lengths] at h
  rcases List.mem_append.1 h with h | h
  · rcases List.mem_append.1 h with h | h
    · exact absurd (List.of_mem_zip h).1 inside.1
    · exact (List.mem_replicate.1 (List.of_mem_zip h).2).2
  · exact absurd (List.of_mem_zip h).1 inside.2

namespace Alignment

variable {before run after ls : List Line} {b : Line}

/-! ## Runs -/

/-- A blank line is a run of its own. -/
theorem runs_cons_blank (hb : b.blank) (ls : List Line) : runs (b :: ls) = [b] :: runs ls := by
  rw [runs]
  split
  · next h => rw [h]
  · next h => rw [hb, Bool.true_or, if_pos rfl, h]

theorem runs_ne_nil (hls : ls ≠ []) : runs ls ≠ [] := by
  intro h
  have whole := flatten_runs ls
  rw [h] at whole
  exact hls whole.symm

theorem runs_cons {r : List Line} {rs : List (List Line)} (h : runs ls = r :: rs) (l : Line) :
    runs (l :: ls) = if l.blank || r.any Line.blank then [l] :: r :: rs else (l :: r) :: rs := by
  rw [runs, h]

/-- What stands behind a blank line is cut by itself. -/
theorem runs_append (ends : ∀ b, before.getLast? = some b → b.blank) (rest : List Line) :
    runs (before ++ rest) = runs before ++ runs rest := by
  induction before with
  | nil => rfl
  | cons l before ih =>
    cases before with
    | nil =>
      rw [List.singleton_append, runs_cons_blank (ends l rfl), runs_cons_blank (ends l rfl)]
      rfl
    | cons k before =>
      have tail := ih fun b hb => ends b (by rwa [List.getLast?_cons_cons])
      cases hr : runs (k :: before) with
      | nil => exact absurd hr (runs_ne_nil (List.cons_ne_nil k before))
      | cons r rs =>
        rw [hr] at tail
        rw [List.cons_append, runs_cons tail, runs_cons hr]
        split <;> rfl

/-- Among lines that are not blank none is. -/
theorem any_blank_of_plain (plain : ∀ l ∈ run, l.blank = false) : run.any Line.blank = false := by
  rw [List.any_eq_false]
  intro l hl
  rw [plain l hl]
  exact Bool.false_ne_true

/-- Lines that are not blank are one run, up to a blank line or the end. -/
theorem runs_append_of_plain (plain : ∀ l ∈ run, l.blank = false) (nonempty : run ≠ [])
    (ends : ∀ b, after.head? = some b → b.blank) : runs (run ++ after) = run :: runs after := by
  induction run with
  | nil => exact absurd rfl nonempty
  | cons l run ih =>
    rw [List.forall_mem_cons] at plain
    cases run with
    | nil =>
      rw [List.singleton_append]
      cases after with
      | nil => rfl
      | cons b after =>
        have hb := ends b rfl
        rw [runs, runs_cons_blank hb]
        simp [hb]
    | cons k run =>
      rw [List.cons_append, runs_cons (ih plain.2 (List.cons_ne_nil k run)), plain.1,
        any_blank_of_plain plain.2, Bool.or_false, if_neg Bool.false_ne_true]

/-- A run has a column of its own, whatever stands before and behind it. -/
theorem columns_chunk_append (before run after : List Line)
    (starts : ∀ b, before.getLast? = some b → b.blank)
    (plain : ∀ l ∈ run, l.blank = false) (nonempty : run ≠ [])
    (ends : ∀ b, after.head? = some b → b.blank) :
    columns .chunk (before ++ run ++ after) =
      columns .chunk before ++ List.replicate run.length (greatestWidth run + 2) ++
        columns .chunk after := by
  have shared : runColumn run = greatestWidth run + 2 := by
    rw [runColumn, any_blank_of_plain plain, if_neg Bool.false_ne_true]
  unfold columns
  dsimp only
  rw [List.append_assoc, runs_append starts, runs_append_of_plain plain nonempty ends,
    List.flatMap_append, List.flatMap_cons, shared, List.map_const', List.append_assoc]

/-! ## The widest line -/

/-- The greatest width is that of a line that may be annotated, if there is one. -/
theorem isGreatest_greatestWidth (ls : List Line) (some : ∃ l ∈ ls, l.annotatable) :
    IsGreatest {w | ∃ l ∈ ls, l.annotatable ∧ l.width = w} (greatestWidth ls) := by
  have members : ∀ w, w ∈ (ls.filter Line.annotatable).map Line.width ↔
      ∃ l ∈ ls, l.annotatable ∧ l.width = w := by
    intro w
    simp only [List.mem_map, List.mem_filter, and_assoc]
  have nonempty : (ls.filter Line.annotatable).map Line.width ≠ [] := by
    obtain ⟨l, hl, open'⟩ := some
    exact List.ne_nil_of_mem ((members l.width).2 ⟨l, hl, open', rfl⟩)
  obtain ⟨m, hm⟩ := Option.ne_none_iff_exists'.1 (mt List.max?_eq_none_iff.1 nonempty)
  have greatest : greatestWidth ls = m := by
    rw [greatestWidth, List.foldl_max, hm]
    exact Nat.zero_max m
  obtain ⟨mem, le⟩ := List.max?_eq_some_iff.1 hm
  rw [greatest]
  exact ⟨(members m).1 mem, fun w hw => le w ((members w).2 hw)⟩

end Alignment

/-! ## Runs of numbered lines -/

/-- Two lines lie in one run: no line from the one to the other is blank. -/
def SameRun (body : Text) (n m : Nat) : Prop :=
  ∀ x ∈ numberedPieces body, min n m ≤ x.2 → x.2 ≤ max n m → Text.isBlankText x.1 = false

instance (body : Text) (n m : Nat) : Decidable (SameRun body n m) :=
  inferInstanceAs (Decidable (∀ x ∈ numberedPieces body, _ → _ → _))

/-- Each number is that of one line. -/
theorem eq_of_mem_numberedPieces {body : Text} {piece piece' : Text} {n : Nat}
    (h : (piece, n) ∈ numberedPieces body) (h' : (piece', n) ∈ numberedPieces body) :
    piece = piece' := by
  rw [numberedPieces, List.mk_mem_zipIdx_iff_le_and_getElem?_sub] at h h'
  exact Option.some.inj (h.2.symm.trans h'.2)

/-- A line that is not blank lies in a run. -/
theorem SameRun.refl {body : Text} {x : Text × Nat} (hx : x ∈ numberedPieces body)
    (visible : Text.isBlankText x.1 = false) : SameRun body x.2 x.2 := by
  rintro ⟨piece, n⟩ hz low high
  rw [Nat.min_self] at low
  rw [Nat.max_self] at high
  obtain rfl : n = x.2 := Nat.le_antisymm high low
  rwa [eq_of_mem_numberedPieces hz hx]

theorem SameRun.symm {body : Text} {n m : Nat} (h : SameRun body n m) : SameRun body m n := by
  unfold SameRun at h ⊢
  rwa [Nat.min_comm, Nat.max_comm]

theorem SameRun.trans {body : Text} {n m k : Nat} (h : SameRun body n m) (h' : SameRun body m k) :
    SameRun body n k := by
  intro x hx low high
  by_cases inside : min n m ≤ x.2 ∧ x.2 ≤ max n m
  · exact h x hx inside.1 inside.2
  · exact h' x hx (by omega) (by omega)

/-- The lines are numbered in their order. -/
theorem pairwise_numberedPieces (body : Text) :
    (numberedPieces body).Pairwise fun x y => x.2 < y.2 := by
  have numbers : (List.range' 1 (Text.pieces body).length).Pairwise (· < ·) :=
    List.pairwise_lt_range' 1
  rw [← List.zipIdx_map_snd, List.pairwise_map] at numbers
  exact numbers

/-- What alignment needs to know about a numbered line. -/
abbrev infoOf (l : Layout) (x : Text × Nat) : Alignment.Line := lineInfo l x.1 x.2

/-- The rows are the numbered lines with their columns. -/
theorem rows_eq (l : Layout) (body : Text) (a : Alignment) :
    rows l body a = (numberedPieces body).zip (a.columns ((numberedPieces body).map (infoOf l))) :=
  rfl

section Numbered

variable {l : Layout} {body : Text} {before run after : List (Text × Nat)} {x y : Text × Nat}

/-- The last of ordered lines has the greatest number. -/
theorem exists_getLast_ge {ls : List (Text × Nat)} (ordered : ls.Pairwise fun a b => a.2 < b.2)
    (hy : y ∈ ls) : ∃ b ∈ ls, ls.getLast? = some b ∧ y.2 ≤ b.2 := by
  rcases List.eq_nil_or_concat ls with rfl | ⟨front, b, rfl⟩
  · cases hy
  · rw [List.concat_eq_append, List.pairwise_append] at ordered
    rw [List.concat_eq_append] at hy ⊢
    have last : b ∈ [b] := List.mem_singleton_self b
    refine ⟨b, List.mem_append_right front last, List.getLast?_concat, ?_⟩
    rcases List.mem_append.1 hy with hy | hy
    · exact Nat.le_of_lt (ordered.2.2 y hy b last)
    · exact Nat.le_of_eq (congrArg Prod.snd (List.mem_singleton.1 hy))

/-- The first of ordered lines has the least number. -/
theorem exists_head_le {ls : List (Text × Nat)} (ordered : ls.Pairwise fun a b => a.2 < b.2)
    (hy : y ∈ ls) : ∃ b ∈ ls, ls.head? = some b ∧ b.2 ≤ y.2 := by
  cases ls with
  | nil => cases hy
  | cons b back =>
    refine ⟨b, List.mem_cons_self, rfl, ?_⟩
    rcases List.mem_cons.1 hy with rfl | hy
    · exact Nat.le_refl _
    · exact Nat.le_of_lt ((List.pairwise_cons.1 ordered).1 y hy)

/-- Lines of a program that lie together between blank lines, or the ends of the program. -/
structure IsRun (body : Text) (before run after : List (Text × Nat)) : Prop where
  parts : numberedPieces body = before ++ run ++ after
  plain : ∀ y ∈ run, Text.isBlankText y.1 = false
  starts : ∀ b, before.getLast? = some b → Text.isBlankText b.1
  ends : ∀ b, after.head? = some b → Text.isBlankText b.1

/-- A line that is not blank lies in a run. -/
theorem exists_isRun (hx : x ∈ numberedPieces body) (visible : Text.isBlankText x.1 = false) :
    ∃ before run after, IsRun body before run after ∧ x ∈ run := by
  obtain ⟨before, run, after, parts, inside, plain, starts, ends⟩ :=
    exists_run_of_mem (p := fun y : Text × Nat => Text.isBlankText y.1) hx visible
  exact ⟨before, run, after, ⟨parts, plain, starts, ends⟩, inside⟩

namespace IsRun

theorem mem_of_mem (h : IsRun body before run after) (hx : x ∈ run) : x ∈ numberedPieces body := by
  rw [h.parts]
  exact List.mem_append_left after (List.mem_append_right before hx)

/-- The numbers grow from what stands before a run to what stands behind it. -/
theorem ordered (h : IsRun body before run after) :
    (before.Pairwise fun a b => a.2 < b.2) ∧ (after.Pairwise fun a b => a.2 < b.2) ∧
      ∀ y ∈ run, (∀ b ∈ before, b.2 < y.2) ∧ ∀ a ∈ after, y.2 < a.2 := by
  have whole := pairwise_numberedPieces body
  rw [h.parts, List.pairwise_append, List.pairwise_append] at whole
  obtain ⟨⟨first, -, low⟩, last, high⟩ := whole
  exact ⟨first, last, fun y hy =>
    ⟨fun b hb => low b hb y hy, fun a ha => high y (List.mem_append_right before hy) a ha⟩⟩

/-- No line of a run stands before or behind it. -/
theorem notMem_around (h : IsRun body before run after) (hx : x ∈ run) :
    x ∉ before ∧ x ∉ after := by
  obtain ⟨low, high⟩ := h.ordered.2.2 x hx
  exact ⟨fun hb => Nat.lt_irrefl _ (low x hb), fun ha => Nat.lt_irrefl _ (high x ha)⟩

/-- Two lines of a program lie in one run just if no line from the one to the other is blank. -/
theorem mem_iff_sameRun (h : IsRun body before run after) (hx : x ∈ run)
    (hy : y ∈ numberedPieces body) :
    y ∈ run ↔ SameRun body x.2 y.2 := by
  obtain ⟨first, last, inside⟩ := h.ordered
  obtain ⟨low, high⟩ := inside x hx
  have members : ∀ z, z ∈ numberedPieces body ↔ z ∈ before ∨ z ∈ run ∨ z ∈ after := by
    intro z
    rw [h.parts, List.append_assoc, List.mem_append, List.mem_append]
  constructor
  · intro hy z hz least greatest
    obtain ⟨lowY, highY⟩ := inside y hy
    rcases (members z).1 hz with hz | hz | hz
    · have := low z hz
      have := lowY z hz
      omega
    · exact h.plain z hz
    · have := high z hz
      have := highY z hz
      omega
  · intro same
    -- otherwise the blank line at the end of the run lies between the two
    have clash : ∀ b ∈ numberedPieces body, Text.isBlankText b.1 → min x.2 y.2 ≤ b.2 →
        b.2 ≤ max x.2 y.2 → y ∈ run := by
      intro b hb blank least greatest
      rw [same b hb least greatest] at blank
      cases blank
    rcases (members y).1 hy with hy | hy | hy
    · obtain ⟨b, hb, isLast, le⟩ := exists_getLast_ge first hy
      have := low b hb
      exact clash b ((members b).2 (.inl hb)) (h.starts b isLast) (by omega) (by omega)
    · exact hy
    · obtain ⟨b, hb, isHead, le⟩ := exists_head_le last hy
      have := high b hb
      exact clash b ((members b).2 (.inr (.inr hb))) (h.ends b isHead) (by omega) (by omega)

/-- The lines of a run are cut as one run, and share a column. -/
theorem column_eq (h : IsRun body before run after) (hx : x ∈ run) {column : Nat}
    (hrow : (x, column) ∈ rows l body .chunk) :
    column = Alignment.greatestWidth (run.map (infoOf l)) + 2 := by
  have plain : ∀ i ∈ run.map (infoOf l), i.blank = false := List.forall_mem_map.2 h.plain
  have nonempty : run.map (infoOf l) ≠ [] := List.ne_nil_of_mem (List.mem_map_of_mem hx)
  have starts : ∀ b, (before.map (infoOf l)).getLast? = some b → b.blank := by
    intro b hb
    rw [List.getLast?_map] at hb
    obtain ⟨y, hy, rfl⟩ := Option.map_eq_some_iff.1 hb
    exact h.starts y hy
  have ends : ∀ b, (after.map (infoOf l)).head? = some b → b.blank := by
    intro b hb
    rw [List.head?_map] at hb
    obtain ⟨y, hy, rfl⟩ := Option.map_eq_some_iff.1 hb
    exact h.ends y hy
  have columns := Alignment.columns_chunk_append _ _ _ starts plain nonempty ends
  have lengths : before.length = (Alignment.columns .chunk (before.map (infoOf l))).length := by
    rw [Alignment.length_columns, List.length_map]
  rw [rows_eq, h.parts, List.map_append, List.map_append, columns, List.length_map] at hrow
  exact eq_of_mem_zip_append hrow lengths (h.notMem_around hx)

end IsRun

/-- The widths of the lines that may be annotated, with two more columns. -/
def openColumns (l : Layout) (body : Text) (counts : Nat → Prop) : Set Nat :=
  {c | ∃ x ∈ numberedPieces body, counts x.2 ∧ isAnnotatable l x.2 ∧ (codeOf x.1).length + 2 = c}

/-- The greatest width among some lines gives the greatest column that they ask for. -/
theorem isGreatest_openColumns {counts : Nat → Prop} {ls : List (Text × Nat)}
    (members : ∀ y, y ∈ ls ↔ y ∈ numberedPieces body ∧ counts y.2)
    (some : ∃ y ∈ ls, isAnnotatable l y.2) :
    IsGreatest (openColumns l body counts) (Alignment.greatestWidth (ls.map (infoOf l)) + 2) := by
  have open' : ∃ i ∈ ls.map (infoOf l), i.annotatable := by
    obtain ⟨y, hy, open'⟩ := some
    exact ⟨_, List.mem_map_of_mem hy, open'⟩
  obtain ⟨mem, le⟩ := Alignment.isGreatest_greatestWidth _ open'
  constructor
  · obtain ⟨i, hi, open', width⟩ := mem
    obtain ⟨y, hy, rfl⟩ := List.mem_map.1 hi
    have hy := (members y).1 hy
    exact ⟨y, hy.1, hy.2, open', congrArg (· + 2) width⟩
  · rintro c ⟨y, hy, counted, open', rfl⟩
    have hw := le ⟨_, List.mem_map_of_mem ((members y).2 ⟨hy, counted⟩), open', rfl⟩
    exact Nat.add_le_add_right hw 2

/-- The column of a line that is not blank is two more than the greatest width in its run. -/
theorem isGreatest_of_mem_rows_chunk {column : Nat} (hrow : (x, column) ∈ rows l body .chunk)
    (visible : Text.isBlankText x.1 = false) (open' : isAnnotatable l x.2) :
    IsGreatest (openColumns l body (SameRun body x.2)) column := by
  obtain ⟨before, run, after, isRun, hx⟩ := exists_isRun (mem_pieces_of_mem_rows hrow) visible
  have members : ∀ y, y ∈ run ↔ y ∈ numberedPieces body ∧ SameRun body x.2 y.2 := fun y =>
    ⟨fun hy => ⟨isRun.mem_of_mem hy, (isRun.mem_iff_sameRun hx (isRun.mem_of_mem hy)).1 hy⟩,
      fun h => (isRun.mem_iff_sameRun hx h.1).2 h.2⟩
  rw [isRun.column_eq hx hrow]
  exact isGreatest_openColumns members ⟨x, hx, open'⟩

/-- No column is asked for where each line has its own. -/
theorem column_eq_zero {column : Nat} (hrow : (x, column) ∈ rows l body .line) : column = 0 := by
  obtain ⟨-, hcolumn⟩ := List.of_mem_zip hrow
  obtain ⟨-, -, rfl⟩ := List.mem_map.1 hcolumn
  rfl

/-- In a file there is one column, the greatest that a line asks for. -/
theorem isGreatest_of_mem_rows_file {column : Nat} (hrow : (x, column) ∈ rows l body .file)
    (open' : isAnnotatable l x.2) : IsGreatest (openColumns l body fun _ => True) column := by
  obtain ⟨numbered, hcolumn⟩ := List.of_mem_zip hrow
  obtain ⟨-, -, rfl⟩ := List.mem_map.1 hcolumn
  exact isGreatest_openColumns (fun y => (and_iff_left trivial).symm) ⟨x, numbered, open'⟩

end Numbered

/-! ## Where annotations start -/

/-- The column in which an annotation of a line starts. -/
def startColumn (l : Layout) (body : Text) (a : Alignment) (line : Nat) : Nat :=
  match (rows l body a)[line - 1]? with
  | some row => max row.2 ((codeOf row.1.1).length + 2)
  | none => 0

section Starts

variable {l : Layout} {body : Text} {a : Alignment} {x y : Text × Nat} {column : Nat}

/-- An annotation starts at the column of its row, or behind the code. -/
theorem startColumn_of_mem_rows (h : (x, column) ∈ rows l body a) :
    startColumn l body a x.2 = max column ((codeOf x.1).length + 2) := by
  obtain ⟨i, hi⟩ := List.mem_iff_getElem?.1 h
  have number : (numberedPieces body)[i]? = some x := (List.getElem?_zip_eq_some.1 hi).1
  rw [numberedPieces, List.getElem?_zipIdx] at number
  obtain ⟨piece, -, rfl⟩ := Option.map_eq_some_iff.1 number
  rw [startColumn, Nat.add_sub_cancel_left, hi]

/-- Each line has a row. -/
theorem exists_row (a : Alignment) (hx : x ∈ numberedPieces body) :
    ∃ column, (x, column) ∈ rows l body a := by
  rw [← map_rows l body a] at hx
  obtain ⟨⟨x, column⟩, hrow, rfl⟩ := List.mem_map.1 hx
  exact ⟨column, hrow⟩

/-- A column that no line may exceed is that of its annotations. -/
theorem startColumn_of_isGreatest {counts : Nat → Prop} (hrow : (x, column) ∈ rows l body a)
    (counted : counts x.2) (open' : isAnnotatable l x.2)
    (greatest : IsGreatest (openColumns l body counts) column) :
    startColumn l body a x.2 = column := by
  have reaches := greatest.2 ⟨x, mem_pieces_of_mem_rows hrow, counted, open', rfl⟩
  rw [startColumn_of_mem_rows hrow, Nat.max_eq_left reaches]

/-- By lines, an annotation starts two characters behind its code. -/
theorem startColumn_line (hx : x ∈ numberedPieces body) :
    startColumn l body .line x.2 = (codeOf x.1).length + 2 := by
  obtain ⟨column, hrow⟩ := exists_row (l := l) .line hx
  rw [startColumn_of_mem_rows hrow, column_eq_zero hrow, Nat.zero_max]

/-- By chunks, it starts at the greatest column that a line of its run asks for. -/
theorem isGreatest_startColumn_chunk (hx : x ∈ numberedPieces body)
    (visible : Text.isBlankText x.1 = false) (open' : isAnnotatable l x.2) :
    IsGreatest (openColumns l body (SameRun body x.2)) (startColumn l body .chunk x.2) := by
  obtain ⟨column, hrow⟩ := exists_row (l := l) .chunk hx
  have greatest := isGreatest_of_mem_rows_chunk hrow visible open'
  rwa [startColumn_of_isGreatest hrow (.refl hx visible) open' greatest]

/-- By files, it starts at the greatest column that a line asks for. -/
theorem isGreatest_startColumn_file (hx : x ∈ numberedPieces body) (open' : isAnnotatable l x.2) :
    IsGreatest (openColumns l body fun _ => True) (startColumn l body .file x.2) := by
  obtain ⟨column, hrow⟩ := exists_row (l := l) .file hx
  have greatest := isGreatest_of_mem_rows_file hrow open'
  rwa [startColumn_of_isGreatest hrow trivial open' greatest]

end Starts

/-- Where the annotations of a program stand, given the lines of the annotated program and the
column for each line. -/
structure Aligned (l : Layout) (body : Text) (r : EvalResult) (o : AnnotateOptions)
    (lines : List Text) (column : Nat → Nat) : Prop where
  length : lines.length = (Text.pieces body).length
  /-- The annotation of a line starts in its column, two columns behind the code at least. -/
  starts : ∀ x line, (x, line) ∈ (numberedPieces body).zip lines → Shows l r x.2 →
    ∃ cs n, recorded r x.2 = some cs ∧ 2 ≤ n ∧ (codeOf x.1).length + n = column x.2 ∧
      line = codeOf x.1 ++ List.replicate n ' ' ++ renderCaptures o cs ++ Text.terminator x.1
  others : ∀ x line, (x, line) ∈ (numberedPieces body).zip lines → ¬ Shows l r x.2 → line = x.1
  line : o.alignment = .line → ∀ x ∈ numberedPieces body, Shows l r x.2 →
    column x.2 = (codeOf x.1).length + 2
  chunk : o.alignment = .chunk → ∀ x ∈ numberedPieces body, Shows l r x.2 →
    Text.isBlankText x.1 = false → IsGreatest (openColumns l body (SameRun body x.2)) (column x.2)
  /-- The annotations of a run share one column. -/
  run : o.alignment = .chunk → ∀ x ∈ numberedPieces body, ∀ y ∈ numberedPieces body,
    Shows l r x.2 → Shows l r y.2 → SameRun body x.2 y.2 → column x.2 = column y.2
  file : o.alignment = .file → ∀ x ∈ numberedPieces body, Shows l r x.2 →
    IsGreatest (openColumns l body fun _ => True) (column x.2)
  /-- The annotations of a program share one column. -/
  whole : o.alignment = .file → ∀ x ∈ numberedPieces body, ∀ y ∈ numberedPieces body,
    Shows l r x.2 → Shows l r y.2 → column x.2 = column y.2

section Whole

variable {l : Layout} {body : Text} {r : EvalResult} {o : AnnotateOptions}

/-- A line that shows something may have an annotation. -/
theorem isAnnotatable_of_shows {line : Nat} (h : Shows l r line) : isAnnotatable l line :=
  isAnnotatable_iff.2 h.2

/-- Lines of one run ask for the same columns. -/
theorem openColumns_congr {n m : Nat} (same : SameRun body n m) :
    openColumns l body (SameRun body n) = openColumns l body (SameRun body m) := by
  have counts : SameRun body n = SameRun body m :=
    funext fun k => propext ⟨same.symm.trans, same.trans⟩
  rw [counts]

/-- The annotated lines are aligned. -/
theorem aligned_annotatedLines :
    Aligned l body r o (annotatedLines l body r o) (startColumn l body o.alignment) where
  length := length_annotatedLines ..
  starts x line hx shows := by
    obtain ⟨column, cs, n, hrow, hcs, two, width, hline⟩ := exists_annotation_of_mem_zip hx shows
    rw [← startColumn_of_mem_rows hrow] at width
    exact ⟨cs, n, hcs, two, width, hline⟩
  others x line hx hides := eq_of_mem_zip_of_not_shows hx hides
  line alignment x hx shows := by
    rw [alignment, startColumn_line hx]
  chunk alignment x hx shows visible := by
    rw [alignment]
    exact isGreatest_startColumn_chunk hx visible (isAnnotatable_of_shows shows)
  run alignment x hx y hy showsX showsY same := by
    rw [alignment]
    have visibleX := same x hx (Nat.min_le_left ..) (Nat.le_max_left ..)
    have visibleY := same y hy (Nat.min_le_right ..) (Nat.le_max_right ..)
    have first := isGreatest_startColumn_chunk hx visibleX (isAnnotatable_of_shows showsX)
    have second := isGreatest_startColumn_chunk hy visibleY (isAnnotatable_of_shows showsY)
    rw [openColumns_congr same] at first
    exact first.unique second
  file alignment x hx shows := by
    rw [alignment]
    exact isGreatest_startColumn_file hx (isAnnotatable_of_shows shows)
  whole alignment x hx y hy showsX showsY := by
    rw [alignment]
    exact (isGreatest_startColumn_file hx (isAnnotatable_of_shows showsX)).unique
      (isGreatest_startColumn_file hy (isAnnotatable_of_shows showsY))

end Whole

/-- Annotations start two columns behind the code of their line, or two behind the widest line that
may be annotated, be it among the lines of a run or of the whole program. -/
theorem annotations_aligned {body annotated : Text} {r : EvalResult} {o : AnnotateOptions}
    (annotates : annotate body r o = .ok annotated) : ∃ l lines column, layoutOf body = .ok l ∧
      annotated = lines.flatten ++ (stdoutBlock o.markers r ++ exceptionBlock o.markers r) ∧
      Aligned l body r o lines column := by
  obtain ⟨l, layout, rfl⟩ := annotate_eq_ok.1 annotates
  refine ⟨l, annotatedLines l body r o, startColumn l body o.alignment, layout, ?_,
    aligned_annotatedLines⟩
  rw [annotateWith, List.append_assoc]

/-- A run between blank lines. Its widest line has a comment, and its widest line that may be
annotated is one for which nothing was captured. -/
theorem annotations_aligned_blank_lines :
    let body := "\nlong_name = 1 # note\né = 2\nlonger = 3\n \ny\n".toList
    let r : EvalResult :=
      .ofEvents none [.value 2 "1".toList, .value 3 "2".toList, .value 6 "0".toList]
    let annotated := "\nlong_name = 1 # note\né = 2       # => 2\nlonger = 3\n \ny  # => 0\n".toList
    annotate body r {} = .ok annotated ∧ ∃ l lines column, layoutOf body = .ok l ∧
      Aligned l body r {} lines column ∧ column 3 = 12 := by
  intro body r annotated
  have checked : ∃ s ∈ scanFor 60 body, annotateWith s.layout body r {} = annotated ∧
      Shows s.layout r 3 ∧ isAnnotatable s.layout 4 ∧
      ∀ x ∈ numberedPieces body, SameRun body 3 x.2 → isAnnotatable s.layout x.2 →
        (codeOf x.1).length + 2 ≤ 12 := by
    decide +kernel
  obtain ⟨s, hs, hannotated, third, fourth, widest⟩ := checked
  have accepted := scan_of_scanFor hs
  have annotates : annotate body r {} = .ok annotated := by
    rw [annotate_of_scan accepted, hannotated]
  obtain ⟨l, lines, column, layout, -, aligned⟩ := annotations_aligned annotates
  obtain rfl : s.layout = l := Except.ok.inj ((layoutOf_of_scan accepted).symm.trans layout)
  have greatest := aligned.chunk rfl ("é = 2\n".toList, 3) (by decide +kernel) third
    (by decide +kernel)
  refine ⟨annotates, s.layout, lines, column, layout, aligned, Nat.le_antisymm ?_ ?_⟩
  · obtain ⟨x, hx, same, open', width⟩ := greatest.1
    exact width ▸ widest x hx same open'
  · exact greatest.2
      ⟨("longer = 3\n".toList, 4), by decide +kernel, by decide +kernel, fourth, by decide +kernel⟩

end Marginalia
