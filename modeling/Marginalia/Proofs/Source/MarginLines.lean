import Marginalia.Proofs.Source.Ahead

/-!
# Programs with other margins, line by line

Two programs with the same lines but for what stands behind the code of some of them
(`Margins.Lines`). From this description the walks over both start side by side
(`Margins.Lines.along`), and a line of the second is a call on the line above if it is one in the
first (`Margins.Lines.leadingDot`).
-/

namespace Marginalia.Source

namespace Margins

variable {m : Margins} {n : Nat} {x x' y p q : Text} {xs xs' : List Text}

/-- A line in the first program and in the second. -/
inductive Line (m : Margins) (n : Nat) : Text → Text → Prop where
  | same {x : Text} (line : Text.IsLine x) (plain : ¬ m.differs n) : Line m n x x
  | margin {z u w : Text} (differs : m.differs n) (ends : m.ends u w)
      (apart : (m.comment n).isSome → w ≠ []) (line : '\n' ∉ z)
      (visible : ∀ c, z.getLast? = some c → Text.isAsciiBlank c = false) :
      Line m n (z ++ (u ++ ['\n'])) (z ++ (w ++ ((m.comment n).getD [] ++ ['\n'])))

/-- The lines of both programs from the given one on, up to the last. -/
inductive Lines (m : Margins) : Nat → List Text → List Text → Prop where
  | nil : Lines m m.last [] []
  | cons {n : Nat} {x x' : Text} {xs xs' : List Text} (line : m.Line n x x')
    (rest : Lines m (n + 1) xs xs') :
      Lines m n (x :: xs) (x' :: xs')

/-- Rows that are numbered one by one, each of which is a line in both programs. -/
theorem lines_of_rows {α : Type} {rs : List α} (number : α → Nat) {left right : α → Text}
    (numbers : rs.map number = List.range' n rs.length) (last : m.last = n + rs.length)
    (each : ∀ a ∈ rs, m.Line (number a) (left a) (right a)) :
    m.Lines n (rs.map left) (rs.map right) := by
  induction rs generalizing n with
  | nil =>
    have here : m.last = n := last
    rw [← here]
    exact .nil
  | cons a rs ih =>
    rw [List.map_cons, List.length_cons, List.range'_succ] at numbers
    obtain ⟨rfl, numbers⟩ := List.cons.inj numbers
    rw [List.length_cons, ← Nat.add_assoc, Nat.add_right_comm] at last
    rw [List.forall_mem_cons] at each
    exact .cons each.1 (ih numbers last each.2)

/-- Both programs have as many lines. -/
theorem Lines.length_eq (h : m.Lines n xs xs') : xs'.length = xs.length := by
  induction h with
  | nil => rfl
  | cons _ _ ih => rw [List.length_cons, List.length_cons, ih]

/-- The lines are counted up to the last one. -/
theorem Lines.last_eq (h : m.Lines n xs xs') : n + xs.length = m.last := by
  induction h with
  | nil => rfl
  | cons _ _ ih => rw [List.length_cons, Nat.add_comm _ 1, ← Nat.add_assoc, ih]

/-- The lines of the second program are finished, too. -/
theorem Lines.isLine (h : m.Lines n xs xs') : ∀ x ∈ xs', Text.IsLine x := by
  induction h with
  | nil => exact nofun
  | @cons n _ _ _ _ line _ ih =>
    refine List.forall_mem_cons.2 ⟨?_, ih⟩
    cases line with
    | same isLine => exact isLine
    | @margin z u w differs ends apart line =>
      refine ⟨z ++ (w ++ (m.comment n).getD []), ?_, by simp only [List.append_assoc]⟩
      have comment : '\n' ∉ (m.comment n).getD [] := by
        cases hc : m.comment n with
        | none => exact List.not_mem_nil
        | some c =>
          obtain ⟨r, rfl, hr⟩ := m.isComment n c hc
          exact List.not_mem_cons_of_ne_of_not_mem (by decide) hr
      rw [List.mem_append, List.mem_append, not_or, not_or]
      exact ⟨line, (m.blanks u w ends).2.notMem (.inr rfl), comment⟩

/-! ## Side by side -/

theorem lineFeeds_isLine_append (h : Text.IsLine x) (y : Text) :
    Text.lineFeeds (x ++ y) = Text.lineFeeds y + 1 := by
  rw [Text.lineFeeds_append, Text.lineFeeds_isLine h, Nat.add_comm]

/-- A line that stays as it is goes before what follows it. -/
theorem stretch_of_same (h : Text.IsLine x) (same : ¬ m.differs n)
    (stretch : m.Stretch (n + 1) y p q) :
    m.Stretch n (x ++ y) p q := by
  have count := lineFeeds_isLine_append h y
  have next : n + Text.lineFeeds (x ++ y) = n + 1 + Text.lineFeeds y := by omega
  refine ⟨fun i h1 h2 => ?_, fun c hc => ?_, fun hp => ?_, by rw [next]; exact stretch.split⟩
  · rcases Nat.eq_or_lt_of_le h1 with rfl | lt
    · exact same
    · exact stretch.plain i lt (by omega)
  · rw [List.getLast?_append] at hc
    cases hy : y.getLast? with
    | some d =>
      rw [hy] at hc
      exact stretch.visible c (hy.trans hc)
    | none =>
      obtain ⟨t, -, rfl⟩ := h
      rw [hy, List.getLast?_concat] at hc
      exact .inr (Option.some.inj hc).symm
  · exact h.closed.append (stretch.closed hp)

/-- The code of a line that differs goes before its margins. -/
theorem stretch_of_margin {z u w : Text} (differs : m.differs n) (ends : m.ends u w)
    (apart : (m.comment n).isSome → w ≠ []) (line : '\n' ∉ z)
    (visible : ∀ c, z.getLast? = some c → Text.isAsciiBlank c = false)
    (stretch : m.Stretch (n + 1) y p q) :
    m.Stretch n z (u ++ '\n' :: (y ++ p)) (w ++ ((m.comment n).getD [] ++ '\n' :: (y ++ q))) := by
  have count := Text.lineFeeds_eq_zero line
  refine ⟨fun i h1 h2 => ?_, fun c hc => .inl (visible c hc), fun hp => ?_, ?_⟩
  · omega
  · exact absurd hp (List.append_ne_nil_of_right_ne_nil _ (List.cons_ne_nil _ _))
  · rw [count]
    exact .line differs ends apart stretch.plain stretch.visible stretch.closed stretch.split

/-- Both programs go on with the same text, up to the code of the next line that differs. -/
theorem Lines.exists_stretch (h : m.Lines n xs xs') : ∃ y p q, xs.flatten = y ++ p ∧
    xs'.flatten ++ m.below = y ++ q ∧ m.Stretch n y p q := by
  induction h with
  | nil =>
    have none : ∀ i, m.last ≤ i → i < m.last + Text.lineFeeds [] → ¬ m.differs i := fun i h1 h2 =>
      absurd h2 (Nat.not_lt_of_le h1)
    exact ⟨[], [], m.below, rfl, rfl, none, nofun, fun _ => .inl rfl, .ended⟩
  | cons line _ ih =>
    obtain ⟨y, p, q, left, right, stretch⟩ := ih
    rw [List.flatten_cons, List.flatten_cons, left, List.append_assoc, right]
    cases line with
    | same isLine plain =>
      exact ⟨_ ++ y, p, q, (List.append_assoc ..).symm, (List.append_assoc ..).symm,
        stretch_of_same isLine plain stretch⟩
    | @margin z u w differs ends apart line visible =>
      refine ⟨z, _, _, ?_, ?_, stretch_of_margin differs ends apart line visible stretch⟩
      · rw [List.append_assoc, List.append_assoc]
        rfl
      · rw [List.append_assoc, List.append_assoc, List.append_assoc]
        rfl

/-- The walks over both programs start at the same place. -/
theorem Lines.along (h : m.Lines 1 xs xs') :
    Tokenizer.Along m (.ofSource xs.flatten) (.ofSource (xs'.flatten ++ m.below)) := by
  obtain ⟨y, p, q, left, right, stretch⟩ := h.exists_stretch
  exact Tokenizer.along_of_stretch
    ⟨⟨left, right, rfl, rfl, stretch.seam⟩, rfl, rfl, rfl, .nil⟩ stretch
    fun _ _ _ _ _ _ => rfl

/-! ## Calls on the line above -/

/-- Behind a line without code that has a comment in the second program only, no line goes on with a
call. -/
def Quiet (m : Margins) (n : Nat) (xs : List Text) : Prop :=
  ∀ i x, xs[i]? = some x → (m.comment (n + i)).isSome → Text.isBlankText x →
    Source.leadingDot false (xs.drop (i + 1)).flatten = false

theorem Quiet.tail (h : m.Quiet n (x :: xs)) : m.Quiet (n + 1) xs := fun i y hy comment blank =>
  h (i + 1) y hy (by rwa [Nat.add_right_comm] at comment) blank

/-- What a line of the second program is to the line above, it is in the first. -/
theorem Lines.leadingDot (h : m.Lines n xs xs') (below : m.below = [] ∨ ∃ r, m.below = '\n' :: r)
    (quiet : m.Quiet n xs) (k : Nat) : Source.leadingDot false ((xs'.drop k).flatten ++ m.below) =
      Source.leadingDot false (xs.drop k).flatten := by
  induction h generalizing k with
  | nil =>
    rw [List.drop_nil, List.flatten_nil, List.nil_append]
    rcases below with below | ⟨r, below⟩
    · rw [below]
    · rw [below]
      rfl
  | @cons n x x' xs xs' line _ ih =>
    cases k with
    | succ k => exact ih quiet.tail k
    | zero =>
      have next := ih quiet.tail 0
      rw [List.drop_zero, List.drop_zero] at next ⊢
      rw [List.flatten_cons, List.flatten_cons, List.append_assoc]
      have nothing : Blanks [] := fun _ hc => nomatch hc
      -- what leads below is the same, and the line hides or shows it alike
      cases line with
      | same isLine =>
        obtain ⟨z, hz, rfl⟩ := isLine
        rw [List.append_assoc, List.append_assoc]
        exact leadingDot_margin (u := []) (w := []) (v := []) hz nothing nothing (.inl rfl) next
          fun none => absurd rfl none
      | @margin z u w differs ends apart hz visible =>
        obtain ⟨hu, hw⟩ := m.blanks u w ends
        have comment : (m.comment n).getD [] = [] ∨
            ∃ r, (m.comment n).getD [] = '#' :: r ∧ '\n' ∉ r := by
          cases hc : m.comment n with
          | none => exact .inl rfl
          | some c => exact .inr (m.isComment n c hc)
        rw [List.append_assoc, List.append_assoc, List.append_assoc, List.append_assoc,
          List.append_assoc]
        refine leadingDot_margin hz hu hw comment next fun some blank => ?_
        refine quiet 0 _ rfl (Option.isSome_iff_ne_none.2 fun none => some ?_) ?_
        · rw [show n + 0 = n from rfl] at none
          rw [none]
          rfl
        · rw [Text.isBlankText_append, blank, Text.isBlankText_append, hu.isBlankText]
          rfl

end Margins

end Marginalia.Source
