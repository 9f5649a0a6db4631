import Marginalia.Proofs.Source.Sealed

/-!
# Lines that end in code

A complete walk over a program of finished lines, and a line that it does not show to be sealed. The
walk comes to the end of that line with all literals closed (`Whole.outside`), and no step goes over
it (`Whole.lands`).
-/

namespace Marginalia.Source

namespace Tokenizer

variable {s t u : Tokenizer} {found : List Finding}

/-! ## Open literals -/

/-- After a step some literal is open. -/
def Open : Step → Prop
  | .next _ s => s.suspended ≠ []
  | .stop _ _ => True

theorem open_prepend {step : Step} (found : List Finding) (h : Open step) :
    Open (step.prepend found) := by
  cases step <;> exact h

theorem ReadsOn.open {l : OpenLiteral} {step : Step} (h : s.ReadsOn l step)
    (hs : s.suspended ≠ []) :
    Open step := by
  cases h with
  | closed => exact hs
  | interpolation => exact List.cons_ne_nil _ _
  | unterminated | split => trivial

theorem Settles.open {k : Token} {step : Step} (h : s.Settles k step) (hs : s.suspended ≠ [])
    (hk : k.isPunct rightBrace = false) : Open step := by
  cases h with
  | record => exact hs
  | count => exact List.cons_ne_nil _ _
  | close _ _ _ _ closing =>
    rw [hk] at closing
    cases closing

/-- Inside of literals a token that is taken leaves them open, unless it is a closing brace. -/
theorem open_take {kind : TokenKind} {more : Nat} (hs : s.suspended ≠ [])
    (h : s.cursor.rest.head? ≠ some '}') : Open (s.take kind more) := by
  refine (settles { s with cursor := s.behind kind more } _).open hs
    (Bool.eq_false_iff.2 fun brace => h ?_)
  unfold Token.isPunct at brace
  rw [Bool.and_eq_true, beq_iff_eq, beq_iff_eq] at brace
  have text : s.cursor.rest.take (more + 1) = ['}'] := brace.2
  cases hr : s.cursor.rest with
  | nil =>
    rw [hr] at text
    cases text
  | cons c r =>
    rw [hr, List.take_succ_cons] at text
    rw [(List.cons.inj text).1]
    rfl

/-- What a character starts leaves literals open, unless it is a closing brace. -/
theorem Takes.open {c : Char} {r : Text} {step : Step} (h : s.Takes c r step)
    (hs : s.suspended ≠ []) (head : s.cursor.rest.head? ≠ some '}') : Open step := by
  cases h with
  | name _ _ pending => exact open_take (s := s.readied s.spaced pending) hs head
  | token spaced waits => exact open_take (s := s.readied spaced waits) hs head
  | newline spaced waits =>
    have breaks := (s.readied spaced waits).breaks
    generalize (s.readied spaced waits).takeNewline = step at breaks ⊢
    cases breaks with
    | unterminated => trivial
    | below => exact open_prepend _ hs
  | literal spaced waits => exact (readsOn { s.readied spaced waits with cursor := _ } _).open hs
  | heredoc spaced waits =>
    exact open_prepend _ (open_take (s := { s.readied spaced waits with heredocs := _ }) hs head)
  | refuse | split => trivial

/-- Only a brace closes the last of the open literals. -/
theorem open_step (hs : s.suspended ≠ []) (h : s.cursor.rest.head? ≠ some '}') : Open s.step := by
  have finish : ∀ found, Open (s.finish found) := fun found => by
    unfold finish
    split <;> trivial
  have acts := s.acts
  generalize s.step = step at acts ⊢
  cases acts with
  | document | blank | join => exact hs
  | refuse => trivial
  | ends | mark => exact finish _
  | reads _ _ _ takes => exact takes.open hs h

/-! ## Walks over finished lines -/

/-- The cursor leads to wherever the walk comes. -/
theorem Reaches.leads (h : Reaches s t) : s.cursor.Leads t.cursor := by
  induction h with
  | here => exact .refl _
  | step _ hstep ih => exact ih.trans (next_cases hstep).2.1

/-- A walk that comes to the end of a program, all lines of which are finished and none of which
ends in the middle of a `$-`. -/
structure Whole (s : Tokenizer) : Prop where
  firstLine : s.firstLine ≤ s.cursor.line
  complete : s.run.ending = .complete
  closed : s.cursor.rest.Closed
  undashed : ∀ t, Reaches s t → ∀ a, t.cursor.rest ≠ '$' :: '-' :: '\n' :: a

section Whole

variable (whole : s.Whole) (reach : Reaches s t)

include whole reach

/-- What is left of a closed program is closed. -/
theorem Whole.closed_of_reaches : t.cursor.rest.Closed := whole.closed.of_suffix reach.leads.1

/-- Each step moves on by as many lines as it passes line feeds. -/
theorem Whole.line_step (h : t.step = .next found u) :
    u.cursor.line + Text.lineFeeds u.cursor.rest = t.cursor.line + Text.lineFeeds t.cursor.rest :=
  lineSum_of_next h (whole.undashed t reach) (.inl (whole.closed_of_reaches reach))

omit reach in
/-- The line of a place counts the line feeds before it. -/
theorem Whole.line_eq (reach : Reaches s t) :
    t.cursor.line + Text.lineFeeds t.cursor.rest =
      s.cursor.line + Text.lineFeeds s.cursor.rest := by
  induction reach with
  | here => rfl
  | step before hstep ih => rw [whole.line_step before hstep, ih]

/-- A step from the end of a line or over it comes to the next line at least. -/
theorem Whole.line_lt {y a : Text} (h : t.step = .next found u)
    (hr : t.cursor.rest = y ++ '\n' :: a) (passed : u.cursor.rest.length ≤ a.length) :
    t.cursor.line + Text.lineFeeds y < u.cursor.line := by
  have sum := whole.line_step reach h
  have suffix : u.cursor.rest <:+ t.cursor.rest := (next_cases h).2.1.1
  have short : u.cursor.rest <:+ a := by
    refine List.suffix_of_suffix_length_le suffix ?_ passed
    rw [hr]
    exact (List.suffix_cons '\n' a).trans (List.suffix_append y _)
  have le : Text.lineFeeds u.cursor.rest ≤ Text.lineFeeds a := short.sublist.count_le '\n'
  have count : Text.lineFeeds ('\n' :: a) = Text.lineFeeds a + 1 := List.count_cons_self
  rw [hr, Text.lineFeeds_append, count] at sum
  omega

/-- No step goes over the end of a line that is not covered. -/
theorem Whole.lands {y a : Text} (h : t.step = .next found u) (hr : t.cursor.rest = y ++ '\n' :: a)
    (hy : y ≠ []) (uncovered : ¬ Covers s.run.found (t.cursor.line + Text.lineFeeds y)) :
    a.length < u.cursor.rest.length := by
  refine Nat.lt_of_not_le fun passed => ?_
  have lt := whole.line_lt reach h hr passed
  rcases covers_of_crossed reach whole.firstLine whole.complete h _ (Nat.le_add_right _ _) lt with
    covers | ⟨⟨-, ended⟩, line⟩
  · exact uncovered covers
  · obtain ⟨c, y, rfl⟩ := List.exists_cons_of_ne_nil hy
    rw [hr] at ended
    have hc : c = '\n' := Option.some.inj ended
    have count : Text.lineFeeds ('\n' :: y) = Text.lineFeeds y + 1 := List.count_cons_self
    rw [hc] at line
    omega

omit reach in
/-- Where a literal is open and no brace follows on the line, the line is covered. -/
theorem Whole.covers_of_open {y a : Text} (reach : Reaches s t) (hopen : t.suspended ≠ [])
    (hr : t.cursor.rest = y ++ '\n' :: a) (hy : '}' ∉ y) (line : '\n' ∉ y) :
    Covers s.run.found t.cursor.line := by
  induction t using walk_induction generalizing y with
  | stop t found ending h =>
    have complete := ending_of_reaches reach whole.complete
    rw [run_of_stop h] at complete
    cases complete
    exact absurd (not_suspended_of_stop h) hopen
  | next t found u h ih =>
    -- without a closing brace on the line the literal stays open
    have stays : Open (.next found u) := by
      rw [← h]
      refine open_step hopen fun brace => ?_
      rw [hr] at brace
      cases y with
      | nil => exact absurd (Option.some.inj brace) (by decide)
      | cons c y =>
        have hc : c = '}' := Option.some.inj brace
        exact hy (by rw [hc]; exact List.mem_cons_self)
    by_cases passed : u.cursor.rest.length ≤ a.length
    · have lt := whole.line_lt reach h hr passed
      rw [Text.lineFeeds_eq_zero line] at lt
      exact Tokenizer.covers_of_open reach whole.firstLine whole.complete hopen h lt
    · -- the step stays on the line
      obtain ⟨x, hx⟩ := (next_cases h).2.1.1
      have ended : '\n' :: a <:+ t.cursor.rest := by
        rw [hr]
        exact List.suffix_append y _
      have suffix : '\n' :: a <:+ u.cursor.rest :=
        List.suffix_of_suffix_length_le ended ⟨x, hx⟩ (Nat.lt_of_not_le passed)
      obtain ⟨z, hz⟩ := suffix
      have hyz : y = x ++ z := by
        rw [hr, ← hz, ← List.append_assoc] at hx
        exact (List.append_cancel_right hx).symm
      rw [hyz, List.mem_append, not_or] at hy line
      have same : u.cursor.line = t.cursor.line := by
        have sum := whole.line_step reach h
        rw [hr, ← hz, hyz, Text.lineFeeds_append, Text.lineFeeds_append, Text.lineFeeds_append,
          Text.lineFeeds_eq_zero line.1] at sum
        omega
      rw [← same]
      exact ih (.step reach h) stays hz.symm hy.2 line.2

end Whole

/-- An embedded document ends before a line that is not covered. -/
theorem document_lt {y p : Text} {n : Nat} (reach : Reaches s t)
    (hr : t.cursor.rest = y ++ p)
    (h : t.document? = some n)
    (uncovered : ¬ Covers s.run.found (t.cursor.line + Text.lineFeeds y)) : n < y.length := by
  unfold document? at h
  split at h
  · next ahead =>
    obtain ⟨⟨length, lines⟩, hdoc, rfl⟩ := Option.map_eq_some_iff.1 h
    have hstep : ∃ u, t.step = .next [.sealed ⟨t.cursor.line, t.cursor.line + lines⟩] u := by
      cases hc : t.cursor.rest with
      | nil =>
        rw [hc] at hdoc
        cases hdoc
      | cons c r =>
        rw [hc] at ahead hdoc
        unfold step
        rw [hc]
        dsimp only
        rw [if_pos ahead, hdoc]
        exact ⟨_, rfl⟩
    obtain ⟨u, hstep⟩ := hstep
    obtain ⟨before, hrun⟩ := reach.run_eq
    rw [hrun, run_of_next hstep] at uncovered
    have count := (lineFeeds_embeddedDocument? hdoc).1
    refine Nat.lt_of_not_le fun le => uncovered ?_
    -- the document would hold all line ends before the line
    have front : y <+: t.cursor.rest.take length := by
      rw [hr]
      exact List.prefix_take_iff.2 ⟨List.prefix_append y p, le⟩
    have more : Text.lineFeeds y ≤ lines := by
      rw [← count]
      exact front.sublist.count_le '\n'
    refine Covers.right (covers_sealed ⟨Nat.le_add_right _ _, ?_⟩) before
    exact Nat.add_le_add_left more _
  · cases h

end Tokenizer

end Marginalia.Source
