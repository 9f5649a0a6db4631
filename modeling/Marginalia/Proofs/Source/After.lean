import Marginalia.Proofs.Source.Bodies
import Marginalia.Proofs.Source.Dashes
import Marginalia.Proofs.Source.Seals

/-!
# What stands behind a token

A token of code that is no literal is read where it stands (`exists_reaches_of_token`), and behind
the end of a line stand the last lines of the program (`pieces_after_of_newline`).
-/

namespace Marginalia.Source.Tokenizer

variable {s u : Tokenizer} {found : List Finding} {k t : Token} {source : Text}

/-! ## Tokens of code -/

/-- The tokens that a step finds start where it does, but for literals and ends of lines. -/
def Cuts (s : Tokenizer) (step : Step) : Prop := ∀ k ∈ tokensOf step.found, k.kind ≠ .literal →
  k.kind ≠ .newline → k.text ++ k.after = s.cursor.rest ∧ k.line = s.cursor.line

theorem cuts_of_nil {step : Step} (none : tokensOf step.found = []) : s.Cuts step := fun _ hk => by
  rw [none] at hk
  cases hk

/-- A step that records a token. -/
theorem cuts_record {r : Tokenizer} (hk : k.kind ≠ .literal → k.kind ≠ .newline →
    k.text ++ k.after = s.cursor.rest ∧ k.line = s.cursor.line) : s.Cuts (r.record k) := by
  intro l hl
  unfold record at hl
  split at hl
  · exact List.mem_singleton.1 hl ▸ hk
  · cases hl

theorem Cuts.prepend {step : Step} (none : tokensOf found = []) (h : s.Cuts step) :
    s.Cuts (step.prepend found) := by
  cases step with
  | next more u =>
    intro k hk
    change k ∈ tokensOf (found ++ more) at hk
    rw [tokensOf_append, none] at hk
    exact h k hk
  | stop more ending =>
    intro k hk
    change k ∈ tokensOf (found ++ more) at hk
    rw [tokensOf_append, none] at hk
    exact h k hk

/-- Reading on in a literal finds the literal at most. -/
theorem ReadsOn.cuts {r : Tokenizer} {l : OpenLiteral} {step : Step} (h : r.ReadsOn l step) :
    s.Cuts step := by
  cases h with
  | closed => exact cuts_record fun literal _ => absurd rfl literal
  | interpolation | unterminated | split => exact fun _ hk => nomatch hk

/-- A token that is taken is cut from the program. -/
theorem cuts_take (kind : TokenKind) (more : Nat) : s.Cuts (s.take kind more) := by
  have here : (s.cut kind (s.cursor.rest.take (more + 1)) (s.behind kind more)).text ++
      (s.cut kind (s.cursor.rest.take (more + 1)) (s.behind kind more)).after = s.cursor.rest := by
    show s.cursor.rest.take (more + 1) ++ (s.behind kind more).rest = _
    rw [rest_behind, List.take_append_drop]
  have settles := settles { s with cursor := s.behind kind more }
    (s.cut kind (s.cursor.rest.take (more + 1)) (s.behind kind more))
  show s.Cuts (settle _ _)
  generalize settle _ _ = step at settles ⊢
  cases settles with
  | record => exact cuts_record fun _ _ => ⟨here, rfl⟩
  | count => exact cuts_record fun _ _ => ⟨here, rfl⟩
  | close l => exact (readsOn _ l).cuts

/-- What a character starts is cut from the program. -/
theorem Takes.cuts {c : Char} {r : Text} {step : Step} (h : s.Takes c r step) : s.Cuts step := by
  cases h with
  | name kind more pending => exact cuts_take (s := s.readied s.spaced pending) kind more
  | token spaced waits kind more => exact cuts_take (s := s.readied spaced waits) kind more
  | newline spaced waits =>
    have breaks := (s.readied spaced waits).breaks
    generalize (s.readied spaced waits).takeNewline = step at breaks ⊢
    cases breaks with
    | unterminated _ _ read => exact cuts_of_nil (tokensOf_bodies read)
    | below _ _ _ behind read =>
      refine Cuts.prepend (tokensOf_bodies read) ?_
      exact cuts_record fun _ newline => absurd rfl newline
  | literal => exact (readsOn _ _).cuts
  | heredoc spaced waits more h =>
    refine Cuts.prepend rfl ?_
    exact cuts_take (s := { s.readied spaced waits with heredocs := s.heredocs ++ [h] })
      .literal more
  | refuse | split => exact fun _ hk => nomatch hk

theorem cuts_finish (none : tokensOf found = []) : s.Cuts (s.finish found) := by
  unfold finish
  split
  · intro k hk _ _
    change k ∈ tokensOf (found ++ [.token (s.cut .eof [] s.cursor)]) at hk
    rw [tokensOf_append, none, List.nil_append] at hk
    rw [List.mem_singleton.1 hk]
    exact ⟨rfl, rfl⟩
  · exact cuts_of_nil none

/-- Every step finds tokens that start where it does, but for literals and ends of lines. -/
theorem cuts_step (s : Tokenizer) : s.Cuts s.step := by
  have acts := s.acts
  generalize s.step = step at acts ⊢
  cases acts with
  | document | blank | join | refuse => exact fun _ hk => nomatch hk
  | ends => exact cuts_finish rfl
  | mark => exact cuts_finish rfl
  | reads _ _ _ takes => exact takes.cuts

/-- The walk comes to every token of code that is no literal. -/
theorem exists_reaches_of_token (hk : k ∈ s.run.tokens) (literal : k.kind ≠ .literal)
    (newline : k.kind ≠ .newline) : ∃ t, Reaches s t ∧ t.cursor.rest = k.text ++ k.after ∧
      t.cursor.line = k.line := by
  obtain ⟨t, reach, found⟩ :=
    mem_found_run_iff.1 (mem_tokensOf.1 (by rwa [← Tokenization.tokens_eq]))
  obtain ⟨text, line⟩ := cuts_step t k (mem_tokensOf.2 found) literal newline
  exact ⟨t, reach, text.symm, line.symm⟩

/-- The walk comes to every comment, which reaches to the end of its line. -/
theorem exists_reaches_of_comment (hk : k ∈ s.run.tokens) (comment : k.kind = .comment) :
    ∃ t, Reaches s t ∧ t.cursor.rest = k.text ++ k.after ∧ t.cursor.line = k.line ∧
      t.cursor.position = k.start ∧ '\n' ∉ k.text := by
  obtain ⟨t, reach, found⟩ :=
    mem_found_run_iff.1 (mem_tokensOf.1 (by rwa [← Tokenization.tokens_eq]))
  have hk := mem_tokensOf.2 found
  obtain ⟨rest, line⟩ := cuts_step t k hk (by rw [comment]; nofun) (by rw [comment]; nofun)
  cases hstep : t.step with
  | stop found ending =>
    rw [hstep] at hk
    exact absurd comment (not_comment_of_stop hstep k hk)
  | next found u =>
    rw [hstep] at hk
    obtain ⟨x, hr, start, -⟩ := comment_of_next hstep hk comment
    refine ⟨t, reach, rest.symm, line.symm, start.symm, ?_⟩
    have step := (step_of_hash hr).1
    rw [hstep] at step
    obtain ⟨rfl, -⟩ := Step.next.inj step
    change k ∈ tokensOf (if _ then _ else _) at hk
    split at hk
    · rw [List.mem_singleton.1 hk]
      exact List.not_mem_cons_of_ne_of_not_mem (by decide) (lineFeed_notMem_takeWhile x)
    · cases hk

/-! ## Ends of lines -/

/-- Behind the end of a line stand the last lines of the program. -/
theorem pieces_after_of_newline (hk : k ∈ (tokenize source).tokens) (newline : k.kind = .newline) :
    Text.pieces k.after <:+ Text.pieces source := by
  obtain ⟨t, reach, found⟩ := mem_found_run_iff.1
    (mem_tokensOf.1 (by rwa [← Tokenization.tokens_eq, ← tokenize]))
  have hk := mem_tokensOf.2 found
  cases hstep : t.step with
  | stop found ending =>
    rw [hstep] at hk
    have eof := eof_of_stop hstep k hk
    rw [newline] at eof
    cases eof
  | next found u =>
    rw [hstep] at hk
    obtain ⟨r, hr⟩ := List.head?_eq_some_iff.1 (line_of_newline hstep k hk newline).1
    obtain ⟨d, -, found', stop⟩ | ⟨bodies, found', v, next, -, pieces⟩ := bodies_of_lineFeed hr
    · rw [hstep] at stop
      cases stop
    · rw [hstep] at next
      cases next
      have hstep' := hstep
      rw [step_of_lineFeed hr] at hstep'
      obtain ⟨_, _, _, behind, read, -, rfl, rfl⟩ := exists_of_takeNewline hstep'
      -- what is left of the program begins behind a line feed
      obtain ⟨x, hx⟩ := reach.leads.1
      have whole : (x ++ ['\n']) ++ r = source := by
        rw [List.append_assoc, ← show x ++ t.cursor.rest = source from hx, hr]
        rfl
      have front : Text.Closed (x ++ ['\n']) := .inr List.getLast?_concat
      have lines := Text.pieces_append front.isLine r
      rw [Text.flatten_pieces, whole, pieces, ← List.append_assoc] at lines
      change k ∈ tokensOf (_ ++ _) at hk
      rw [tokensOf_append, tokensOf_bodies read, List.nil_append] at hk
      split at hk
      · rw [lines, List.mem_singleton.1 hk]
        exact List.suffix_append _ _
      · cases hk

/-- Before the line that ends the program a walk finds all lines below sealed. -/
theorem covers_of_atEndMark {s₀ : Tokenizer} {n : Nat} (reach : Reaches s₀ s) (mark : s.atEndMark)
    (complete : s.run.ending = .complete) (ahead : s.cursor.line ≤ n) (last : n ≤ s₀.lineCount) :
    Covers s₀.run.found n := by
  have outside : s.suspended = [] := by
    refine Classical.byContradiction fun opens => ?_
    obtain ⟨l, ls, hs⟩ := List.exists_cons_of_ne_nil opens
    rw [run_of_stop ((step_eq_finish_of_atEndMark mark).trans (by rw [finish, hs]; rfl))]
      at complete
    cases complete
  obtain ⟨before, hrun⟩ := reach.run_eq
  rw [hrun, run_of_stop ((step_eq_finish_of_atEndMark mark).trans (finish_of_outside outside))]
  refine Covers.right (covers_sealed ⟨ahead, ?_⟩) before
  rw [lineCount_of_reaches reach]
  exact Nat.le_trans last (Nat.le_max_left _ _)

/-- Each line that ends in code has its end among the tokens. -/
theorem Whole.exists_newline {s₀ : Tokenizer} {n : Nat} (whole : s₀.Whole)
    (count : s₀.endLine ≤ s₀.lineCount + 1)
    (reach : Reaches s₀ s) (ahead : s.cursor.line ≤ n) (last : n < s₀.endLine)
    (uncovered : ¬ Covers s₀.run.found n) :
    ∃ k ∈ s.run.tokens, k.kind = .newline ∧ k.line = n := by
  induction s using walk_induction with
  | stop s found ending h =>
    exfalso
    have complete := ending_of_reaches reach whole.complete
    have ending := complete
    rw [run_of_stop h] at ending
    cases ending
    rcases (stop_cases h).2 with ended | ⟨mark, -⟩
    · have line := whole.line_eq reach
      rw [ended] at line
      exact absurd last (Nat.not_lt_of_le (Nat.le_trans (Nat.le_of_eq line.symm) ahead))
    · exact uncovered (covers_of_atEndMark reach mark complete ahead (by omega))
  | next s found u h ih =>
    rw [tokens_run_of_next h]
    by_cases below : u.cursor.line ≤ n
    · obtain ⟨k, hk, newline⟩ := ih (.step reach h) below
      exact ⟨k, List.mem_append_right _ hk, newline⟩
    · -- the step is over the end of this line
      obtain covers | ⟨⟨outside, head⟩, here⟩ :=
        covers_of_crossed reach whole.firstLine whole.complete h n ahead
        (Nat.lt_of_not_le below)
      · exact absurd covers uncovered
      · obtain ⟨r, hr⟩ := List.head?_eq_some_iff.1 head
        rw [step_of_lineFeed hr] at h
        obtain ⟨k, newline, line, only⟩ := newline_of_takeNewline h
        have recorded : s.unnamed.suspended.isEmpty = true := List.isEmpty_iff.2 outside
        rw [only, if_pos recorded]
        exact ⟨k, List.mem_append_left _ (List.mem_singleton_self k), newline, line.trans here.symm⟩

end Marginalia.Source.Tokenizer
