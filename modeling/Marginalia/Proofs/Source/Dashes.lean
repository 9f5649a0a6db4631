import Marginalia.Proofs.Source.Comments
import Marginalia.Proofs.Source.Insertion

/-!
# Lines that are counted

The tokenizer counts the line feeds that it passes, and so a token knows on which line of the
program it starts. The one exception is the line feed that a `$-` at the end of a line takes: behind
it, every line has too low a number (`lineSum_of_reaches`). Comments are numbered by this count, one
to a line at most.
-/

namespace Marginalia.Source

namespace Tokenizer

variable {s t u r : Tokenizer} {found : List Finding}

/-! ## Line feeds that are not counted -/

/-- A `$-` stands here that takes the line feed behind it. -/
def takesLineFeed (s : Tokenizer) : Bool := List.isPrefixOf ['$', '-', '\n'] s.cursor.rest

/-- A step takes a line feed where `$-` stands before one. -/
theorem takesLineFeed_iff : s.takesLineFeed ↔ ∃ a, s.cursor.rest = '$' :: '-' :: '\n' :: a :=
  List.isPrefixOf_iff_prefix.trans (exists_congr fun _ => eq_comm)

/-- The line feed that a `$-` takes is not counted. -/
theorem lineSum_of_takesLineFeed (h : s.step = .next found u) (takes : s.takesLineFeed) :
    u.lineSum + 1 = s.lineSum := by
  obtain ⟨a, hr⟩ := takesLineFeed_iff.1 takes
  obtain ⟨spaced, hread⟩ := readToken_unnamed (s := s) fun _ =>
    methodName?_eq_none (c := '$') (by decide) (by decide) (by decide) ('-' :: '\n' :: a)
  have lexeme : ∀ m : Memory, Lexeme.read m spaced '$' ('-' :: '\n' :: a) = .token .var 2 :=
    fun _ => rfl
  rw [step_eq_readToken hr (.inl (by decide)) (by decide) (by decide)
    (not_atEndMark hr (by decide)), hread, readLexeme, lexeme] at h
  have behind : (s.behind .var 2).rest = a := by
    rw [rest_behind, hr]
    rfl
  have place : u.cursor = s.behind .var 2 := by
    dsimp only [take, settle] at h
    split at h
    · cases h
      rfl
    · cases h
      rfl
  have line : (s.behind .var 2).line = s.cursor.line := rfl
  -- the variable takes the line feed, but the line is not counted
  have count : Text.lineFeeds ('$' :: '-' :: '\n' :: a) = Text.lineFeeds a + 1 := by
    unfold Text.lineFeeds
    simp
  unfold lineSum
  rw [place, behind, line, hr, count, Nat.add_assoc]

/-! ## Walks -/

/-- Of two states of a walk one comes before the other. -/
theorem Reaches.linear (hr : Reaches s r) (ht : Reaches s t) : Reaches r t ∨ Reaches t r := by
  induction hr with
  | here => exact .inl ht
  | @step r r' _ _ h ih =>
    rcases ih with before | after
    · rcases before.head with rfl | ⟨_, v, hstep, reach⟩
      · exact .inr (.step .here h)
      · rw [h] at hstep
        cases hstep
        exact .inl reach
    · exact .inr (.step after h)

/-- Each step moves on. -/
theorem Reaches.eq_or_lt (h : Reaches s t) :
    t = s ∨ s.cursor.position < t.cursor.position := by
  rcases h.head with same | ⟨_, v, hstep, reach⟩
  · exact .inl same
  · exact .inr (Nat.lt_of_lt_of_le (next_cases hstep).1 reach.leads.position_le)

/-- The line feeds that were not counted on the way to a place are those that a `$-` took. -/
theorem lineSum_of_reaches (reach : Reaches s t) (more : t.cursor.rest ≠ []) :
    t.lineSum ≤ s.lineSum ∧ (t.lineSum = s.lineSum ↔
      ∀ r, Reaches s r → r.cursor.position < t.cursor.position → ¬ r.takesLineFeed) := by
  induction reach with
  | here =>
    refine ⟨Nat.le_refl _, fun _ r reach lt => ?_, fun _ => rfl⟩
    exact absurd reach.leads.position_le (Nat.not_le_of_lt lt)
  | @step t u found before h ih =>
    obtain ⟨lt, forward, -⟩ := next_cases h
    obtain ⟨le, iff⟩ := ih fun none => more (List.suffix_nil.1 (none ▸ forward.suffix))
    -- the states before the new place are those before the last one, and that one itself
    have states : (∀ r, Reaches s r → r.cursor.position < u.cursor.position → ¬ r.takesLineFeed) ↔
        (∀ r, Reaches s r → r.cursor.position < t.cursor.position → ¬ r.takesLineFeed) ∧
          ¬ t.takesLineFeed := by
      refine ⟨fun all => ⟨fun r hr hlt => all r hr (Nat.lt_trans hlt lt), all t before lt⟩,
        fun ⟨all, last⟩ r hr hlt => ?_⟩
      rcases hr.linear before with earlier | later
      · rcases earlier.eq_or_lt with rfl | hlt
        · exact last
        · exact all r hr hlt
      · rcases later.head with rfl | ⟨_, v, hstep, reach⟩
        · exact last
        · rw [h] at hstep
          cases hstep
          exact absurd reach.leads.position_le (Nat.not_le_of_lt hlt)
    rw [states]
    by_cases takes : t.takesLineFeed
    · have lost := lineSum_of_takesLineFeed h takes
      exact ⟨by omega, fun _ => by omega, fun all => absurd takes all.2⟩
    · have kept := lineSum_of_next h (fun a ha => takes (takesLineFeed_iff.2 ⟨a, ha⟩))
        (.inr (.inr more))
      rw [kept]
      exact ⟨le, fun same => ⟨iff.1 same, takes⟩, fun all => iff.2 all.1⟩

/-! ## Comments -/

/-- Nothing or the end of a line is ahead. -/
def AtEnd (s : Tokenizer) : Prop := s.suspended = [] ∧ ∀ c a, s.cursor.rest = c :: a → c = '\n'

/-- A comment is found where a hash stands outside of all literals, and it reaches to the end of the
line. -/
theorem comment_of_next (h : s.step = .next found u) {k : Token} (hk : k ∈ tokensOf found)
    (kind : k.kind = .comment) : ∃ x, s.cursor.rest = '#' :: x ∧ k.start = s.cursor.position ∧
      k.stop = s.cursor.position + ((x.takeWhile (· != '\n')).length + 1) ∧
      k.line = s.cursor.line ∧ s.suspended = [] ∧ u.cursor.line = s.cursor.line ∧ u.AtEnd := by
  -- only a hash can start a comment, and the comment takes the line up to its end
  by_cases head : s.cursor.rest.head? = some '#'
  · obtain ⟨x, hr⟩ := List.head?_eq_some_iff.1 head
    obtain ⟨step, line⟩ := step_of_hash hr
    rw [h] at step
    obtain ⟨rfl, rfl⟩ := Step.next.inj step
    split at hk
    · next outside =>
      have outside := List.isEmpty_iff.1 outside
      rw [List.mem_singleton.1 hk]
      refine ⟨x, hr, rfl, advance_position _ _ ?_, rfl, outside, line, outside, fun c a hca => ?_⟩
      · rw [hr]
        exact Nat.succ_le_succ (List.takeWhile_sublist _).length_le
      · change (s.cursor.advance _).rest = c :: a at hca
        have behind : x.drop (x.takeWhile (· != '\n')).length = x.dropWhile (· != '\n') := by
          have whole := List.takeWhile_append_dropWhile (p := (· != '\n')) (l := x)
          exact (congrArg (List.drop _) whole).symm.trans List.drop_left
        rw [Cursor.rest_advance, hr, List.drop_succ_cons, behind] at hca
        have first := List.head?_dropWhile_not (· != '\n') x
        rw [hca] at first
        simpa using first
    · cases hk
  · have inner := inner_comment head
    rw [h] at inner
    exact absurd kind (inner k hk)

/-- Where the walk stops, at most the end of the program is found. -/
theorem eof_of_stop {ending : Ending} (h : s.step = .stop found ending) :
    ∀ k ∈ tokensOf found, k.kind = .eof := by
  obtain ⟨none, -⟩ | ⟨t, only, eof, -⟩ := found_of_stop h
  · rw [none]
    exact fun _ hk => nomatch hk
  · rw [only]
    exact List.forall_mem_singleton.2 eof

/-- A step that stops finds no comment. -/
theorem not_comment_of_stop {ending : Ending} (h : s.step = .stop found ending) :
    ∀ k ∈ tokensOf found, k.kind ≠ .comment := fun k hk => by
  rw [eof_of_stop h k hk]
  decide

/-- An end of a line goes on to a later line. -/
theorem line_lt_of_takeNewline {a : Text} (hr : s.cursor.rest = '\n' :: a)
    (h : s.takeNewline = .next found u) :
    s.cursor.line < u.cursor.line ∧ u.suspended = s.suspended := by
  have below : (s.cursor.advance 1).line = s.cursor.line + 1 := by
    unfold Cursor.advance
    rw [hr]
    rfl
  obtain ⟨_, _, _, _, -, rfl, -, rfl⟩ := exists_of_takeNewline h
  exact ⟨by dsimp only; omega, rfl⟩

/-- Behind the end of a line the lines have greater numbers. -/
theorem line_lt_of_atEnd (h : s.AtEnd) {k : Token} (hk : k ∈ s.run.tokens)
    (kind : k.kind = .comment) :
    s.cursor.line < k.line := by
  cases hstep : s.step with
  | stop found ending =>
    rw [tokens_run_of_stop hstep] at hk
    exact absurd kind (not_comment_of_stop hstep k hk)
  | next found u =>
    rw [tokens_run_of_next hstep] at hk
    cases hr : s.cursor.rest with
    | nil =>
      have less := rest_lt_of_step hstep
      rw [hr] at less
      cases less
    | cons c a =>
      -- the line has ended, so the step reads a line feed, and all tokens behind are on later lines
      have lineFeed := h.2 c a hr
      subst lineFeed
      rcases List.mem_append.1 hk with hk | hk
      · obtain ⟨x, hash, -⟩ := comment_of_next hstep hk kind
        rw [hr] at hash
        cases hash
      · rw [step_of_lineFeed hr] at hstep
        obtain ⟨lt, outside⟩ := line_lt_of_takeNewline (s := s.unnamed) hr hstep
        have outside : u.suspended = [] := outside.trans h.1
        have first : u.firstLine = u.cursor.line := by rw [firstLine, outside, lineOf_nil]
        have le := firstLine_le_of_token u (Nat.le_of_eq first) k hk
        exact Nat.lt_of_lt_of_le lt (first ▸ le)

/-- On each line there is one comment at most. -/
theorem pairwise_comments (s : Tokenizer) :
    (s.run.tokens.filter (·.kind == .comment)).Pairwise fun a b => a.line < b.line := by
  induction s using walk_induction with
  | stop s found ending h =>
    rw [tokens_run_of_stop h, List.filter_eq_nil_iff.2]
    · exact .nil
    · exact fun k hk kind => not_comment_of_stop h k hk (beq_iff_eq.1 kind)
  | next s found u h ih =>
    rw [tokens_run_of_next h, List.filter_append]
    obtain ⟨-, -, ⟨k, only, -⟩ | ⟨none, -⟩⟩ := next_cases h
    · by_cases kind : k.kind = .comment
      · obtain ⟨x, -, -, -, line, -, line', ended⟩ :=
          comment_of_next h (by rw [only]; exact List.mem_singleton_self k) kind
        rw [only, List.filter_singleton, beq_iff_eq.2 kind]
        refine List.pairwise_cons.2 ⟨fun j hj => ?_, ih⟩
        obtain ⟨mem, comment⟩ := List.mem_filter.1 hj
        rw [line, ← line']
        exact line_lt_of_atEnd ended mem (beq_iff_eq.1 comment)
      · rw [only, List.filter_singleton, beq_eq_false_iff_ne.2 kind]
        exact ih
    · rw [none]
      exact ih

/-- Where a comment of a walk is found, which is outside of all literals. -/
theorem exists_comment {k : Token} (hk : k ∈ s.run.tokens) (kind : k.kind = .comment) :
    ∃ t x, Reaches s t ∧ t.cursor.rest = '#' :: x ∧ k.start = t.cursor.position ∧
      k.stop = t.cursor.position + ((x.takeWhile (· != '\n')).length + 1) ∧ k.line = t.cursor.line ∧
      t.suspended = [] := by
  induction s using walk_induction with
  | stop s found ending h =>
    rw [tokens_run_of_stop h] at hk
    exact absurd kind (not_comment_of_stop h k hk)
  | next s found u h ih =>
    rw [tokens_run_of_next h] at hk
    rcases List.mem_append.1 hk with hk | hk
    · obtain ⟨x, hr, start, stop, line, outside, -⟩ := comment_of_next h hk kind
      exact ⟨s, x, .here, hr, start, stop, line, outside⟩
    · obtain ⟨t, x, reach, found⟩ := ih hk
      exact ⟨t, x, Reaches.trans (.step .here h) reach, found⟩

end Tokenizer

end Marginalia.Source
