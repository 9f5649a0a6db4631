import Marginalia.Proofs.Source.Sealed

/-!
# What follows the code of a line

The steps of a walk that remain when the code of a line has been read: over blanks, over a comment,
and over the line feed.
-/

namespace Marginalia.Source

namespace Tokenizer

/-! ## Walks with what they find -/

/-- The tokenizer comes from one state to another and finds something on the way. -/
inductive Finds (s : Tokenizer) : List Finding → Tokenizer → Prop where
  | here : Finds s [] s
  | step {t u : Tokenizer} {before found : List Finding} (walk : Finds s before t)
      (h : t.step = .next found u) : Finds s (before ++ found) u

section Finds

variable {s t u : Tokenizer} {f g : List Finding}

/-- A walk that finds something leads from one state to another. -/
theorem Finds.reaches (h : Finds s f t) : Reaches s t := by
  induction h with
  | here => exact .here
  | step _ hstep ih => exact .step ih hstep

theorem Finds.trans (hst : Finds s f t) (htu : Finds t g u) : Finds s (f ++ g) u := by
  induction htu with
  | here =>
    rw [List.append_nil]
    exact hst
  | step _ hstep ih =>
    rw [← List.append_assoc]
    exact .step ih hstep

/-- One step finds what it finds. -/
theorem Finds.one (h : s.step = .next f t) : Finds s f t := .step .here h

/-- The whole walk finds what its first part does, and the rest. -/
theorem Finds.run_eq (h : Finds s f t) : s.run = ⟨f ++ t.run.found, t.run.ending⟩ := by
  induction h with
  | here => rfl
  | step _ hstep ih => rw [ih, run_of_next hstep, List.append_assoc]

end Finds

/-! ## Kinds of tokens that a step cannot find -/

variable {s t : Tokenizer}

section Inner

variable {kind : TokenKind}

/-- The tokens that a step finds are not of a kind. -/
def Inner (kind : TokenKind) : Step → Prop
  | .next found _ => ∀ k ∈ tokensOf found, k.kind ≠ kind
  | .stop _ _ => True

/-- What starts with a character is not of a kind. -/
def Avoids (kind : TokenKind) (c : Char) (r : Text) : Prop :=
  (kind = .newline → c ≠ '\n') ∧
    (∀ m spaced other more, Lexeme.read m spaced c r = .token other more → other ≠ kind) ∧
    ∀ other more pending, Lexeme.methodName? c r = some (other, more, pending) → other ≠ kind

/-- What is no line feed starts no end of a line. -/
theorem avoids_newline {c : Char} (hc : c ≠ '\n') (r : Text) : Avoids .newline c r := by
  refine ⟨fun _ => hc, fun _ _ _ _ hread => ?_, fun _ _ _ hname =>
    (Lexeme.kind_of_methodName? hname).1⟩
  rcases Lexeme.kind_of_read hread with ⟨rfl, -⟩ | other
  · decide
  · exact other.1

/-- What is no number sign starts no comment. -/
theorem avoids_comment {c : Char} (hc : c ≠ '#') (r : Text) : Avoids .comment c r := by
  refine ⟨by nofun, fun _ _ _ _ hread => ?_, fun _ _ _ hname =>
    (Lexeme.kind_of_methodName? hname).2.2⟩
  rcases Lexeme.kind_of_read hread with ⟨-, hash⟩ | other
  · exact absurd hash hc
  · exact other.2.2

theorem inner_prepend {step : Step} {found : List Finding} (hfound : tokensOf found = [])
    (h : Inner kind step) : Inner kind (step.prepend found) := by
  cases step with
  | stop => trivial
  | next more u =>
    intro k hk
    rw [tokensOf_append, hfound] at hk
    exact h k hk

theorem inner_record {k : Token} (h : k.kind ≠ kind) : Inner kind (s.record k) := by
  intro l hl
  split at hl
  · rw [List.mem_singleton.1 hl]
    exact h
  · cases hl

variable (literal : kind ≠ .literal)

include literal

theorem ReadsOn.inner {l : OpenLiteral} {step : Step} (h : s.ReadsOn l step) : Inner kind step := by
  cases h with
  | closed n => exact inner_record (s := { s with cursor := _ }) literal.symm
  | interpolation => nofun
  | unterminated | split => trivial

/-- A token of another kind settles. -/
theorem inner_settle {k : Token} (h : k.kind ≠ kind) : Inner kind (s.settle k) := by
  have settles := s.settles k
  generalize s.settle k = step at settles ⊢
  cases settles with
  | record => exact inner_record h
  | count => exact inner_record (s := { s with suspended := _ }) h
  | close l => exact (readsOn _ l).inner literal

/-- What a character starts is of another kind. -/
theorem Takes.inner {c : Char} {r : Text} {step : Step} (h : s.Takes c r step)
    (avoids : Avoids kind c r) :
    Inner kind step := by
  cases h with
  | name other _ _ _ read => exact inner_settle literal (avoids.2.2 _ _ _ read)
  | token _ _ other _ read => exact inner_settle literal (avoids.2.1 _ _ _ _ read)
  | newline spaced waits read =>
    have hc : c = '\n' := Classical.byContradiction fun hc => Lexeme.read_ne_newline hc _ _ _ read
    have breaks := (s.readied spaced waits).breaks
    generalize (s.readied spaced waits).takeNewline = step at breaks ⊢
    cases breaks with
    | unterminated => trivial
    | below _ _ _ _ read =>
      exact inner_prepend (tokensOf_bodies read)
        (inner_record fun newline => avoids.1 newline.symm hc)
  | literal => exact (readsOn _ _).inner literal
  | heredoc => exact inner_prepend rfl (inner_settle literal literal.symm)
  | refuse | split => trivial

/-- A step that starts no such token finds none. -/
theorem inner_step (avoids : ∀ c r, s.cursor.rest = c :: r → Avoids kind c r) :
    Inner kind s.step := by
  have finish : ∀ found, Inner kind (s.finish found) := fun found => by
    unfold finish
    split <;> trivial
  have acts := s.acts
  generalize s.step = step at acts ⊢
  cases acts with
  | document | blank | join => nofun
  | refuse => trivial
  | ends | mark => exact finish _
  | reads c r hr takes => exact takes.inner literal (avoids c r hr)

end Inner

/-- Only a step from the end of a line finds one. -/
theorem inner_newline (h : s.cursor.rest.head? ≠ some '\n') : Inner .newline s.step :=
  inner_step (by decide) fun c r hr => avoids_newline (fun hc => h (by rw [hr, hc]; rfl)) r

/-- Only a step from a hash finds a comment. -/
theorem inner_comment (h : s.cursor.rest.head? ≠ some '#') : Inner .comment s.step :=
  inner_step (by decide) fun c r hr => avoids_comment (fun hc => h (by rw [hr, hc]; rfl)) r

/-! ## Steps over what follows the code of a line -/

/-- The state without a name of a method to wait for. -/
def unnamed (s : Tokenizer) : Tokenizer :=
  { s with memory := { s.memory with namesMethod := false }, spaced := false }

/-- A blank is skipped. -/
theorem step_of_blank {c : Char} {r : Text} (hr : s.cursor.rest = c :: r)
    (hc : Text.isAsciiBlank c ∧ c ≠ '\n') : s.step = .next [] (s.skip 1) := by
  have blank := isSkipped_of_isAsciiBlank hc.1 hc.2
  have plain : wordAhead "=begin" wordEnds (c :: r) = false ∧
      wordAhead "__END__" lineEnds (c :: r) = false := by
    rcases isAsciiBlank_cases hc.1 with rfl | rfl | rfl | rfl | rfl <;> exact ⟨rfl, rfl⟩
  unfold step
  rw [hr]
  dsimp only
  rw [plain.1, plain.2, Bool.and_false, if_neg Bool.false_ne_true, if_neg Bool.false_ne_true,
    if_pos blank]

/-- Where no method is named, a token is read as a lexeme. -/
theorem readToken_unnamed {c : Char} {r : Text}
    (hname : s.memory.namesMethod → Lexeme.methodName? c r = none) :
    ∃ spaced, s.readToken c r = ({ s.unnamed with spaced := spaced }).readLexeme c r := by
  unfold readToken
  cases named : s.memory.namesMethod with
  | false =>
    refine ⟨s.spaced, ?_⟩
    rw [if_neg Bool.false_ne_true]
    show _ = Tokenizer.readLexeme { s with memory := { s.memory with namesMethod := false } } c r
    rw [← named]
  | true =>
    refine ⟨false, ?_⟩
    rw [if_pos rfl, hname named]
    rfl

/-- The end mark starts with an underscore. -/
theorem head?_of_atEndMark (h : s.atEndMark) : s.cursor.rest.head? = some '_' := by
  unfold atEndMark wordAhead at h
  rw [Bool.and_eq_true, Option.any_eq_true] at h
  obtain ⟨-, r, hr, -⟩ := h
  rw [(List.append_eq_of_isPrefixOf?_eq_some hr).symm]
  rfl

/-- Before any other character there is no end mark. -/
theorem not_atEndMark {c : Char} {r : Text} (hr : s.cursor.rest = c :: r) (hc : c ≠ '_') :
    s.atEndMark = false := by
  rw [Bool.eq_false_iff]
  intro mark
  have head := head?_of_atEndMark mark
  rw [hr] at head
  exact hc (Option.some.inj head)

/-- What is no blank, and starts nothing that is read as a line, is read as a token. -/
theorem step_eq_readToken {c : Char} {r : Text} (hr : s.cursor.rest = c :: r)
    (code : Text.isAsciiBlank c = false ∨ c = '\n') (equal : c ≠ '=') (join : c ≠ '\\')
    (unmarked : s.atEndMark = false) : s.step = s.readToken c r := by
  have noDocument : wordAhead "=begin" wordEnds (c :: r) = false := by
    show (List.isPrefixOf? ('=' :: "begin".toList) (c :: r)).any wordEnds = false
    rw [List.isPrefixOf?, beq_false_of_ne (Ne.symm equal)]
    rfl
  have noBlank : ¬ (c == ' ' || c == '\t' || c == '\r' || c == '\x0c') = true := by
    intro h
    simp only [Bool.or_eq_true, beq_iff_eq] at h
    rcases code with code | rfl
    · rcases h with ((rfl | rfl) | rfl) | rfl <;> exact absurd code (by decide)
    · rcases h with ((h | h) | h) | h <;> cases h
  have noJoin : ∀ w : Text, ¬ List.isPrefixOf ('\\' :: w) (c :: r) = true := fun w => by
    rw [List.isPrefixOf_cons_cons, beq_false_of_ne (Ne.symm join)]
    exact Bool.false_ne_true
  unfold atEndMark at unmarked
  rw [hr] at unmarked
  unfold step
  rw [hr]
  dsimp only
  rw [noDocument, Bool.and_false, unmarked, if_neg Bool.false_ne_true, if_neg Bool.false_ne_true,
    if_neg noBlank, if_neg (noJoin _), if_neg (noJoin _)]

/-- At a line feed the end of the line is taken. -/
theorem step_of_lineFeed {r : Text} (hr : s.cursor.rest = '\n' :: r) :
    s.step = s.unnamed.takeNewline := by
  obtain ⟨spaced, hread⟩ := readToken_unnamed (s := s) fun _ => Lexeme.methodName?_lineFeed r
  rw [step_eq_readToken hr (.inr rfl) (by decide) (by decide) (not_atEndMark hr (by decide)), hread]
  unfold readLexeme
  rw [Lexeme.read_lineFeed]
  rfl

/-- What starts no name and no operator names no method. -/
theorem methodName?_eq_none {c : Char} (name : isNameStart c = false) (dot : c ≠ '.')
    (first : ∀ op ∈ methodOperators, op.toList.head? ≠ none ∧ op.toList.head? ≠ some c) (r : Text) :
    Lexeme.methodName? c r = none := by
  have no : Lexeme.operatorLength? methodOperators (c :: r) = none := by
    unfold Lexeme.operatorLength?
    rw [List.find?_eq_none.2]
    · rfl
    · intro op hop
      obtain ⟨some, other⟩ := first op hop
      cases hw : op.toList with
      | nil =>
        rw [hw] at some
        exact absurd rfl some
      | cons d w =>
        rw [hw] at other
        have hd : d ≠ c := fun hd => other (by rw [hd]; rfl)
        rw [List.isPrefixOf_cons_cons, beq_false_of_ne hd]
        exact Bool.false_ne_true
  unfold Lexeme.methodName?
  rw [name, if_neg Bool.false_ne_true, if_neg (mt beq_iff_eq.1 dot), no]
  rfl

/-- A comment reaches to the end of its line. It leaves no trace but its token, and the name of a
method that was waited for. -/
theorem step_of_hash {r : Text} (hr : s.cursor.rest = '#' :: r) :
    let c := s.cursor.advance ((r.takeWhile (· != '\n')).length + 1)
    s.step = .next
      (if s.suspended.isEmpty then [.token (s.cut .comment ('#' :: r.takeWhile (· != '\n')) c)]
        else [])
      { s.unnamed with cursor := c } ∧ c.line = s.cursor.line := by
  have taken : (s.cursor.rest.take ((r.takeWhile (· != '\n')).length + 1)) =
      '#' :: r.takeWhile (· != '\n') := by
    rw [hr, List.take_succ_cons, ← List.prefix_iff_eq_take.1 (List.takeWhile_prefix _)]
  have place : (s.cursor.advance ((r.takeWhile (· != '\n')).length + 1)).line = s.cursor.line := by
    apply Cursor.line_advance_of_notMem
    rw [taken, List.mem_cons, not_or]
    exact ⟨by decide, lineFeed_notMem_takeWhile r⟩
  -- no method is called by what starts a comment, so it is read as anywhere else
  obtain ⟨spaced, hread⟩ := readToken_unnamed (s := s) fun _ =>
    methodName?_eq_none (c := '#') (by decide) (by decide) (by decide) r
  have lexeme : ∀ m : Memory, Lexeme.read m spaced '#' r =
      .token .comment (r.takeWhile (· != '\n')).length := fun m => rfl
  refine ⟨?_, place⟩
  rw [step_eq_readToken hr (.inl (by decide)) (by decide) (by decide)
    (not_atEndMark hr (by decide)), hread]
  unfold readLexeme
  rw [lexeme]
  dsimp only
  unfold take settle behind
  dsimp only [unnamed]
  rw [taken]
  cases s.suspended <;> rfl

/-- A comment before the end of its line. -/
theorem step_of_comment {r b : Text} (hr : s.cursor.rest = '#' :: (r ++ '\n' :: b))
    (hline : '\n' ∉ r) :
    ∃ k : Token, k.kind = .comment ∧ k.text = '#' :: r ∧ k.line = s.cursor.line ∧
      k.endLine = s.cursor.line ∧ k.after = '\n' :: b ∧
      s.step = .next (if s.suspended.isEmpty then [.token k] else [])
        { s.unnamed with cursor := s.cursor.advance (r.length + 1) } := by
  have rest : (s.cursor.advance (r.length + 1)).rest = '\n' :: b := by
    rw [Cursor.rest_advance, hr, List.drop_succ_cons, List.drop_left]
  have whole : (r ++ '\n' :: b).takeWhile (· != '\n') = r := by
    rw [List.takeWhile_append_of_pos (bne_lineFeed hline)]
    exact List.append_nil r
  have step := step_of_hash hr
  rw [whole] at step
  exact ⟨_, rfl, rfl, rfl, step.2, rest, step.1⟩

/-- The walk passes over blanks of a line. -/
theorem finds_blanks {w r : Text} (hr : s.cursor.rest = w ++ r)
    (hw : ∀ c ∈ w, Text.isAsciiBlank c ∧ c ≠ '\n') : ∃ cursor spaced,
      Finds s [] { s with cursor := cursor, spaced := spaced } ∧ cursor.rest = r ∧
        cursor.line = s.cursor.line := by
  induction w generalizing s with
  | nil => exact ⟨s.cursor, s.spaced, .here, hr, rfl⟩
  | cons c w ih =>
    have hc := hw c List.mem_cons_self
    have rest : (s.skip 1).cursor.rest = w ++ r := by
      show (s.cursor.advance 1).rest = w ++ r
      rw [Cursor.rest_advance, hr]
      rfl
    have line : (s.skip 1).cursor.line = s.cursor.line := by
      refine Cursor.line_advance_of_notMem (n := 1) ?_
      rw [hr]
      show '\n' ∉ [c]
      rw [List.mem_singleton]
      exact Ne.symm hc.2
    obtain ⟨cursor, spaced, walk, hrest, hline⟩ :=
      ih rest fun c hc => hw c (List.mem_cons_of_mem _ hc)
    exact ⟨cursor, spaced, (Finds.one (step_of_blank hr hc)).trans walk, hrest, hline.trans line⟩

/-- What a line feed is does not depend on whether anything precedes it. -/
theorem takeNewline_lineStart {r : Text} (hr : s.cursor.rest = '\n' :: r) (start : Bool) :
    takeNewline { s with cursor := { s.cursor with atLineStart := start } } = s.takeNewline := by
  have same : Cursor.advance 1 { s.cursor with atLineStart := start } = s.cursor.advance 1 := by
    unfold Cursor.advance
    rw [hr]
  unfold takeNewline
  dsimp only
  rw [same]
  rfl

/-- The end of a line is a token outside of literals, and none inside. -/
theorem newline_of_takeNewline {u : Tokenizer} {found : List Finding}
    (h : s.takeNewline = .next found u) : ∃ k : Token, k.kind = .newline ∧ k.line = s.cursor.line ∧
      tokensOf found = if s.suspended.isEmpty then [k] else [] := by
  obtain ⟨bodies, _, _, behind, read, -, rfl, -⟩ := exists_of_takeNewline h
  refine ⟨s.cut .newline ['\n'] behind, rfl, rfl, ?_⟩
  rw [tokensOf_append, tokensOf_bodies read, List.nil_append]
  split <;> rfl

/-- The end of a line is found at a line feed, and on the line that it ends. -/
theorem line_of_newline {u : Tokenizer} {found : List Finding} (h : s.step = .next found u) :
    ∀ k ∈ tokensOf found, k.kind = .newline → s.cursor.rest.head? = some '\n' ∧
      k.line = s.cursor.line := by
  intro k hk newline
  by_cases head : s.cursor.rest.head? = some '\n'
  · obtain ⟨r, hr⟩ := List.head?_eq_some_iff.1 head
    rw [step_of_lineFeed hr] at h
    obtain ⟨l, -, line, only⟩ := newline_of_takeNewline h
    rw [only] at hk
    split at hk
    · rw [List.mem_singleton.1 hk]
      exact ⟨head, line⟩
    · cases hk
  · have inner := inner_newline head
    rw [h] at inner
    exact absurd newline (inner k hk)

end Tokenizer

end Marginalia.Source
