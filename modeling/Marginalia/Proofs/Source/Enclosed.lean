import Marginalia.Proofs.Source.Accepted
import Marginalia.Proofs.Source.Insertion
import Marginalia.Proofs.Source.LineShift
import Marginalia.Proofs.Source.Slices

/-!
# Programs in parentheses

A program that ends with its lines, and not by a mark before, is read in parentheses as it is read
alone: its own tokens stand a line further down between those of the two lines with a parenthesis
(`tokens_parenthesised`).
-/

namespace Marginalia.Source

/-- A program between a line with an opening and a line with a closing parenthesis. -/
def parenthesised (source : Text) : Text := "(\n".toList ++ source ++ ")\n".toList

/-- No line of a program is the one that ends it before its length. -/
def Unmarked (source : Text) : Prop :=
  ∀ p, AtLineStart source p → wordAhead "__END__" lineEnds (source.drop p) = false

/-- The same token in parentheses, which is not the end of the program. Behind it the program goes
on and the closing line follows; a brace is never the last character of a program that ends with its
lines. -/
structure Token.Enclosed (t k : Token) : Prop where
  inner : t.kind ≠ .eof
  kind : k.kind = t.kind
  text : k.text = t.text
  after : k.after = t.after ++ ")\n".toList
  goesOn : t.isPunct leftBrace → '\n' ∈ t.after

variable {source : Text}

/-- Behind a brace something follows. -/
theorem lineFeed_mem_after {t : Token} (closed : source.Closed) (shows : t.Shows source)
    (after : t.after = source.drop t.stop) (brace : t.isPunct leftBrace) : '\n' ∈ t.after := by
  unfold Token.isPunct at brace
  rw [Bool.and_eq_true, beq_iff_eq, beq_iff_eq] at brace
  rw [after]
  refine (closed.of_suffix (List.drop_suffix _ _)).mem_of_ne_nil fun none => ?_
  have stop := List.drop_eq_nil_iff.1 none
  have text := shows.text
  rw [if_neg (by rw [brace.1]; decide), brace.2, slice, List.take_of_length_le] at text
  · have last : Text.Closed leftBrace.toList := text ▸ closed.of_suffix (List.drop_suffix _ _)
    exact absurd last (by unfold Text.Closed; decide)
  · rw [List.length_drop]
    omega

namespace Tokenizer

variable {s t u : Tokenizer} {found more : List Finding} {y q : Text}

/-! ## Between the parentheses -/

theorem finds_down (k : Nat) (h : Finds s found t) :
    Finds (s.down k) (found.map (Finding.down k)) (t.down k) := by
  induction h with
  | here => exact .here
  | step _ hstep ih =>
    rw [List.map_append]
    refine .step ih ?_
    rw [step_down, hstep]
    rfl

/-- What follows a token is what follows its place. -/
theorem after_of_next (placed : s.Placed source) (h : s.step = .next found u) :
    ∀ k ∈ tokensOf found, k.Shows source ∧ k.after = source.drop k.stop := by
  have sound := sound_step placed
  rw [h] at sound
  intro k hk
  refine ⟨shows_of_mem_tokensOf sound.2.1 k hk, ?_⟩
  obtain ⟨-, -, ⟨j, only, -, stop, after, -⟩ | ⟨none, -⟩⟩ := next_cases h
  · rw [only, List.mem_singleton] at hk
    rw [hk, after, stop, sound.1.cursor.rest]
  · rw [none] at hk
    cases hk

/-- The tokens of two findings that differ in what follows them only. -/
theorem enclosed_of_twins (twins : List.Forall₂ (Finding.Twin [] ")\n".toList) found more)
    (inner : ∀ k ∈ tokensOf found, k.kind ≠ .eof)
    (goesOn : ∀ k ∈ tokensOf found, k.isPunct leftBrace → '\n' ∈ k.after) :
    List.Forall₂ Token.Enclosed (tokensOf found) (tokensOf more) := by
  induction twins with
  | nil => exact .nil
  | @cons f _ _ _ twin _ ih =>
    cases twin with
    | token twin =>
      rw [tokensOf_token, tokensOf_token, List.forall₂_cons]
      rw [tokensOf_token, List.forall_mem_cons] at inner goesOn
      obtain ⟨y, left, right⟩ := twin.after
      rw [List.append_nil] at left
      exact ⟨⟨inner.1, twin.kind, twin.text, by rw [right, left], goesOn.1⟩, ih inner.2 goesOn.2⟩
    | same silent =>
      rw [tokensOf_cons_of_none silent] at inner goesOn ⊢
      rw [tokensOf_cons_of_none silent]
      exact ih inner goesOn

/-- A walk to the end of a program by its length leaves nothing open. -/
theorem ended_of_stop (placed : s.Placed source) (unmarked : Unmarked source)
    (h : s.step = .stop found .complete) :
    s.cursor.rest = [] ∧ s.heredocs = [] ∧ s.suspended = [] ∧
      tokensOf found = [s.cut .eof [] s.cursor] := by
  obtain ⟨only, ended | ⟨mark, -⟩⟩ := stop_cases h
  · exact ⟨ended, heredocs_of_end ended h, not_suspended_of_stop h, only⟩
  · unfold atEndMark at mark
    rw [Bool.and_eq_true, placed.cursor.rest] at mark
    have no := unmarked _ (placed.cursor.lineStart.1 mark.1)
    rw [no] at mark
    cases mark.2

/-- The tokens of a program are found before the closing line as they are found before its end. -/
theorem exists_finds_of_twin (placed : s.Placed source) (closed : source.Closed)
    (unmarked : Unmarked source) (twin : s.Twin y [] ")\n".toList t)
    (complete : s.run.ending = .complete) :
    ∃ ts eof more v, s.run.tokens = ts ++ [eof] ∧ eof.kind = .eof ∧ Finds t more v ∧
      List.Forall₂ Token.Enclosed ts (tokensOf more) ∧
      v.cursor.rest = ")\n".toList ∧ v.heredocs = [] ∧ v.suspended = [] := by
  -- along the walk over the program, which the other walk follows up to the end of it
  induction s using walk_induction generalizing y t with
  | stop s found ending h =>
    rw [run_of_stop h] at complete
    subst complete
    obtain ⟨rest, heredocs, outside, only⟩ := ended_of_stop placed unmarked h
    have hy : y = [] := by
      have left := twin.cursor.left
      rwa [rest, List.append_nil, eq_comm] at left
    subst hy
    refine ⟨[], s.cut .eof [] s.cursor, [], t, ?_, rfl, .here, .nil, twin.cursor.right,
      twin.heredocs.trans heredocs, ?_⟩
    · rw [tokens_run_of_stop h]
      exact only
    · exact twin.outside outside
  | next s found u h ih =>
    have hy : y ≠ [] := by
      rintro rfl
      have lt := rest_lt_of_step h
      rw [twin.cursor.left] at lt
      cases lt
    have lines : y.Closed := twin.cursor.seam.resolve_right fun h => absurd (h.2.2 rfl) (by decide)
    obtain ⟨z, more, v, hv, twins, twin'⟩ :=
      follows_of_closed twin lines hy found u h (Nat.zero_le _)
    have sound := sound_step placed
    rw [h] at sound
    rw [run_of_next h] at complete
    obtain ⟨ts, eof, others, w, tokens, kind, walk, enclosed, rest⟩ := ih sound.1 twin' complete
    refine ⟨tokensOf found ++ ts, eof, more ++ others, w, ?_, kind, (Finds.one hv).trans walk,
      ?_, rest⟩
    · rw [tokens_run_of_next h, tokens, List.append_assoc]
    · rw [tokensOf_append]
      refine List.rel_append (enclosed_of_twins twins sound.2.2 fun k hk brace => ?_) enclosed
      obtain ⟨shows, after⟩ := after_of_next placed h k hk
      exact lineFeed_mem_after closed shows after brace

/-! ## The lines with the parentheses -/

/-- A parenthesis is a token of its own. -/
theorem step_of_paren {c : Char} {r : Text} (hc : c = '(' ∨ c = ')') (hr : s.cursor.rest = c :: r)
    (outside : s.suspended = []) : s.step = .next [.token (s.cut .punct [c] (s.cursor.advance 1))]
      { s.unnamed with
        cursor := s.cursor.advance 1
        memory := s.unnamed.memory.note (s.cut .punct [c] (s.cursor.advance 1)) } := by
  have lexeme : ∀ (m : Memory) spaced, Lexeme.read m spaced c r = .token .punct 0 := by
    rcases hc with rfl | rfl <;> exact fun _ _ => rfl
  have plain : Text.isAsciiBlank c = false ∧ c ≠ '=' ∧ c ≠ '\\' ∧ c ≠ '_' ∧ isNameStart c = false ∧
      c ≠ '.' ∧ ∀ op ∈ methodOperators, op.toList.head? ≠ none ∧ op.toList.head? ≠ some c := by
    rcases hc with rfl | rfl <;> decide
  obtain ⟨blank, equal, join, mark, name, dot, operators⟩ := plain
  obtain ⟨spaced, hread⟩ := readToken_unnamed (s := s) fun _ =>
    methodName?_eq_none name dot operators r
  rw [step_eq_readToken hr (.inl blank) equal join (not_atEndMark hr mark), hread,
    readLexeme, lexeme]
  unfold take settle
  dsimp only [unnamed]
  rw [outside]
  dsimp only [record]
  rw [hr]
  rfl

theorem step_of_line {r : Text} (hr : s.cursor.rest = '\n' :: r) (heredocs : s.heredocs = [])
    (outside : s.suspended = []) :
    s.step = .next [.token (s.cut .newline ['\n'] (s.cursor.advance 1))] { s.unnamed with
        cursor := s.cursor.advance 1
        memory := s.unnamed.memory.note (s.cut .newline ['\n'] (s.cursor.advance 1)) } := by
  rw [step_of_lineFeed hr]
  unfold takeNewline
  dsimp only [unnamed]
  rw [heredocs]
  dsimp only [readBodies, Step.prepend, record, Cursor.advance]
  rw [outside]
  rfl

/-- Behind the first line, the walk through a program in parentheses is that through the program, a
line further down. -/
theorem exists_line_parenthesised (closed : source.Closed) : ∃ opening line t,
    Finds (ofSource (parenthesised source)) [.token opening, .token line] (t.down 1) ∧
      opening.isPunct "(" ∧ line.kind = .newline ∧
      (ofSource source).Twin source [] ")\n".toList t := by
  let start := ofSource (parenthesised source)
  let opening := start.cut .punct ['('] (start.cursor.advance 1)
  let below : Tokenizer :=
    { start.unnamed with
      cursor := start.cursor.advance 1
      memory := start.unnamed.memory.note opening }
  let line := below.cut .newline ['\n'] (below.cursor.advance 1)
  let t : Tokenizer :=
    { cursor := ⟨source ++ ")\n".toList, 2, 1, true⟩
      lineCount := Text.lineCount (parenthesised source) - 1 }
  have first : start.step = .next [.token opening] below :=
    step_of_paren (r := '\n' :: (source ++ ")\n".toList)) (.inl rfl) rfl rfl
  -- the number of lines is not zero, and so may be counted down
  have lines : Text.lineCount (parenthesised source) -
      1 + 1 = Text.lineCount (parenthesised source) := by
    refine Nat.sub_add_cancel (Nat.pos_of_ne_zero fun none => ?_)
    have whole := Text.flatten_pieces (parenthesised source)
    rw [List.length_eq_zero_iff.1 none] at whole
    cases whole
  have second : below.step = .next [.token line] (t.down 1) := by
    refine (step_of_line (r := source ++ ")\n".toList) rfl rfl rfl).trans ?_
    dsimp only [down, t]
    rw [lines]
    rfl
  exact ⟨opening, line, t, (Finds.one first).trans (.one second), rfl, rfl,
    ⟨(List.append_nil _).symm, rfl, rfl, rfl, .inl closed⟩, rfl, rfl, rfl, .nil⟩

/-- Behind a program in parentheses stands the line with the closing one, and nothing else. -/
theorem exists_closing (hr : s.cursor.rest = ")\n".toList) (heredocs : s.heredocs = [])
    (outside : s.suspended = []) : ∃ closing below last,
      s.run = ⟨[.token closing, .token below, .token last], .complete⟩ ∧
        closing.isPunct ")" ∧ below.kind = .newline ∧ last.kind = .eof := by
  let closing := s.cut .punct [')'] (s.cursor.advance 1)
  let u : Tokenizer :=
    { s.unnamed with cursor := s.cursor.advance 1, memory := s.unnamed.memory.note closing }
  -- three steps are left: the parenthesis, the line feed and the end
  have first : s.step = .next [.token closing] u := step_of_paren (.inr rfl) hr outside
  have rest : u.cursor.rest = ['\n'] := by
    show (s.cursor.advance 1).rest = _
    rw [Cursor.rest_advance, hr]
    rfl
  let below := u.cut .newline ['\n'] (u.cursor.advance 1)
  let v : Tokenizer :=
    { u.unnamed with cursor := u.cursor.advance 1, memory := u.unnamed.memory.note below }
  have second : u.step = .next [.token below] v := step_of_line rest heredocs outside
  have rest : v.cursor.rest = [] := by
    show (u.cursor.advance 1).rest = _
    rw [Cursor.rest_advance, rest]
    rfl
  have third : v.step = .stop [.token (v.cut .eof [] v.cursor)] .complete :=
    (step_of_end rest heredocs).trans (finish_of_outside outside)
  refine ⟨closing, below, v.cut .eof [] v.cursor, ?_, rfl, rfl, rfl⟩
  rw [run_of_next first, run_of_next second, run_of_stop third]
  rfl

end Tokenizer

open Tokenizer in
/-- The tokens of a program in parentheses: its own, between those of the two lines around it. -/
theorem tokens_parenthesised (closed : source.Closed) (unmarked : Unmarked source)
    (complete : (tokenize source).ending = .complete) :
    ∃ ts eof ks opening line closing below last,
      (tokenize source).tokens = ts ++ [eof] ∧ eof.kind = .eof ∧ List.Forall₂ Token.Enclosed ts ks ∧
        (tokenize (parenthesised source)).tokens = opening :: line :: ks ++ [closing, below, last] ∧
        (tokenize (parenthesised source)).ending = .complete ∧ opening.isPunct "(" ∧
        line.kind = .newline ∧ closing.isPunct ")" ∧ below.kind = .newline ∧ last.kind = .eof := by
  obtain ⟨opening, line, t, before, hopening, hline, twin⟩ := exists_line_parenthesised closed
  obtain ⟨ts, eof, more, v, tokens, heof, inside, enclosed, rest, heredocs, outside⟩ :=
    exists_finds_of_twin (placed_ofSource source) closed unmarked twin complete
  obtain ⟨closing, below, last, run, hclosing, hbelow, hlast⟩ :=
    exists_closing (s := v.down 1) rest (by rw [heredocs_down, heredocs, List.map_nil])
      (by rw [suspended_down, outside, List.map_nil])
  have whole := (before.trans (finds_down 1 inside)).run_eq
  rw [run] at whole
  refine ⟨ts, eof, (tokensOf more).map (Token.down 1), opening, line, closing, below, last, tokens,
    heof, ?_, ?_, congrArg Tokenization.ending whole, hopening, hline, hclosing, hbelow, hlast⟩
  · rw [List.forall₂_map_right_iff]
    exact enclosed.imp fun _ _ h => ⟨h.inner, h.kind, h.text, h.after, h.goesOn⟩
  · have same : tokenize (parenthesised source) = _ := whole
    rw [same, Tokenization.tokens_eq, tokensOf_append, tokensOf_append, tokensOf_down]
    rfl

end Marginalia.Source
