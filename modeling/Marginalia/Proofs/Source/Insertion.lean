import Marginalia.Proofs.Source.Margins

/-!
# Comments among the tokens

What two programs with other margins find, over whole walks: the tokens of the second are those of
the first with a comment before the end of each line that has one in the second only
(`views_of_woven`). Either this holds up to the end of the first program, or the walks come to a
place where the code ahead is not clear (`tokens_or_unclear`).
-/

namespace Marginalia.Source

/-- A token, as far as it does not depend on what precedes it in the program. -/
structure TokenView where
  kind : TokenKind
  text : Text
  line : Nat
  endLine : Nat
  deriving DecidableEq, Repr

/-- What a token is, wherever it stands in its line. -/
def Token.view (t : Token) : TokenView := ⟨t.kind, t.text, t.line, t.endLine⟩

/-- The comment that stands before a token, if the token ends a line for which one is given. -/
def commentBefore (comment : Nat → Option Text) (v : TokenView) : List TokenView :=
  if v.kind = .newline then
    match comment v.line with
    | some c => [⟨.comment, c, v.line, v.line⟩]
    | none => []
  else []

/-- Some tokens, with a comment before the end of each line for which one is given. -/
def withComments (comment : Nat → Option Text) (vs : List TokenView) : List TokenView :=
  vs.flatMap fun v => commentBefore comment v ++ [v]

theorem withComments_append (comment : Nat → Option Text) (vs ws : List TokenView) :
    withComments comment (vs ++ ws) = withComments comment vs ++ withComments comment ws :=
  List.flatMap_append

/-- Among the tokens are those that were there, and comments before the ends of lines. -/
theorem mem_withComments {comment : Nat → Option Text} {vs : List TokenView} {v : TokenView} :
    v ∈ withComments comment vs ↔ v ∈ vs ∨ ∃ w ∈ vs, w.kind = .newline ∧
      ∃ c, comment w.line = some c ∧ v = ⟨.comment, c, w.line, w.line⟩ := by
  have before (w : TokenView) : v ∈ commentBefore comment w ↔
      w.kind = .newline ∧ ∃ c, comment w.line = some c ∧ v = ⟨.comment, c, w.line, w.line⟩ := by
    unfold commentBefore
    split
    · next newline =>
      rw [and_iff_right newline]
      cases comment w.line with
      | none => exact iff_of_false (fun h => nomatch h) fun ⟨_, h, _⟩ => nomatch h
      | some c => exact List.mem_singleton.trans ⟨fun h => ⟨c, rfl, h⟩, fun ⟨_, hc, h⟩ =>
        Option.some.inj hc ▸ h⟩
    · next other => exact iff_of_false (fun h => nomatch h) fun h => other h.1
  unfold withComments
  simp only [List.mem_flatMap, List.mem_append, List.mem_singleton, before]
  constructor
  · rintro ⟨w, hw, inserted | rfl⟩
    · exact .inr ⟨w, hw, inserted⟩
    · exact .inl hw
  · rintro (hv | ⟨w, hw, inserted⟩)
    · exact ⟨v, hv, .inr rfl⟩
    · exact ⟨w, hw, .inl inserted⟩

/-- A comment stands in the line of a token. -/
theorem line_of_mem_withComments {comment : Nat → Option Text} {vs : List TokenView} {v : TokenView}
    (h : v ∈ withComments comment vs) : ∃ w ∈ vs, w.line = v.line := by
  rcases mem_withComments.1 h with hv | ⟨w, hw, -, c, -, rfl⟩
  · exact ⟨v, hv, rfl⟩
  · exact ⟨w, hw, rfl⟩

/-- Where no line has a comment nothing is put in. -/
theorem withComments_of_plain {comment : Nat → Option Text} {vs : List TokenView}
    (h : ∀ v ∈ vs, v.kind = .newline → comment v.line = none) : withComments comment vs = vs := by
  induction vs with
  | nil => rfl
  | cons v vs ih =>
    have here : commentBefore comment v = [] := by
      unfold commentBefore
      split
      · next hv => rw [h v List.mem_cons_self hv]
      · rfl
    unfold withComments at ih ⊢
    rw [List.flatMap_cons, here, ih fun w hw => h w (List.mem_cons_of_mem _ hw)]
    rfl

namespace Tokenizer

variable {m : Margins} {s₀ t₀ s t u : Tokenizer} {y p q : Text} {f g found : List Finding}

/-! ## Tokens of woven walks -/

/-- Twins look the same. -/
theorem view_of_twin {k l : Token} (h : k.Twin p q l) : l.view = k.view := by
  unfold Token.view
  rw [h.kind, h.text, h.line, h.endLine]

/-- Pairs of findings have tokens that look the same. -/
theorem views_of_pairs (h : List.Forall₂ (Pair m) f g) :
    (tokensOf g).map Token.view = (tokensOf f).map Token.view := by
  induction h with
  | nil => rfl
  | @cons a b f g hab _ ih =>
    obtain ⟨n, p, q, -, twin⟩ := hab
    cases twin with
    | token twin =>
      rw [tokensOf_token, tokensOf_token, List.map_cons, List.map_cons, ih, view_of_twin twin]
    | same ha =>
      unfold tokensOf at ih ⊢
      rw [List.filterMap_cons_none ha, List.filterMap_cons_none ha]
      exact ih

/-- What is woven looks like the tokens with the comments put in. -/
theorem views_of_weaves (h : Weaves m f g) : (tokensOf g).map Token.view =
    withComments m.comment ((tokensOf f).map Token.view) := by
  cases h with
  | plain pairs inner =>
    rw [views_of_pairs pairs, withComments_of_plain]
    intro v hv newline
    obtain ⟨k, hk, rfl⟩ := List.mem_map.1 hv
    exact inner k hk newline
  | @commented g k c pairs only newline comment text line endLine _ =>
    have view : c.view = ⟨.comment, c.text, k.line, k.line⟩ := by
      unfold Token.view
      rw [comment, line, endLine]
    have before : commentBefore m.comment k.view = [c.view] := by
      unfold commentBefore
      rw [if_pos (show k.view.kind = .newline from newline),
        show m.comment k.view.line = some c.text from text, view]
      rfl
    rw [tokensOf_token, List.map_cons, views_of_pairs pairs, only]
    show c.view :: [k.view] = commentBefore m.comment k.view ++ [k.view] ++ []
    rw [before]
    rfl

/-- The tokens of the second walk are those of the first with comments at the ends of lines. -/
theorem views_of_woven (h : Woven m f g) : (tokensOf g).map Token.view =
    withComments m.comment ((tokensOf f).map Token.view) := by
  induction h with
  | nil => rfl
  | snoc _ weaves ih =>
    rw [tokensOf_append, tokensOf_append, List.map_append, List.map_append, withComments_append, ih,
      views_of_weaves weaves]

/-- What is woven lies before a line, if the tokens do. -/
theorem line_lt_of_woven {n : Nat} (woven : Woven m f g) (h : ∀ k ∈ tokensOf f, k.line < n) :
    ∀ k ∈ tokensOf g, k.line < n := by
  intro k hk
  obtain ⟨v, hv, line⟩ := line_of_mem_withComments (views_of_woven woven ▸ List.mem_map_of_mem hk)
  obtain ⟨l, hl, rfl⟩ := List.mem_map.1 hv
  have same : l.line = k.line := line
  rw [← same]
  exact h l hl

/-! ## Whole walks -/

theorem Reaches.trans (hst : Reaches s t) (htu : Reaches t u) : Reaches s u := by
  induction htu with
  | here => exact hst
  | step _ hstep ih => exact .step ih hstep

/-- Every walk stops. -/
theorem reaches_stop (s : Tokenizer) :
    ∃ t found, Reaches s t ∧ t.step = .stop found s.run.ending := by
  induction s using walk_induction with
  | stop s found ending h =>
    rw [run_of_stop h]
    exact ⟨s, found, .here, h⟩
  | next s found u h ih =>
    obtain ⟨t, last, reach, stop⟩ := ih
    rw [run_of_next h]
    exact ⟨t, last, Reaches.trans (.step .here h) reach, stop⟩

/-- A walk that is complete stops where nothing is left, or before the line that ends the
program. -/
theorem stop_cases (h : s.step = .stop found .complete) :
    tokensOf found = [s.cut .eof [] s.cursor] ∧
      (s.cursor.rest = [] ∨ s.atEndMark ∧ Covers found s.cursor.line) := by
  have acts := s.acts
  rw [h] at acts
  generalize hstep : Step.stop found .complete = step at acts
  cases acts with
  | document | blank | join | refuse => cases hstep
  | ends none =>
    obtain ⟨-, rfl⟩ := finish_eq_complete hstep.symm
    exact ⟨rfl, .inl none⟩
  | mark mark =>
    obtain ⟨-, rfl⟩ := finish_eq_complete hstep.symm
    exact ⟨rfl, .inr ⟨mark, covers_sealed ⟨Nat.le_refl _, Nat.le_max_right _ _⟩⟩⟩
  | reads c r hr takes =>
    have reads := takes.reads
    rw [← hstep] at reads
    cases reads with
    | stopped _ incomplete => exact absurd rfl incomplete

/-- Before the line that ends the program the walk stops. -/
theorem step_of_atEndMark (h : s.atEndMark) (outside : s.suspended = []) :
    ∃ found, s.step = .stop found .complete := by
  exact ⟨_, (step_eq_finish_of_atEndMark h).trans (finish_of_outside outside)⟩

/-! ## Tokens by lines -/

/-- The line behind the last one of the first program. -/
def endLine (s : Tokenizer) : Nat := s.cursor.line + Text.lineFeeds s.cursor.rest

/-- The tokens that stand in the lines before a given one. -/
def tokensBefore (line : Nat) (ts : List Token) : List TokenView :=
  (ts.filter fun k => k.line < line).map Token.view

theorem tokensBefore_append (line : Nat) (ks ls : List Token) :
    tokensBefore line (ks ++ ls) = tokensBefore line ks ++ tokensBefore line ls := by
  unfold tokensBefore
  rw [List.filter_append, List.map_append]

/-- Of tokens that are behind a line none is before it. -/
theorem tokensBefore_of_le {line : Nat} {ks : List Token} (h : ∀ k ∈ ks, line ≤ k.line) :
    tokensBefore line ks = [] := by
  unfold tokensBefore
  rw [List.filter_eq_nil_iff.2, List.map_nil]
  intro k hk
  rw [decide_eq_true_iff]
  exact Nat.not_lt_of_le (h k hk)

/-- Of tokens that are before a line all are before it. -/
theorem tokensBefore_of_lt {line : Nat} {ks : List Token} (h : ∀ k ∈ ks, k.line < line) :
    tokensBefore line ks = ks.map Token.view := by
  unfold tokensBefore
  rw [List.filter_eq_self.2]
  intro k hk
  exact decide_eq_true (h k hk)

/-- Tokens that look the same are before a line together. -/
theorem tokensBefore_singleton {line : Nat} {k l : Token} (h : k.view = l.view) :
    tokensBefore line [k] = tokensBefore line [l] := by
  have same : k.line = l.line := congrArg TokenView.line h
  unfold tokensBefore
  rw [List.filter_singleton, List.filter_singleton, same]
  cases decide (l.line < line) with
  | true =>
    show [k.view] = [l.view]
    rw [h]
  | false => rfl

/-! ## Both walks to the end of the first -/

/-- Both walks come to a place where the code ahead of a line that differs is not clear. Before it
they find the same. -/
inductive Unclear (m : Margins) (s₀ t₀ : Tokenizer) : Prop where
  | intro {f g found : List Finding} {s t u : Tokenizer} {y p q : Text} (first : Finds s₀ f s)
      (second : Finds t₀ g t) (woven : Woven m f g) (goes : s.step = .next found u)
      (twin : s.Twin y p q t) (stretch : m.Stretch s.cursor.line y p q) (ahead : y ≠ [])
      (line : '\n' ∉ y) (unclear : ¬ s.Clear y p q) : Unclear m s₀ t₀

section Walk

variable (whole : s₀.Whole) (fits : Fits m s₀)

include whole fits

/-- Both walks come as far, and find the same tokens with the comments put in, unless it is unclear
somewhere. -/
theorem woven_of_reaches (start : Along m s₀ t₀) (reach : Reaches s₀ s) :
    (∃ f g t, Finds s₀ f s ∧ Finds t₀ g t ∧ Along m s t ∧ Woven m f g) ∨ Unclear m s₀ t₀ := by
  induction reach with
  | here => exact .inl ⟨[], [], t₀, .here, .here, start, .nil⟩
  | @step s u found before hstep ih =>
    rcases ih with ⟨f, g, t, first, second, along, woven⟩ | unclear
    · rcases along_step whole fits before along hstep with
        ⟨more, v, walk, along', weaves⟩ | ⟨y, p, q, twin, stretch, hy, line, hinge⟩
      · exact .inl ⟨_, _, v, .step first hstep, second.trans walk, along', .snoc woven weaves⟩
      · exact .inr ⟨first, second, woven, hstep, twin, stretch, hy, line, hinge⟩
    · exact .inr unclear

omit whole in
/-- Where the first walk ends, the second has come to what is below the last line, or both are
before the line that ends the program. -/
theorem end_of_along (reach : Reaches s₀ s) (along : Along m s t)
    (h : s.step = .stop found .complete) :
    t.suspended = [] ∧ t.cursor.line = s.cursor.line ∧
      (s.cursor.rest = [] ∧ t.cursor.rest = m.below ∧ t.heredocs = [] ∨ s.atEndMark ∧
        t.atEndMark) := by
  obtain ⟨-, ended⟩ := stop_cases h
  have outside := not_suspended_of_stop h
  cases along with
  | @margin u w y p q differs left right blanks =>
    exfalso
    -- a walk does not end before a line feed
    rcases ended with ended | ⟨mark, -⟩
    · rw [left] at ended
      exact List.append_ne_nil_of_right_ne_nil u (List.cons_ne_nil _ _) ended
    · have head := head?_of_atEndMark mark
      rw [left] at head
      cases u with
      | nil => exact absurd (Option.some.inj head) (by decide)
      | cons c u =>
        have blank := (blanks c List.mem_cons_self).1
        rw [Option.some.inj head] at blank
        exact absurd blank (by decide)
  | @code y p q twin stretch ahead =>
    refine ⟨twin.outside outside, twin.cursor.line, ?_⟩
    by_cases hy : y = []
    · -- the second program goes on below the lines of the first
      have empty : p = [] := ahead hy
      subst hy empty
      have rest : s.cursor.rest = [] := twin.cursor.left
      exact .inl ⟨rest, twin.cursor.right.trans (stretch.split.eq_below rfl),
        twin.heredocs.trans (heredocs_of_end rest h)⟩
    · rcases ended with ended | ⟨mark, covers⟩
      · rw [twin.cursor.left] at ended
        exact absurd (List.append_eq_nil_iff.1 ended).1 hy
      · -- the end mark is in the common text, for its line is covered and so does not differ
        have line : '\n' ∈ y := Classical.byContradiction fun line => by
          rcases stretch.split.joint with ⟨hp, -⟩ | ⟨u, a, -, -, differs, -⟩
          · rcases stretch.closed hp with h | h
            · exact hy h
            · exact line (List.mem_of_getLast? h)
          · rw [Text.lineFeeds_eq_zero line] at differs
            obtain ⟨found', hrun⟩ := reach.run_eq
            refine fits.uncovered _ differs ?_
            rw [hrun, run_of_stop h]
            exact covers.right found'
        refine .inr ⟨mark, ?_⟩
        unfold atEndMark at mark ⊢
        have same : wordAhead "__END__" lineEnds (y ++ q) = wordAhead "__END__" lineEnds (y ++ p) :=
          wordAhead_append lineEnds_cons (by decide) line p q
        rw [twin.cursor.lineStart, twin.cursor.right, same, ← twin.cursor.left]
        exact mark

/-- Where the first program ends, the second has no more tokens in its lines but its own end. -/
theorem tokensBefore_of_stop (reach : Reaches s₀ s) (along : Along m s t)
    (h : s.step = .stop found .complete) :
    tokensBefore s₀.endLine t.run.tokens = tokensBefore s₀.endLine (tokensOf found) := by
  obtain ⟨only, -⟩ := stop_cases h
  -- the walk stopped at the end of the text or at the end mark
  obtain ⟨outside, place, ⟨empty, -⟩ | ⟨-, mark⟩⟩ := end_of_along fits reach along h
  · have line := whole.line_eq reach
    rw [empty] at line
    have below : t.firstLine = s₀.endLine := by
      unfold firstLine endLine
      rw [outside, lineOf_nil, place, ← line]
      rfl
    have tokens := firstLine_le_of_token t (by unfold firstLine; rw [outside]; exact Nat.le_refl _)
    rw [below] at tokens
    rw [tokensBefore_of_le tokens, tokensBefore_of_le]
    intro k hk
    rw [only, List.mem_singleton] at hk
    rw [hk]
    exact Nat.le_of_eq line.symm
  · obtain ⟨found', h'⟩ := step_of_atEndMark mark outside
    obtain ⟨only', -⟩ := stop_cases h'
    rw [tokens_run_of_stop h', only, only']
    have view : (t.cut .eof [] t.cursor).view = (s.cut .eof [] s.cursor).view := by
      show TokenView.mk .eof [] t.cursor.line t.cursor.line =
        ⟨.eof, [], s.cursor.line, s.cursor.line⟩
      rw [place]
    exact tokensBefore_singleton view

omit fits in
/-- What the first walk finds on its way stands in the lines of the program. -/
theorem line_lt_of_finds (walk : Finds s₀ f s) : ∀ k ∈ tokensOf f, k.line < s₀.endLine := by
  induction walk with
  | here => nofun
  | @step s u f found walk hstep ih =>
    intro k hk
    rw [tokensOf_append] at hk
    rcases List.mem_append.1 hk with hk | hk
    · exact ih k hk
    · have first := firstLine_le_of_reaches walk.reaches whole.firstLine
      have line := whole.line_eq walk.reaches
      -- what is left ends with a line feed
      have left : 0 < Text.lineFeeds s.cursor.rest := by
        rcases whole.closed_of_reaches walk.reaches with h | h
        · have lt := rest_lt_of_step hstep
          rw [h] at lt
          cases lt
        · exact List.count_pos_iff.2 (List.mem_of_getLast? h)
      have here : k.line = s.firstLine := by
        cases crosses_next hstep with
        | outside _ _ _ begins => exact begins k hk
        | inside _ _ none =>
          rw [none] at hk
          cases hk
      show k.line < s₀.cursor.line + Text.lineFeeds s₀.cursor.rest
      omega

/-- In the lines of the first program, the tokens of the second are the same with comments at the
ends of lines, unless both walks come to a place where the code ahead is not clear. -/
theorem tokens_or_unclear (start : Along m s₀ t₀) :
    tokensBefore s₀.endLine t₀.run.tokens =
        withComments m.comment (tokensBefore s₀.endLine s₀.run.tokens) ∨ Unclear m s₀ t₀ := by
  obtain ⟨s, found, reach, stop⟩ := reaches_stop s₀
  rw [whole.complete] at stop
  refine (woven_of_reaches whole fits start reach).imp_left ?_
  rintro ⟨f, g, t, first, second, along, woven⟩
  obtain ⟨only, -⟩ := stop_cases stop
  have views := views_of_woven woven
  have lines := line_lt_of_finds whole first
  have lines' := line_lt_of_woven woven lines
  -- the end token is no newline, and so gets no comment
  have last : withComments m.comment (tokensBefore s₀.endLine (tokensOf found)) =
      tokensBefore s₀.endLine (tokensOf found) := by
    refine withComments_of_plain fun v hv newline => ?_
    obtain ⟨k, hk, rfl⟩ := List.mem_map.1 hv
    have eof := (List.mem_filter.1 hk).1
    rw [only, List.mem_singleton] at eof
    rw [eof] at newline
    cases newline
  rw [first.run_eq, second.run_eq, run_of_stop stop, Tokenization.tokens_eq, Tokenization.tokens_eq,
    tokensOf_append, tokensOf_append, tokensBefore_append, tokensBefore_append,
      withComments_append, last,
    ← Tokenization.tokens_eq, tokensBefore_of_stop whole fits first.reaches along stop,
    tokensBefore_of_lt lines, tokensBefore_of_lt lines', views]

end Walk

end Tokenizer

end Marginalia.Source
