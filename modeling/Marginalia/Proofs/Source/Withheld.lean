import Marginalia.Proofs.Source.Bodies
import Marginalia.Proofs.Source.Numbers
import Marginalia.Proofs.Source.Seals
import Marginalia.Proofs.Source.Separators

/-!
# Lines that are withheld

Of a program that is accepted, and in which no `$-` takes a line feed, the lines that do not end in
code are exactly those before whose line feed a comment would be part of something else
(`Withheld`): of a literal, of the body of a here-document, of an embedded document or the line that
closes it, of a line that is joined to the next, or of what follows the end mark. Every other line
feed starts the end of a line of the program (`endsInCode_iff_newline`).

What the tokenizer finds it tells by lines. A line has one line feed (`lineAt_le_iff`), so that each
kind of finding tells as well which places of line feeds it holds (`contains_document` and the
like).
-/

namespace Marginalia.Source

variable {source : Text} {p q : Nat}

/-! ## The lines of line feeds -/

/-- A later place is on no earlier line. -/
theorem lineAt_mono (h : p ≤ q) : lineAt source p ≤ lineAt source q :=
  Nat.add_le_add_left ((List.take_sublist_take_left h).count_le '\n') 1

/-- Behind a line feed the next line starts. -/
theorem lineAt_succ (feed : source[p]? = some '\n') :
    lineAt source (p + 1) = lineAt source p + 1 := by
  unfold lineAt
  rw [List.take_add_one, feed, Text.lineFeeds_append]
  rfl

/-- A place is on the line of a line feed or above it if it is not behind the line feed. -/
theorem lineAt_le_iff (feed : source[p]? = some '\n') :
    lineAt source q ≤ lineAt source p ↔ q ≤ p := by
  refine ⟨fun le => Nat.le_of_not_lt fun lt => ?_, lineAt_mono⟩
  have behind : lineAt source (p + 1) ≤ lineAt source q := lineAt_mono lt
  rw [lineAt_succ feed] at behind
  omega

/-- Lines are told apart by their line feeds. -/
theorem lineAt_lt_iff (feed : source[p]? = some '\n') :
    lineAt source p < lineAt source q ↔ p < q := by
  rw [← Nat.not_le, lineAt_le_iff feed, Nat.not_le]

/-- The line of a line feed is one of the program. -/
theorem lineAt_le_lineCount (feed : source[p]? = some '\n') :
    lineAt source p ≤ Text.lineCount source := by
  have whole : lineAt source source.length = 1 + Text.lineFeeds source := by
    unfold lineAt
    rw [List.take_length]
  have pieces := lineFeeds_flatten_le fun q (hq : q ∈ Text.pieces source) =>
    Text.notMem_of_mem_pieces hq
  rw [Text.flatten_pieces] at pieces
  have before := (lineAt_lt_iff feed).2 (List.getElem?_eq_some_iff.1 feed).1
  unfold Text.lineCount
  omega

namespace Tokenizer

variable {s t u : Tokenizer} {found : List Finding} {n : Nat}

/-! ## From lines to places -/

/-- A line is in a literal just if its line feed is. -/
theorem contains_literalLines {k : Token} (numbered : k.Numbered source)
    (feed : source[p]? = some '\n') :
    (∃ r, literalLines k = some r ∧ r.contains (lineAt source p)) ↔
      k.kind = .literal ∧ k.start ≤ p ∧ p < k.stop := by
  unfold literalLines
  by_cases literal : k.kind = .literal
  · have first := numbered.line (by rw [literal]; decide)
    have last := numbered.endLine (by rw [literal]; decide) (by rw [literal]; decide)
    rw [← lineAt_le_iff feed, ← lineAt_lt_iff feed, ← first, ← last, literal, beq_self_eq_true,
      Bool.true_and]
    by_cases several : k.line < k.endLine
    · rw [if_pos (decide_eq_true several)]
      simp only [Option.some.injEq, exists_eq_left', LineRange.contains_iff, true_and]
      omega
    · rw [if_neg (mt of_decide_eq_true several)]
      simp only [reduceCtorEq, false_and, exists_false, true_and, false_iff]
      omega
  · rw [if_neg fun h => literal (beq_iff_eq.1 (Bool.and_eq_true_iff.1 h).1)]
    exact ⟨fun ⟨_, h, _⟩ => (nomatch h), fun h => absurd h.1 literal⟩

section Places

variable (numbered : s.Numbered source) (feed : source[p]? = some '\n')

include numbered feed

/-- A line is in an embedded document just if its line feed is, or ends it. -/
theorem contains_document (h : s.document? = some n) :
    LineRange.contains ⟨s.cursor.line, s.cursor.line + Text.lineFeeds (s.cursor.rest.take n)⟩
      (lineAt source p) ↔ s.cursor.position ≤ p ∧ p ≤ s.cursor.position + n := by
  have more : s.cursor.rest ≠ [] := fun none => by
    have less := rest_lt_of_step (step_of_document h)
    rw [none] at less
    cases less
  unfold document? at h
  split at h
  · next begins =>
    obtain ⟨⟨length, lines⟩, hdoc, rfl⟩ := Option.map_eq_some_iff.1 h
    obtain ⟨first, inner, last, rest, -, whole, ended, hlength⟩ :=
      exists_document (Bool.and_eq_true_iff.1 begins).2 hdoc
    dsimp only
    have behind : source.drop (s.cursor.position + length) = rest := by
      rw [← List.drop_drop, ← numbered.cursor.rest, whole, hlength, List.drop_left]
    have last := lineAt_add source s.cursor.position length
    rw [← numbered.cursor.rest] at last
    rw [LineRange.contains_iff, numbered.line more, lineAt_le_iff feed, ← last]
    refine and_congr_right fun _ => ⟨fun le => Nat.le_of_not_lt fun lt => ?_, lineAt_mono⟩
    -- a line feed directly behind the document ends its last line
    rcases ended with rfl | ended
    · have short := List.drop_eq_nil_iff.1 behind
      have inside := (List.getElem?_eq_some_iff.1 feed).1
      omega
    · rw [← behind, List.head?_drop] at ended
      exact absurd le (Nat.not_le_of_lt ((lineAt_lt_iff ended).2 lt))
  · cases h

/-- A line is joined to the next just if its line feed is behind the join. -/
theorem contains_join {sep : Text} (join : sep ∈ joins) (ahead : sep <+: s.cursor.rest) :
    LineRange.contains ⟨s.cursor.line, s.cursor.line⟩ (lineAt source p) ↔
      p + 1 = s.cursor.position + sep.length := by
  obtain ⟨before, line, rfl⟩ : ∃ before, '\n' ∉ before ∧ sep = before ++ ['\n'] := by
    rw [joins, List.mem_cons, List.mem_singleton] at join
    rcases join with rfl | rfl
    · exact ⟨['\\'], by decide, rfl⟩
    · exact ⟨['\\', '\r'], by decide, rfl⟩
  obtain ⟨r, hr⟩ := ahead
  rw [List.append_assoc] at hr
  have more : s.cursor.rest ≠ [] := by
    rw [← hr]
    exact List.append_ne_nil_of_right_ne_nil _ (List.cons_ne_nil _ _)
  have rest : source.drop s.cursor.position = before ++ (['\n'] ++ r) := by
    rw [← numbered.cursor.rest, hr]
  have joined : source[s.cursor.position + before.length]? = some '\n' := by
    rw [← List.getElem?_drop, rest, List.getElem?_append_right (Nat.le_refl _), Nat.sub_self]
    rfl
  have same : lineAt source (s.cursor.position + before.length) = lineAt source s.cursor.position :=
    lineAt_add_of_notMem (by rw [rest, List.take_left]; exact line)
  -- two line feeds on one line are the same
  rw [LineRange.contains_iff, numbered.line more, ← same, lineAt_le_iff feed, lineAt_le_iff joined,
    List.length_append, List.length_singleton]
  omega

/-- A line is behind the end mark just if its line feed is. -/
theorem contains_ended (count : s.lineCount = Text.lineCount source) (mark : s.atEndMark) :
    LineRange.contains ⟨s.cursor.line, max s.lineCount s.cursor.line⟩ (lineAt source p) ↔
      s.cursor.position ≤ p := by
  have more : s.cursor.rest ≠ [] := fun none => by
    have head := head?_of_atEndMark mark
    rw [none] at head
    cases head
  have last := lineAt_le_lineCount feed
  rw [LineRange.contains_iff, numbered.line more, lineAt_le_iff feed, count]
  exact and_iff_left (Nat.le_trans last (Nat.le_max_left _ _))

end Places

/-! ## Bodies of here-documents -/

/-- A step counts at least the line feeds that it takes. -/
theorem lineAt_le_of_next (undashed : ¬ ['$', '-', '\n'] <:+: source) (numbered : s.Numbered source)
    (h : s.step = .next found u) : lineAt source u.cursor.position ≤ u.cursor.line := by
  have behind := (numbered_step undashed numbered h).1
  have more : s.cursor.rest ≠ [] := fun none => by
    have less := rest_lt_of_step h
    rw [none] at less
    cases less
  by_cases head : s.cursor.rest.head? = some '\n'
  · obtain ⟨r, hr⟩ := List.head?_eq_some_iff.1 head
    obtain ⟨bodies, length, lines, _, read, line, rest, -⟩ := bodies_of_next hr h
    have count := lineFeeds_readBodies_le read
    have here := lineAt_of_at numbered.cursor
    have there := lineAt_of_at behind.cursor
    have split := Text.lineFeeds_append (r.take length) (r.drop length)
    have first : Text.lineFeeds ('\n' :: r) = Text.lineFeeds r + 1 := List.count_cons_self
    rw [List.take_append_drop] at split
    rw [hr, first, ← numbered.line more] at here
    rw [rest] at there
    omega
  · refine Nat.le_of_eq (line_eq_of_lineSum behind.cursor ?_).symm
    exact (lineSum_of_next h (numbered.cursor.undashed undashed) (.inr (.inl head))).trans
      (numbered.lineSum_eq more)

section Bodies

variable (undashed : ¬ ['$', '-', '\n'] <:+: source) (numbered : s.Numbered source)
  (feed : source[p]? = some '\n') (ahead : s.cursor.rest.head? = some '\n')
  (h : s.step = .next found u)

include undashed numbered feed ahead h

/-- The lines of a body are read by the step at the line feed before them. -/
theorem between_of_body {d : Heredoc} {r : LineRange} (hr : .heredocRead d r ∈ found)
    (contains : r.contains (lineAt source p)) : s.cursor.position < p ∧ p < u.cursor.position := by
  obtain ⟨a, ha⟩ := List.head?_eq_some_iff.1 ahead
  obtain ⟨bodies, length, lines, ts, read, line, -, rfl, tokens⟩ := bodies_of_next ha h
  have body : .heredocRead d r ∈ bodies := (List.mem_append.1 hr).resolve_right fun hr => by
    obtain ⟨k, hk⟩ := tokens _ hr
    cases hk
  have bounds := within_readBodies read body
  have here : source[s.cursor.position]? = some '\n' := by
    rw [← List.head?_drop, ← numbered.cursor.rest]
    exact ahead
  have first := numbered.line (by rw [ha]; exact List.cons_ne_nil _ _)
  rw [LineRange.contains_iff] at contains
  refine ⟨(lineAt_lt_iff here).1 (by omega), Nat.lt_of_not_le fun le => ?_⟩
  -- a place behind the bodies is on a later line
  obtain ⟨behind, -⟩ := numbered_step undashed numbered h
  have more : u.cursor.rest ≠ [] := fun none => by
    rw [behind.cursor.rest, List.drop_eq_nil_iff] at none
    have inside := (List.getElem?_eq_some_iff.1 feed).1
    omega
  have last := behind.line more
  have later : lineAt source u.cursor.position ≤ lineAt source p := lineAt_mono le
  omega

/-- A step at a line feed reads the lines up to where it comes as bodies. -/
theorem covers_of_body (start : s.cursor.position < p) (stop : p < u.cursor.position) :
    Covers found (lineAt source p) := by
  obtain ⟨a, ha⟩ := List.head?_eq_some_iff.1 ahead
  obtain ⟨bodies, length, lines, ts, read, line, -, rfl, -⟩ := bodies_of_next ha h
  have here : source[s.cursor.position]? = some '\n' := by
    rw [← List.head?_drop, ← numbered.cursor.rest]
    exact ahead
  have first := numbered.line (by rw [ha]; exact List.cons_ne_nil _ _)
  have above := (lineAt_lt_iff here).2 start
  have below := (lineAt_lt_iff feed).2 stop
  have last := lineAt_le_of_next undashed numbered h
  exact (covers_readBodies read _ (by omega) (by omega)).left ts

end Bodies

end Tokenizer

/-! ## Line feeds that end no line of code -/

/-- An embedded document ends directly before a place. -/
def DocumentEnds (source : Text) (p : Nat) : Prop :=
  ∃ s n, Tokenizer.Reaches (.ofSource source) s ∧ s.document? = some n ∧ s.cursor.position + n = p

/-- A place where a comment would not be one, or would stand behind an embedded document. -/
inductive Withheld (source : Text) (p : Nat) : Prop where
  /-- Inside a literal. -/
  | literal {k : Token} (found : k ∈ (tokenize source).tokens) (literal : k.kind = .literal)
      (start : k.start ≤ p) (stop : p < k.stop)
  /-- In the bodies of the here-documents that are read at a line feed, also at one in an
  interpolation. -/
  | body {s u : Tokenizer} {found : List Finding} (reach : Tokenizer.Reaches (.ofSource source) s)
      (ahead : s.cursor.rest.head? = some '\n') (h : s.step = .next found u)
      (start : s.cursor.position < p) (stop : p < u.cursor.position)
  /-- In an embedded document or directly behind it. -/
  | document {s : Tokenizer} {n : Nat} (reach : Tokenizer.Reaches (.ofSource source) s)
      (h : s.document? = some n) (start : s.cursor.position ≤ p) (stop : p ≤ s.cursor.position + n)
  /-- At the end of a line that a backslash joins to the next. -/
  | joined {s : Tokenizer} {sep : Text} (reach : Tokenizer.Reaches (.ofSource source) s)
      (join : sep ∈ Tokenizer.joins) (ahead : sep <+: s.cursor.rest)
      (stop : p + 1 = s.cursor.position + sep.length)
  /-- Behind the end mark. -/
  | ended {s : Tokenizer} (reach : Tokenizer.Reaches (.ofSource source) s) (mark : s.atEndMark)
      (start : s.cursor.position ≤ p)

namespace Tokenizer

/-- What a step covers is covered by the whole walk. -/
theorem covers_of_reaches {s t : Tokenizer} {line : Nat} (reach : Reaches s t)
    (h : Covers t.step.found line) :
    Covers s.run.found line := by
  obtain ⟨f, hf, covers⟩ := h
  exact ⟨f, mem_found_run_iff.2 ⟨t, reach, hf⟩, covers⟩

theorem mem_found_of_mem_tokens {k : Token} (h : k ∈ (tokenize source).tokens) :
    .token k ∈ (tokenize source).found := mem_tokensOf.1 (Tokenization.tokens_eq _ ▸ h)

/-- The step that passes a place, or with which the walk stops before it. -/
theorem exists_passed {s : Tokenizer} (le : s.cursor.position ≤ p) : ∃ t, Reaches s t ∧
    t.cursor.position ≤ p ∧ ∀ found u, t.step = .next found u → p < u.cursor.position := by
  induction s using walk_induction with
  | stop s found ending h => exact ⟨s, .here, le, fun _ _ h' => nomatch h.symm.trans h'⟩
  | next s found u h ih =>
    by_cases passed : p < u.cursor.position
    · refine ⟨s, .here, le, fun _ _ h' => ?_⟩
      rw [h] at h'
      cases h'
      exact passed
    · obtain ⟨t, reach, behind⟩ := ih (Nat.le_of_not_lt passed)
      exact ⟨t, Reaches.trans (.step .here h) reach, behind⟩

section Withheld

variable (complete : (tokenize source).ending = .complete)
  (undashed : ¬ ['$', '-', '\n'] <:+: source) (feed : source[p]? = some '\n')

include complete undashed feed

/-- The lines that are sealed are withheld. -/
theorem withheld_of_sealed {lines : LineRange} (h : .sealed lines ∈ (tokenize source).found)
    (contains : lines.contains (lineAt source p)) : Withheld source p := by
  obtain ⟨s, reach, h⟩ := mem_found_run_iff.1 h
  have numbered := numbered_of_reaches undashed reach
  have seals := seals_step s
  generalize hstep : s.step = step at h seals
  cases seals with
  | document hdoc =>
    cases List.mem_singleton.1 h
    obtain ⟨start, stop⟩ := (contains_document numbered feed hdoc).1 contains
    exact .document reach hdoc start stop
  | joined join ahead =>
    cases List.mem_singleton.1 h
    exact .joined reach join ahead ((contains_join numbered feed join ahead).1 contains)
  | ended mark =>
    rcases List.mem_cons.1 h with h | h
    · cases h
      exact .ended reach mark
        ((contains_ended numbered feed (lineCount_of_reaches reach) mark).1 contains)
    · cases List.mem_singleton.1 h
  | finished => cases List.mem_singleton.1 h
  | reads unsealed =>
    cases step with
    | next found u => exact absurd h (unsealed.2 lines)
    | stop found ending => exact absurd ((ending_of_stop reach hstep).symm.trans complete) unsealed

/-- The lines of a body are withheld. -/
theorem withheld_of_body {d : Heredoc} {lines : LineRange}
    (h : .heredocRead d lines ∈ (tokenize source).found)
    (contains : lines.contains (lineAt source p)) : Withheld source p := by
  obtain ⟨s, reach, h⟩ := mem_found_run_iff.1 h
  have numbered := numbered_of_reaches undashed reach
  cases hstep : s.step with
  | next found u =>
    rw [hstep] at h
    have read : (d, lines) ∈ bodiesOf found := mem_bodiesOf.2 h
    have none : bodiesOf found ≠ [] := List.ne_nil_of_mem read
    -- only the step that reads documents finds a body
    cases handles_step hstep with
    | leaves _ bodies => exact absurd bodies none
    | opens _ _ bodies => exact absurd bodies none
    | forgets _ bodies => exact absurd bodies none
    | reads ahead =>
      obtain ⟨start, stop⟩ := between_of_body undashed numbered feed ahead hstep h contains
      exact .body reach ahead hstep start stop
  | stop found ending =>
    have seals := seals_step s
    rw [hstep] at h seals
    cases seals with
    | ended mark =>
      rcases List.mem_cons.1 h with h | h
      · cases h
      · cases List.mem_singleton.1 h
    | finished => cases List.mem_singleton.1 h
    | reads unsealed => exact absurd ((ending_of_stop reach hstep).symm.trans complete) unsealed

/-- What is covered is withheld. -/
theorem withheld_of_covers (h : Covers (tokenize source).found (lineAt source p)) :
    Withheld source p := by
  obtain ⟨f, hf, r, hr, contains⟩ := h
  cases f with
  | token k =>
    have mem : k ∈ (tokenize source).tokens := by
      rw [Tokenization.tokens_eq]
      exact mem_tokensOf.2 hf
    have numbered := numbered_run undashed _ (numbered_ofSource source) k mem
    obtain ⟨literal, start, stop⟩ := (contains_literalLines numbered feed).1 ⟨r, hr, contains⟩
    exact .literal mem literal start stop
  | sealed lines =>
    cases hr
    exact withheld_of_sealed complete undashed feed hf contains
  | heredocOpened => cases hr
  | heredocRead d lines =>
    cases hr
    exact withheld_of_body complete undashed feed hf contains

omit complete in
/-- What is withheld is covered. -/
theorem covers_of_withheld (h : Withheld source p) :
    Covers (tokenize source).found (lineAt source p) := by
  -- each of the five ways seals the line, by the step that comes to it
  cases h with
  | literal found literal start stop =>
    have numbered := numbered_run undashed _ (numbered_ofSource source) _ found
    obtain ⟨r, hr, contains⟩ := (contains_literalLines numbered feed).2 ⟨literal, start, stop⟩
    exact ⟨_, mem_found_of_mem_tokens found, r, hr, contains⟩
  | body reach ahead h start stop =>
    refine covers_of_reaches reach ?_
    rw [h]
    exact covers_of_body undashed (numbered_of_reaches undashed reach) feed ahead h start stop
  | document reach h start stop =>
    refine covers_of_reaches reach ?_
    rw [step_of_document h]
    have contains := (contains_document (numbered_of_reaches undashed reach) feed h).2 ⟨start, stop⟩
    exact covers_sealed (LineRange.contains_iff.1 contains)
  | joined reach join ahead stop =>
    refine covers_of_reaches reach ?_
    rw [step_of_join join ahead]
    have contains := (contains_join (numbered_of_reaches undashed reach) feed join ahead).2 stop
    exact covers_sealed (LineRange.contains_iff.1 contains)
  | ended reach mark start =>
    refine covers_of_reaches reach ?_
    rw [step_eq_finish_of_atEndMark mark]
    have contains := (contains_ended (numbered_of_reaches undashed reach) feed
      (lineCount_of_reaches reach)
      mark).2 start
    unfold finish
    split
    · exact covers_sealed (LineRange.contains_iff.1 contains)
    · exact covers_sealed (LineRange.contains_iff.1 contains)

/-- A line feed that is not withheld is the end of a line. -/
theorem newline_of_not_withheld (h : ¬ Withheld source p) :
    ∃ k ∈ (tokenize source).tokens, k.kind = .newline ∧ k.start = p := by
  obtain ⟨t, reach, le, passed⟩ := exists_passed (s := ofSource source) (Nat.zero_le p)
  have numbered := numbered_of_reaches undashed reach
  have more : t.cursor.rest ≠ [] := by
    rw [numbered.cursor.rest]
    intro none
    exact absurd (Nat.le_trans (List.drop_eq_nil_iff.1 none) le)
      (Nat.not_le_of_lt (List.getElem?_eq_some_iff.1 feed).1)
  cases hstep : t.step with
  | stop found ending =>
    obtain rfl : ending = .complete := (ending_of_stop reach hstep).symm.trans complete
    obtain ⟨-, nothing | ⟨mark, -⟩⟩ := stop_cases hstep
    · exact absurd nothing more
    · exact absurd (.ended reach mark le) h
  | next found u =>
    have first : t.cursor.line ≤ lineAt source p := numbered.line more ▸ lineAt_mono le
    have last : lineAt source p < u.cursor.line :=
      Nat.lt_of_lt_of_le ((lineAt_lt_iff feed).2 (passed found u hstep))
        (lineAt_le_of_next undashed numbered hstep)
    rcases covers_of_crossed reach (Nat.le_refl _) complete hstep _ first last with
      covers | ⟨⟨outside, head⟩, line⟩
    · exact absurd (withheld_of_covers complete undashed feed covers) h
    · have here : source[t.cursor.position]? = some '\n' := by
        rw [← List.head?_drop, ← numbered.cursor.rest]
        exact head
      have same : t.cursor.position = p :=
        Nat.le_antisymm le ((lineAt_le_iff here).1 (Nat.le_of_eq (line.trans (numbered.line more))))
      obtain ⟨r, hr⟩ := List.head?_eq_some_iff.1 head
      obtain ⟨k, kind, -, only⟩ := newline_of_takeNewline ((step_of_lineFeed hr).symm.trans hstep)
      rw [show t.unnamed.suspended = [] from outside] at only
      obtain ⟨-, -, ⟨j, only', start, -⟩ | ⟨none, -⟩⟩ := next_cases hstep
      · obtain rfl : k = j := (List.cons.inj (only.symm.trans only')).1
        refine ⟨k, ?_, kind, start.trans ?_⟩
        · obtain ⟨before, hrun⟩ := reach.run_eq
          rw [tokenize, hrun, run_of_next hstep, Tokenization.tokens_eq, tokensOf_append,
            tokensOf_append, only]
          exact List.mem_append_right _ (List.mem_append_left _ (List.mem_singleton_self k))
        · rw [origin, outside]
          exact same
      · rw [none] at only
        cases only

omit undashed in
/-- The end of a line is not withheld, unless an embedded document ends there. -/
theorem not_withheld_of_newline {k : Token} (hk : k ∈ (tokenize source).tokens)
    (newline : k.kind = .newline) (start : k.start = p) (plain : ¬ DocumentEnds source p) :
    ¬ Withheld source p := by
  have origin := origin_ofSource source
  have some : k.start < k.stop := (token_of_run _ origin k hk).1.2 (by rw [newline]; decide)
  intro withheld
  cases withheld with
  | @literal l found literal before behind =>
    have other : k ≠ l := fun same => by
      rw [same, literal] at newline
      cases newline
    have := (eq_or_apart origin hk found).resolve_left other
    omega
  | body reach ahead h before behind =>
    have := token_of_passed reach origin h k hk
    omega
  | @document s n reach h before behind =>
    have := token_of_document reach origin h hk
    have ends : s.cursor.position + n ≠ p := fun ends => plain ⟨s, n, reach, h, ends⟩
    -- an embedded document does not start with a line feed
    have first : s.cursor.position ≠ p := by
      rintro rfl
      have placed := placed_of_reaches (placed_ofSource source) reach
      rw [← List.head?_drop, ← placed.cursor.rest, head?_of_document h] at feed
      cases feed
    omega
  | @joined s sep reach join ahead stop =>
    have := token_of_passed reach origin (step_of_join join ahead) k hk
    have place : (s.skip sep.length).cursor.position = s.cursor.position + sep.length :=
      advance_position _ _ ahead.length_le
    have long : 1 < sep.length := by
      have all : ∀ sep ∈ joins, 1 < sep.length := by decide
      exact all sep join
    omega
  | ended reach mark before =>
    have := token_of_atEndMark reach origin complete mark hk
    omega

end Withheld

end Tokenizer

/-- In a program that is accepted, and in which no `$-` takes a line feed, the line of a line feed
ends in code if and only if the line feed starts the end of a line of the program itself, and is not
the one behind an embedded document. So no comment before it is part of anything else, and no other
line is withheld. -/
theorem endsInCode_iff_newline {scanned : Scan} (accepted : scan source = .ok (.ok scanned))
    (undashed : ¬ ['$', '-', '\n'] <:+: source) (feed : source[p]? = some '\n') :
    (scanned.layout.endsInCode (lineAt source p) ↔
      (∃ k ∈ (tokenize source).tokens, k.kind = .newline ∧ k.start = p) ∧ ¬ DocumentEnds source p) ∧
    (scanned.layout.endsInCode (lineAt source p) = false ↔ Withheld source p) := by
  obtain ⟨r, -, complete, rfl⟩ := Scan.eq_of_scan accepted
  have ends : (Layout.ofTokens source (tokenize source) r.comments).endsInCode (lineAt source p) ↔
      ¬ Withheld source p := by
    have line : 1 ≤ lineAt source p ∧ lineAt source p ≤ max 1 (Text.lineCount source) :=
      ⟨Nat.le_add_right 1 _, Nat.le_trans (lineAt_le_lineCount feed) (Nat.le_max_right _ _)⟩
    rw [endsInCode_iff, and_iff_right line]
    exact not_congr ⟨Tokenizer.withheld_of_covers complete undashed feed,
      Tokenizer.covers_of_withheld undashed feed⟩
  refine ⟨ends.trans ⟨fun code => ⟨?_, ?_⟩, fun ⟨⟨k, hk, newline, start⟩, plain⟩ => ?_⟩, ?_⟩
  · exact Tokenizer.newline_of_not_withheld complete undashed feed code
  · rintro ⟨s, n, reach, h, rfl⟩
    exact code (.document reach h (Nat.le_add_right _ _) (Nat.le_refl _))
  · exact Tokenizer.not_withheld_of_newline complete feed hk newline start plain
  · rw [← Bool.not_eq_true, ends, not_not]

/-- The body of a here-document, an embedded document, a line that is joined to the next, and the
end mark. -/
theorem endsInCode_iff_newline_document :
    let source := "a = <<A\nt\nA\n=begin\n=end\nb \\\n+ c\n__END__\nx\n".toList
    ∃ scanned, scan source = .ok (.ok scanned) ∧
      (∀ p ∈ [7, 31], scanned.layout.endsInCode (lineAt source p) ∧
        (∃ k ∈ (tokenize source).tokens, k.kind = .newline ∧ k.start = p) ∧
          ¬ DocumentEnds source p) ∧
      ∀ p ∈ [9, 11, 18, 23, 27, 39, 41], scanned.layout.endsInCode (lineAt source p) = false ∧
        Withheld source p := by
  intro source
  have undashed : ¬ ['$', '-', '\n'] <:+: source := by decide +kernel
  have read : (scanFor 60 source).any fun s =>
      [7, 31].all (fun p => source[p]? == some '\n' && s.layout.endsInCode (lineAt source p)) &&
      [9, 11, 18, 23, 27, 39, 41].all
        fun p => source[p]? == some '\n' && !s.layout.endsInCode (lineAt source p) := by
    decide +kernel
  obtain ⟨s, hs, lines⟩ := (Option.any_eq_true ..).1 read
  have accepted := scan_of_scanFor hs
  simp only [Bool.and_eq_true, List.all_eq_true, beq_iff_eq, Bool.not_eq_true'] at lines
  refine ⟨s, accepted, fun p hp => ?_, fun p hp => ?_⟩
  · obtain ⟨feed, code⟩ := lines.1 p hp
    exact ⟨code, (endsInCode_iff_newline accepted undashed feed).1.1 code⟩
  · obtain ⟨feed, sealed⟩ := lines.2 p hp
    exact ⟨sealed, (endsInCode_iff_newline accepted undashed feed).2.1 sealed⟩

end Marginalia.Source
