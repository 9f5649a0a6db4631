import Marginalia.Proofs.Source.Dashes
import Marginalia.Proofs.Source.Slices
import Marginalia.Proofs.Source.Statements

/-!
# Line numbers

If no `$-` of a program takes the line feed behind it, lines are counted right (`numbered_step`): at
every place where something is left to read, the line is one more than the line feeds before the
place, and every token starts and ends on the lines that are counted so, also the tokens inside of
interpolations. From this follow the lines of statements and of comments (`lines_of_undashed`).

What a step carries along is told once for any relation of places and lines (`Tokenizer.Carries`):
tokens and open literals start where something was known to start.
-/

namespace Marginalia.Source

/-- The line of a place of a program: one more than the line feeds before it. -/
def lineAt (source : Text) (p : Nat) : Nat := 1 + Text.lineFeeds (source.take p)

variable {source : Text}

/-- The line of a place and the line feeds behind it are all line feeds. -/
theorem lineAt_add_drop (source : Text) (p : Nat) :
    lineAt source p + Text.lineFeeds (source.drop p) = 1 + Text.lineFeeds source := by
  have whole := Text.lineFeeds_append (source.take p) (source.drop p)
  rw [List.take_append_drop] at whole
  unfold lineAt
  omega

/-- A later place is as many lines on as there are line feeds between. -/
theorem lineAt_add (source : Text) (p n : Nat) :
    lineAt source (p + n) = lineAt source p + Text.lineFeeds ((source.drop p).take n) := by
  unfold lineAt
  rw [List.take_add, Text.lineFeeds_append, Nat.add_assoc]

/-- A later place is on the same line, if there is no line feed between. -/
theorem lineAt_add_of_notMem {p n : Nat} (h : '\n' ∉ (source.drop p).take n) :
    lineAt source (p + n) = lineAt source p := by
  rw [lineAt_add, Text.lineFeeds_eq_zero h, Nat.add_zero]

/-- The line of a place and the line feeds behind it. -/
theorem lineAt_of_at {c : Cursor} (h : c.At source) :
    lineAt source c.position + Text.lineFeeds c.rest = 1 + Text.lineFeeds source := by
  rw [h.rest]
  exact lineAt_add_drop source c.position

/-- No `$-` takes a line feed ahead if none does in the whole program. -/
theorem Cursor.At.undashed {c : Cursor} (h : c.At source)
    (undashed : ¬ ['$', '-', '\n'] <:+: source) (a : Text) : c.rest ≠ '$' :: '-' :: '\n' :: a :=
  fun ha => undashed <| by
  have ahead : ['$', '-', '\n'] <+: c.rest := ⟨a, ha.symm⟩
  exact ahead.isInfix.trans (h.rest ▸ (List.drop_suffix _ _).isInfix)

/-- A token that starts on the line of its start and ends on the line of its end. The end of the
program has no line of its own, and the end of a line is taken with the here-documents below it. -/
structure Token.Numbered (source : Text) (t : Token) : Prop where
  line : t.kind ≠ .eof → t.line = lineAt source t.start
  endLine : t.kind ≠ .eof → t.kind ≠ .newline → t.endLine = lineAt source t.stop

namespace Tokenizer

variable {s u : Tokenizer} {t : Token} {found : List Finding} {Starts : Nat → Nat → Prop}

/-! ## What a step carries along -/

/-- Something starts at the places and on the lines where tokens and open literals start; a token
ends on the line to which the walk has come, and only the end of a line is a token of that kind. -/
def Carries (Starts : Nat → Nat → Prop) : Step → Prop
  | .next found s => (∀ l ∈ s.suspended, Starts l.start l.line) ∧
      ∀ t ∈ tokensOf found, Starts t.start t.line ∧ t.endLine = s.cursor.line
  | .stop found _ => ∀ t ∈ tokensOf found, t.kind = .eof

theorem Carries.prepend {step : Step} (h : Carries Starts step) (none : tokensOf found = []) :
    Carries Starts (step.prepend found) := by
  cases step with
  | next more s => exact ⟨h.1, by rw [tokensOf_append, none]; exact h.2⟩
  | stop more ending =>
    show ∀ t ∈ tokensOf (found ++ more), t.kind = .eof
    rw [tokensOf_append, none]
    exact h

theorem carries_refuse {line : Nat} {fault : SyntaxFault} (none : tokensOf found = []) :
    Carries Starts (refuse found line fault) := by
  show ∀ t ∈ tokensOf found, t.kind = .eof
  rw [none]
  exact fun _ h => nomatch h

theorem carries_record (literals : ∀ l ∈ s.suspended, Starts l.start l.line)
    (starts : Starts t.start t.line) (ends : t.endLine = s.cursor.line) :
    Carries Starts (s.record t) := by
  refine ⟨literals, fun k hk => ?_⟩
  split at hk
  · rw [List.mem_singleton.1 hk]
    exact ⟨starts, ends⟩
  · cases hk

theorem ReadsOn.carries {l : OpenLiteral} {step : Step} (h : s.ReadsOn l step)
    (literals : ∀ l ∈ s.suspended, Starts l.start l.line) (starts : Starts l.start l.line) :
    Carries Starts step := by
  cases h with
  | closed => exact carries_record (s := { s with cursor := _ }) literals starts rfl
  | interpolation => exact ⟨List.forall_mem_cons.2 ⟨starts, literals⟩, fun _ hk => nomatch hk⟩
  | unterminated => exact carries_refuse rfl
  | split => exact fun _ hk => nomatch hk

theorem Settles.carries {step : Step} (h : s.Settles t step)
    (literals : ∀ l ∈ s.suspended, Starts l.start l.line)
    (starts : Starts t.start t.line) (ends : t.endLine = s.cursor.line) : Carries Starts step := by
  cases h with
  | record => exact carries_record literals starts ends
  | count l outer hs braces =>
    rw [hs] at literals
    obtain ⟨inner, outside⟩ := List.forall_mem_cons.1 literals
    -- counting braces leaves a literal where it starts
    exact carries_record (s := { s with suspended := { l with braces } :: outer })
      (List.forall_mem_cons.2 ⟨inner, outside⟩) starts ends
  | close l outer hs =>
    rw [hs] at literals
    obtain ⟨inner, outside⟩ := List.forall_mem_cons.1 literals
    exact (readsOn { s with suspended := outer, heredocs := _, memory := _ } l).carries
      outside inner

section

variable (literals : ∀ l ∈ s.suspended, Starts l.start l.line)
  (here : Starts s.cursor.position s.cursor.line)

include literals here

theorem Breaks.carries {step : Step} (h : s.Breaks step) : Carries Starts step := by
  cases h with
  | unterminated _ _ read => exact carries_refuse (tokensOf_bodies read)
  | below _ _ _ behind read =>
    exact (carries_record (s := { s with cursor := behind, heredocs := [] }) literals here
      rfl).prepend
      (tokensOf_bodies read)

/-- What a character starts is numbered with the line that it starts on. -/
theorem Takes.carries {c : Char} {r : Text} {step : Step} (h : s.Takes c r step) :
    Carries Starts step := by
  cases h with
  | name kind more pending =>
    exact (settles { s.readied s.spaced pending with cursor := _ } _).carries literals here rfl
  | token spaced waits kind more =>
    exact (settles { s.readied spaced waits with cursor := _ } _).carries literals here rfl
  | newline spaced waits =>
    exact Breaks.carries (s := s.readied spaced waits) literals here (breaks _)
  | literal spaced waits =>
    exact (readsOn { s.readied spaced waits with cursor := _ } _).carries literals here
  | heredoc spaced waits more h =>
    exact ((settles { s.readied spaced waits with heredocs := s.heredocs ++ [h], cursor := _ }
      _).carries
      literals here rfl).prepend rfl
  | refuse => exact carries_refuse rfl
  | split => exact fun _ hk => nomatch hk

omit literals here in
theorem carries_finish (s : Tokenizer) (none : tokensOf found = []) :
    Carries Starts (s.finish found) := by
  unfold finish
  split
  · show ∀ t ∈ tokensOf (found ++ [.token (s.cut .eof [] s.cursor)]), t.kind = .eof
    rw [tokensOf_append, none]
    exact List.forall_mem_singleton.2 rfl
  · exact carries_refuse none

/-- What a step finds is numbered with the line that it starts on. -/
theorem carries_step : Carries Starts s.step := by
  have acts := s.acts
  generalize s.step = step at acts ⊢
  cases acts with
  | document | blank | join => exact ⟨literals, fun _ hk => nomatch hk⟩
  | refuse => exact carries_refuse rfl
  | ends | mark => exact carries_finish s rfl
  | reads _ _ _ takes => exact takes.carries literals here

end

/-! ## Counted lines -/

/-- A state of a walk over a program in which lines are counted right: that of the place, if
something is left to read, and those where literals are open. -/
structure Numbered (source : Text) (s : Tokenizer) : Prop extends s.Placed source where
  line : s.cursor.rest ≠ [] → s.cursor.line = lineAt source s.cursor.position
  openLines : ∀ l ∈ s.suspended, l.line = lineAt source l.start

/-- At the start all is numbered as it should be. -/
theorem numbered_ofSource (source : Text) : (ofSource source).Numbered source where
  toPlaced := placed_ofSource source
  line _ := rfl
  openLines _ h := nomatch h

/-- Where nothing is known of the literals farther out. -/
def within (s : Tokenizer) (n : Nat) : Tokenizer := { s with suspended := s.suspended.take n }

/-- What is numbered as it should be stays so inside of literals. -/
theorem Numbered.within (h : s.Numbered source) (n : Nat) : (s.within n).Numbered source where
  cursor := h.cursor
  literals l hl := h.literals l (List.mem_of_mem_take hl)
  line := h.line
  openLines l hl := h.openLines l (List.mem_of_mem_take hl)

/-- The line feeds before a place and behind it are those of the program. -/
theorem Numbered.lineSum_eq (h : s.Numbered source) (more : s.cursor.rest ≠ []) :
    s.lineSum = 1 + Text.lineFeeds source := by
  rw [← lineAt_add_drop source s.cursor.position, ← h.cursor.rest, ← h.line more]
  rfl

/-- If the sum of lines is kept, the cursor is on the line of its place. -/
theorem line_eq_of_lineSum (placed : s.cursor.At source)
    (h : s.lineSum = 1 + Text.lineFeeds source) :
    s.cursor.line = lineAt source s.cursor.position := by
  have sum := lineAt_of_at placed
  unfold lineSum at h
  omega

/-- At the end of a line only the end of a line is found. -/
theorem newline_of_lineFeed {r : Text} (hr : s.cursor.rest = '\n' :: r)
    (h : s.step = .next found u) :
    ∀ k ∈ tokensOf found, k.kind = .newline := by
  rw [step_of_lineFeed hr] at h
  obtain ⟨_, kind, -, only⟩ := newline_of_takeNewline h
  intro k hk
  rw [only] at hk
  split at hk
  · rw [List.mem_singleton.1 hk]
    exact kind
  · cases hk

/-- A step counts lines right, and so does what it finds. -/
theorem numbered_step (undashed : ¬ ['$', '-', '\n'] <:+: source) (hs : s.Numbered source)
    (h : s.step = .next found u) :
    u.Numbered source ∧ ∀ k ∈ tokensOf found, k.Numbered source := by
  have more : s.cursor.rest ≠ [] := fun nothing => by
    have less := rest_lt_of_step h
    rw [nothing] at less
    cases less
  have sound := sound_step hs.toPlaced
  have carries : Carries (fun p line => line = lineAt source p) s.step :=
    carries_step hs.openLines (hs.line more)
  rw [h] at sound carries
  obtain ⟨placed, -, -⟩ := sound
  obtain ⟨literals, tokens⟩ := carries
  -- the line of the place behind, unless it is the end of the program and the end of a line
  have count : s.cursor.rest.head? ≠ some '\n' ∨ u.cursor.rest ≠ [] →
      u.cursor.line = lineAt source u.cursor.position := fun finished =>
    line_eq_of_lineSum placed.cursor
      ((lineSum_of_next h (hs.cursor.undashed undashed) (.inr finished)).trans (hs.lineSum_eq more))
  refine ⟨⟨placed, fun left => count (.inr left), literals⟩, fun k hk =>
    ⟨fun _ => (tokens k hk).1, ?_⟩⟩
  intro _ inner
  obtain ⟨-, -, ⟨j, only, -, stops, -⟩ | ⟨none, -⟩⟩ := next_cases h
  · rw [only, List.mem_singleton] at hk
    rw [hk, stops, ← count (.inl fun head => ?_),
      (tokens j (by rw [only]; exact List.mem_singleton_self j)).2]
    obtain ⟨r, hr⟩ := List.head?_eq_some_iff.1 head
    exact inner (newline_of_lineFeed hr h k (by rw [only, hk]; exact List.mem_singleton_self j))
  · rw [none] at hk
    cases hk

/-- Wherever the walk comes, all is numbered as it should be. -/
theorem numbered_of_reaches (undashed : ¬ ['$', '-', '\n'] <:+: source)
    (reach : Reaches (ofSource source) s) : s.Numbered source := by
  induction reach with
  | here => exact numbered_ofSource source
  | step _ hstep ih => exact (numbered_step undashed ih hstep).1

/-- All tokens are numbered as they should be. -/
theorem numbered_run (undashed : ¬ ['$', '-', '\n'] <:+: source) (s : Tokenizer)
    (hs : s.Numbered source) : ∀ k ∈ s.run.tokens, k.Numbered source := by
  induction s using walk_induction with
  | stop s found ending h =>
    rw [tokens_run_of_stop h]
    intro k hk
    have only := eof_of_stop h k hk
    exact ⟨fun inner => absurd only inner, fun inner => absurd only inner⟩
  | next s found u h ih =>
    obtain ⟨hu, tokens⟩ := numbered_step undashed hs h
    rw [tokens_run_of_next h]
    exact List.forall_mem_append.2 ⟨tokens, ih hu⟩

end Tokenizer

/-! ## Statements and comments -/

/-- The characters of a comment stand on one line. -/
theorem lineAt_of_comment {k : Token} (hk : k ∈ (tokenize source).tokens) (kind : k.kind = .comment)
    {p : Nat} (hstart : k.start ≤ p) (hstop : p ≤ k.stop) :
    lineAt source p = lineAt source k.start := by
  obtain ⟨s, x, reach, hr, start, stop, -⟩ := Tokenizer.exists_comment hk kind
  have placed := Tokenizer.placed_of_reaches (Tokenizer.placed_ofSource source) reach
  obtain ⟨n, rfl⟩ := Nat.exists_eq_add_of_le hstart
  have short : n ≤ (x.takeWhile (· != '\n')).length + 1 := by omega
  apply lineAt_add_of_notMem
  rw [start, ← placed.cursor.rest, hr]
  intro mem
  have inside : '\n' ∈ ('#' :: x).take ((x.takeWhile (· != '\n')).length + 1) :=
    (List.take_sublist_take_left short).subset mem
  rw [List.take_succ_cons, List.mem_cons] at inside
  have taken : x.take (x.takeWhile (· != '\n')).length = x.takeWhile (· != '\n') :=
    List.prefix_iff_eq_take.1 (List.takeWhile_prefix _) |>.symm
  rw [taken] at inside
  rcases inside with hash | inner
  · cases hash
  · exact lineFeed_notMem_takeWhile x inner

/-- Where no `$-` stands before a line feed, every token but the end of the program starts on the
line of its start, and every token but that and the ends of lines ends on the line of its end;
`Tokenizer.within` takes the tokens inside of interpolations, which are no tokens of the program. So
a statement has the line on which the last of its tokens ends, a comment stands as a whole on the
line that is kept for it, and the lines of the comments increase. -/
theorem lines_of_undashed (undashed : ¬ ['$', '-', '\n'] <:+: source) :
    (∀ t ∈ (tokenize source).tokens, t.Numbered source) ∧
    (∀ s, Tokenizer.Reaches (.ofSource source) s → ∀ n found u, (s.within n).step = .next found u →
      ∀ t ∈ tokensOf found, t.Numbered source) ∧
    ∀ scanned, scan source = .ok (.ok scanned) →
      (∀ e ∈ scanned.statements, e.line = lineAt source e.stop ∧
        ∃ t ∈ (tokenize source).tokens, Scanner.isCode t.kind ∧ t.stop = e.stop ∧
          t.endLine = e.line) ∧
      (∀ c ∈ scanned.layout.comments, c.start < c.stop ∧
        ∀ p, c.start ≤ p → p ≤ c.stop → lineAt source p = c.line) ∧
      scanned.layout.comments.Pairwise fun a b => a.line < b.line := by
  have tokens := Tokenizer.numbered_run undashed _ (Tokenizer.numbered_ofSource source)
  refine ⟨tokens, fun s reach n found u h => ?_, fun scanned accepted => ⟨fun e he => ?_, ?_, ?_⟩⟩
  · exact (Tokenizer.numbered_step undashed
      ((Tokenizer.numbered_of_reaches undashed reach).within n) h).2
  · obtain ⟨t, ht, code, stop, line⟩ := endLine_of_statement accepted e he
    have ends := (tokens t ht).endLine (fun eof => by rw [eof] at code; cases code)
      (fun newline => by rw [newline] at code; cases code)
    exact ⟨by rw [← line, ← stop, ends], t, ht, code, stop, line⟩
  · rw [comments_of_scan accepted]
    intro c hc
    obtain ⟨k, hk, rfl⟩ := List.mem_map.1 hc
    obtain ⟨mem, kind⟩ := List.mem_filter.1 hk
    have kind : k.kind = .comment := beq_iff_eq.1 kind
    have inner : k.kind ≠ .eof := by rw [kind]; decide
    have spans := (Tokenizer.token_of_run _ (Tokenizer.origin_ofSource source) k mem).1
    refine ⟨spans.2 inner, fun p hstart hstop => ?_⟩
    exact (lineAt_of_comment mem kind hstart hstop).trans ((tokens k mem).line inner).symm
  · rw [comments_of_scan accepted]
    exact List.pairwise_map.2 (Tokenizer.pairwise_comments (.ofSource source))

/-- A string over several lines with an interpolation over two, a here-document, and a variable that
is named by a dash. -/
theorem lines_of_undashed_string :
    let source := "a = \"x\n#\x7bb +\n c\x7dy\" # one\nputs <<A, $-w\n t\nA\nd # two\n".toList
    ¬ ['$', '-', '\n'] <:+: source ∧ ∃ s : Scan, scan source = .ok (.ok s) ∧
      s.statements.map Statement.line = [3, 4, 7] ∧ s.layout.comments.map Comment.line = [3, 7] ∧
      (∀ e ∈ s.statements, e.line = lineAt source e.stop) ∧
      ∀ t ∈ (tokenize source).tokens, t.Numbered source := by
  intro source
  have undashed : ¬ ['$', '-', '\n'] <:+: source := by decide +kernel
  have scanned : (scanFor 60 source).any (fun s => s.statements.map Statement.line == [3, 4, 7] &&
      s.layout.comments.map Comment.line == [3, 7]) := by decide +kernel
  obtain ⟨s, hs, hlines⟩ := (Option.any_eq_true ..).1 scanned
  rw [Bool.and_eq_true, beq_iff_eq, beq_iff_eq] at hlines
  obtain ⟨tokens, -, rest⟩ := lines_of_undashed undashed
  exact ⟨undashed, s, scan_of_scanFor hs, hlines.1, hlines.2,
    fun e he => ((rest s (scan_of_scanFor hs)).1 e he).1, tokens⟩

end Marginalia.Source
