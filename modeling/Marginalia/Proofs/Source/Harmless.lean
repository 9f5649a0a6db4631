import Marginalia.Proofs.Source.Codeless
import Marginalia.Proofs.Source.Comments
import Marginalia.Proofs.Source.Firm
import Marginalia.Proofs.Source.Nesting

/-!
# Programs with harmless margins

Two programs that differ in blanks and comments behind firm code, and in lines without code below
the last (`Margins.Harmless`). If the first is accepted, the second is accepted
(`Harmless.exists_scan`). It has the comments of the first, those of its margins and those below
(`Harmless.hasComment_iff`), and all of them stand on the lines that they are numbered with
(`Harmless.stands`).
-/

namespace Marginalia.Source

open Tokenizer

/-- Somewhere in the program, at the start of a line and outside of all literals, stands the end
mark. -/
def Marked (source : Text) : Prop := ∃ t, Reaches (.ofSource source) t ∧ t.atEndMark

/-- The walk stops at the end mark. -/
theorem eq_of_atEndMark {s t : Tokenizer} (mark : s.atEndMark) (reach : Reaches s t) : t = s := by
  obtain same | ⟨_, _, next, -⟩ := reach.head
  · exact same
  · rw [step_eq_finish_of_atEndMark mark] at next
    unfold finish at next
    split at next <;> cases next

/-- A walk that comes to the end mark comes to no other end. -/
theorem eq_of_stops {s₀ s t : Tokenizer} {found : List Finding} (reach : Reaches s₀ s)
    (reach' : Reaches s₀ t) (stop : s.step = .stop found .complete) (mark : t.atEndMark) :
    t = s := by
  rcases reach.linear reach' with onward | back
  · obtain same | ⟨_, _, next, -⟩ := onward.head
    · exact same
    · rw [stop] at next
      cases next
  · exact (eq_of_atEndMark mark back).symm

/-- A walk that goes on has not found the end of the program. -/
theorem kind_ne_eof_of_finds {s t : Tokenizer} {f : List Finding} {source : Text}
    (placed : s.Placed source) (walk : Finds s f t) : ∀ k ∈ tokensOf f, k.kind ≠ .eof := by
  induction walk with
  | here => exact nofun
  | @step t u before found walk hstep ih =>
    have sound := sound_step (placed_of_reaches placed walk.reaches)
    rw [hstep] at sound
    rw [tokensOf_append]
    exact List.forall_mem_append.2 ⟨ih, sound.2.2⟩

/-- A line has no comment just if none is among the tokens. -/
theorem commentOn_eq_none_iff {source : Text} {r : Scan} {n : Nat}
    (accepted : scan source = .ok (.ok r)) :
    r.layout.commentOn n = none ↔ ∀ x, ¬ HasComment (tokenize source).tokens n x := by
  unfold Layout.commentOn
  rw [List.find?_eq_none, comments_of_scan accepted]
  constructor
  · rintro none x ⟨k, hk, comment, line, -⟩
    refine none ⟨k.line, k.start, k.stop⟩ ?_ (beq_iff_eq.2 line)
    exact List.mem_map.2 ⟨k, List.mem_filter.2 ⟨hk, beq_iff_eq.2 comment⟩, rfl⟩
  · rintro none c hc line
    obtain ⟨k, hk, rfl⟩ := List.mem_map.1 hc
    obtain ⟨hk, comment⟩ := List.mem_filter.1 hk
    exact none k.text ⟨k, hk, beq_iff_eq.1 comment, beq_iff_eq.1 line, rfl⟩

/-- Which lines are covered is seen from the lines that the findings tell. -/
theorem covers_congr {f g : List Finding} {n : Nat}
    (h : g.map Finding.lines? = f.map Finding.lines?) :
    Covers g n ↔ Covers f n := by
  have told (f : List Finding) :
      Covers f n ↔ ∃ o ∈ f.map Finding.lines?, ∃ r, o = some r ∧ r.contains n := by
    unfold Covers
    simp only [List.mem_map, exists_exists_and_eq_and]
  rw [told, told, h]

/-- Where no comments are added, both walks find the same lines. -/
theorem lines_of_woven {m : Margins} {f g : List Finding} (bare : ∀ n, m.comment n = none)
    (woven : Woven m f g) :
    g.map Finding.lines? = f.map Finding.lines? := by
  -- both sides find literals on the same lines, and there are no comments between them
  have pair {f g : List Finding} (pairs : List.Forall₂ (Pair m) f g) :
      g.map Finding.lines? = f.map Finding.lines? := by
    induction pairs with
    | nil => rfl
    | cons pair _ ih =>
      obtain ⟨n, p, q, -, twin⟩ := pair
      rw [List.map_cons, List.map_cons, ih]
      cases twin with
      | @token t k twin =>
        have same : Finding.lines? (.token k) = Finding.lines? (.token t) := by
          show literalLines k = literalLines t
          unfold literalLines
          rw [twin.kind, twin.line, twin.endLine]
        rw [same]
      | same => rfl
  induction woven with
  | nil => rfl
  | snoc _ weaves ih =>
    rw [List.map_append, List.map_append, ih]
    cases weaves with
    | plain pairs => rw [pair pairs]
    | commented _ _ _ _ text =>
      rw [bare] at text
      cases text

namespace Margins

/-- Margins that change nothing for the scanner: the second program has the given lines, and below
them lines without code. -/
structure Harmless (m : Margins) (source : Text) (xs ls : List Text) : Prop where
  closed : source.Closed
  whole : (Tokenizer.ofSource source).Whole
  fits : Fits m (.ofSource source)
  lines : m.Lines 1 (Text.pieces source) xs
  whitened : Whitened m
  firm : ∀ s, Reaches (.ofSource source) s → m.differs s.cursor.line → s.Firm
  quiet : m.Quiet 1 (Text.pieces source)
  below : m.below = (ls.map (· ++ ['\n'])).flatten
  codeless : ∀ l ∈ ls, Codeless l
  first : ∀ l, ls.head? = some l → l = []

/-- The second program. -/
def second (m : Margins) (xs : List Text) : Text := xs.flatten ++ m.below

/-- What the walks over both programs find: the tokens of the second are those of the first, with
comments among them, and then ends of lines and comments below. -/
structure Sides (m : Margins) (source : Text) (xs ls : List Text) (f g : List Finding)
    (ts : List Token) :
    Prop where
  left : ∃ eof, (tokenize source).tokens = tokensOf f ++ [eof] ∧ eof.kind = .eof
  right : ∃ eof, (tokenize (m.second xs)).tokens = tokensOf g ++ (ts ++ [eof]) ∧ eof.kind = .eof
  within : ∀ k ∈ tokensOf f, k.kind ≠ .eof ∧ k.line < m.last
  woven : Woven m f g
  complete : (tokenize (m.second xs)).ending = .complete
  below : ¬ Marked source ∧ LineNotes ts m.last (m.last + ls.length) ls ∨ Marked source ∧ ts = []

namespace Harmless

variable {m : Margins} {source : Text} {xs ls : List Text}

section Walks

variable (h : m.Harmless source xs ls)

include h

/-- The lines below are lines. -/
theorem isLine_below : ∀ p ∈ ls.map (· ++ ['\n']), Text.IsLine p := by
  intro p hp
  obtain ⟨l, hl, rfl⟩ := List.mem_map.1 hp
  exact ⟨l, (h.codeless l hl).1, rfl⟩

/-- What is below is closed. -/
theorem closed_below : m.below.Closed := by
  rw [h.below]
  exact Text.closed_flatten fun p hp => (h.isLine_below p hp).closed

/-- There are as many line feeds below as lines. -/
theorem lineFeeds_below : Text.lineFeeds m.below = ls.length := by
  rw [h.below, Text.lineFeeds_flatten h.isLine_below, List.length_map]

/-- What is below starts with an empty line. -/
theorem below_cases : m.below = [] ∨ ∃ r, m.below = '\n' :: r := by
  rw [h.below]
  cases ls with
  | nil => exact .inl rfl
  | cons l ls =>
    rw [h.first l rfl]
    exact .inr ⟨_, rfl⟩

/-- The last line of the first program is behind its last line feed. -/
theorem last_eq : m.last = 1 + Text.lineFeeds source := by
  rw [← h.lines.last_eq, h.closed.lineFeeds_eq]

/-- The pieces of the second program are its lines, and then those below. -/
theorem isLine_pieces : Text.pieces (m.second xs) = xs ++ ls.map (· ++ ['\n']) := by
  rw [second, Text.pieces_append h.lines.isLine, h.below, Text.pieces_flatten h.isLine_below]

/-- The second program has the line feeds of the first, and those below. -/
theorem lineFeeds_second : Text.lineFeeds (m.second xs) = Text.lineFeeds source + ls.length := by
  rw [second, Text.lineFeeds_append, h.lineFeeds_below, Text.lineFeeds_flatten h.lines.isLine,
    h.lines.length_eq, h.closed.lineFeeds_eq]

/-- With nothing below, both programs have as many lines. -/
theorem lineCount_second (empty : ls = []) :
    Text.lineCount (m.second xs) = Text.lineCount source := by
  unfold Text.lineCount
  rw [h.isLine_pieces, empty, List.map_nil, List.append_nil, h.lines.length_eq]

/-- Both walks start at the same text. -/
theorem along : Along m (.ofSource source) (.ofSource (m.second xs)) := by
  have along := h.lines.along
  rwa [Text.flatten_pieces] at along

/-- The walks over both programs, up to the end of the first. -/
theorem exists_walks :
    ∃ f g s t last, Finds (.ofSource source) f s ∧ Finds (.ofSource (m.second xs)) g t ∧
    Woven m f g ∧ s.step = .stop last .complete ∧ t.suspended = [] ∧ t.cursor.line = s.cursor.line ∧
      (s.cursor.rest = [] ∧ t.cursor.rest = m.below ∧ t.heredocs = [] ∨ s.atEndMark ∧
        t.atEndMark) := by
  obtain ⟨s, last, reach, stop⟩ := reaches_stop (.ofSource source)
  rw [h.whole.complete] at stop
  obtain ⟨f, g, t, first, second, along, woven⟩ :=
    exists_woven h.whole h.fits h.whitened h.along h.firm reach
  exact ⟨f, g, s, t, last, first, second, woven, stop, end_of_along h.fits reach along stop⟩

/-- The walk over the second program finds what that over the first finds, and comments besides. -/
theorem exists_sides : ∃ f g ts, Sides m source xs ls f g ts := by
  obtain ⟨f, g, s, t, last, first, second, woven, stop, outside, line, ends⟩ := h.exists_walks
  obtain ⟨only, -⟩ := stop_cases stop
  have left : (tokenize source).tokens = tokensOf f ++ [s.cut .eof [] s.cursor] := by
    rw [Tokenization.tokens_eq, tokenize, first.run_eq, tokensOf_append, run_of_stop stop]
    exact congrArg _ only
  have right : (tokenize (m.second xs)).tokens = tokensOf g ++ t.run.tokens := by
    rw [Tokenization.tokens_eq, tokenize, second.run_eq, tokensOf_append, Tokenization.tokens_eq]
  have within : ∀ k ∈ tokensOf f, k.kind ≠ .eof ∧ k.line < m.last := fun k hk =>
    ⟨kind_ne_eof_of_finds (placed_ofSource source) first k hk,
      h.last_eq ▸ line_lt_of_finds h.whole first k hk⟩
  have ending : (tokenize (m.second xs)).ending = t.run.ending := by rw [tokenize, second.run_eq]
  -- the walk ends behind the last line, or at an end mark that hides what is below
  rcases ends with ⟨none, rest, heredocs⟩ | ⟨mark, mark'⟩
  · have here := h.whole.line_eq first.reaches
    rw [none] at here
    have place : t.cursor.line = m.last := by
      rw [line, h.last_eq]
      exact here
    rw [h.below] at rest
    obtain ⟨complete, ts, eof, tokens, kind, notes⟩ :=
      run_of_codeless h.codeless rest outside heredocs
    rw [place] at notes
    have unmarked : ¬ Marked source := by
      rintro ⟨r, reach, marked⟩
      have head := head?_of_atEndMark marked
      rw [eq_of_stops first.reaches reach stop marked, none] at head
      cases head
    exact ⟨f, g, ts, ⟨_, left, rfl⟩, ⟨eof, right.trans (by rw [tokens]), kind⟩, within, woven,
      ending.trans complete, .inl ⟨unmarked, notes⟩⟩
  · obtain ⟨found, stop'⟩ := step_of_atEndMark mark' outside
    obtain ⟨only', -⟩ := stop_cases stop'
    refine ⟨f, g, [], ⟨_, left, rfl⟩, ⟨t.cut .eof [] t.cursor, ?_, rfl⟩, within, woven, ?_,
      .inr ⟨⟨s, first.reaches, mark⟩, rfl⟩⟩
    · rw [right, tokens_run_of_stop stop', only']
      rfl
    · rw [ending, run_of_stop stop']

variable {f g : List Finding} {ts : List Token} (sides : Sides m source xs ls f g ts)

include sides

/-- The tokens that both walks find are the same to the scanner. -/
theorem alike : Commented Token.Alike (tokensOf f) (tokensOf g) := by
  obtain ⟨_, left, -⟩ := sides.left
  obtain ⟨_, right, -⟩ := sides.right
  refine (commented_of_woven sides.woven).imp_of_mem fun k hk l hl beside => ?_
  have hk : k ∈ (tokenize source).tokens := left ▸ List.mem_append_left _ hk
  have hl : l ∈ (tokenize (m.second xs)).tokens := right ▸ List.mem_append_left _ hl
  have same := beside
  obtain ⟨n, p, q, -, twin⟩ := same
  refine ⟨twin.kind, twin.text, fun brace => ?_, fun newline => ?_⟩
  · exact bodyBelow_of_beside h.whole h.last_eq h.below_cases h.firm hk brace beside
  · exact leadingDot_of_beside h.closed h.lines h.closed_below h.below_cases h.quiet
      (pieces_after_of_newline hk newline)
      (pieces_after_of_newline hl (twin.kind.trans newline)) beside

omit sides in
/-- A program that differs from an accepted one in harmless margins is accepted. -/
theorem exists_scan {r : Scan} (accepted : scan source = .ok (.ok r)) :
    ∃ r', scan (m.second xs) = .ok (.ok r') := by
  obtain ⟨f, g, ts, sides⟩ := h.exists_sides
  obtain ⟨eof, left, kind⟩ := sides.left
  obtain ⟨eof', right, kind'⟩ := sides.right
  obtain ⟨a, fed, -, -⟩ := Scan.eq_of_scan accepted
  rw [left] at fed
  obtain ⟨b, before, finished⟩ := Scanner.foldlM_concat fed
  obtain ⟨b', before', same⟩ := Scanner.exists_feed_of_commented Scanner.alike_start (h.alike sides)
    (fun k hk => (sides.within k hk).1) before
  have ended : b.finish eof = .ok a := by
    unfold Scanner.feed at finished
    rw [kind] at finished
    exact finished
  have kinds : ∀ t ∈ ts, t.kind = .comment ∨ t.kind = .newline := by
    rcases sides.below with ⟨-, notes⟩ | ⟨-, none⟩
    · exact notes.kinds
    · rw [none]
      exact nofun
  obtain ⟨d, last⟩ := Scanner.exists_feed_of_idle (same.idle ended) kinds kind'
  have fed' : (tokenize (m.second xs)).tokens.foldlM Scanner.feed {} = .ok d := by
    rw [right, List.foldlM_append, before']
    exact last
  refine ⟨⟨d.statements, .ofTokens (m.second xs) (tokenize (m.second xs)) d.comments⟩, ?_⟩
  unfold scan Scan.ofTokens
  rw [fed', sides.complete]

/-! ### Comments -/

omit sides in
/-- All comments of the first program stand on the lines that they are numbered with. -/
theorem stands_source {k : Token} (hk : k ∈ (tokenize source).tokens)
    (comment : k.kind = .comment) :
    k.line + Text.lineFeeds k.after = 1 + Text.lineFeeds source := by
  obtain ⟨t, reach, rest, line, -, noLineFeed⟩ := exists_reaches_of_comment hk comment
  have here := h.whole.line_eq reach
  rw [rest, Text.lineFeeds_append, Text.lineFeeds_eq_zero noLineFeed, Nat.zero_add, line] at here
  exact here

omit sides in
/-- No comment of the first program is numbered with a line below its last. -/
theorem line_lt_of_comment {k : Token} (hk : k ∈ (tokenize source).tokens)
    (comment : k.kind = .comment) :
    k.line < m.last := by
  obtain ⟨f, g, ts, sides⟩ := h.exists_sides
  obtain ⟨eof, left, kind⟩ := sides.left
  rw [left, List.mem_append, List.mem_singleton] at hk
  rcases hk with hk | rfl
  · exact (sides.within k hk).2
  · rw [kind] at comment
    cases comment

omit sides in
/-- All comments of the second program stand on the lines that they are numbered with. -/
theorem stands {k : Token} (hk : k ∈ (tokenize (m.second xs)).tokens)
    (comment : k.kind = .comment) :
    k.line + Text.lineFeeds k.after = 1 + Text.lineFeeds (m.second xs) := by
  obtain ⟨f, g, ts, sides⟩ := h.exists_sides
  obtain ⟨_, left, -⟩ := sides.left
  obtain ⟨eof, right, kind⟩ := sides.right
  have total : m.last + ls.length = 1 + Text.lineFeeds (m.second xs) := by
    rw [h.last_eq, h.lineFeeds_second, Nat.add_assoc]
  rw [right, List.mem_append, List.mem_append, List.mem_singleton] at hk
  rcases hk with hk | hk | rfl
  · rcases beside_of_woven sides.woven hk with ⟨c, hc, n, p, q, split, twin⟩ | sum
    · have first := h.stands_source (left ▸ List.mem_append_left _ hc)
        (twin.kind.symm.trans comment)
      obtain ⟨y, hp, hq⟩ := twin.after
      have more := split.lineFeeds_eq
      rw [h.lineFeeds_below] at more
      rw [hp, Text.lineFeeds_append] at first
      rw [hq, Text.lineFeeds_append, twin.line, ← total, h.last_eq]
      omega
    · rw [sum, h.lineFeeds_below, total]
  · rcases sides.below with ⟨-, notes⟩ | ⟨-, none⟩
    · rw [notes.stands k hk comment, total]
    · rw [none] at hk
      cases hk
  · rw [kind] at comment
    cases comment

omit h in
/-- Below the last line are the comments of the lines there, unless an end mark hides them. -/
theorem hasComment_below (n : Nat) (x : Text) : HasComment ts n x ↔
    ¬ Marked source ∧ ∃ i, n = m.last + i ∧ ls[i]? = some x ∧ x ≠ [] := by
  rcases sides.below with ⟨unmarked, notes⟩ | ⟨marked, none⟩
  · rw [notes.comments, and_iff_right unmarked]
  · rw [none]
    exact iff_of_false (fun ⟨_, hk, _⟩ => nomatch hk) fun ⟨unmarked, _⟩ => unmarked marked

/-- The lines for which a comment is given have their ends among the tokens. -/
theorem newline_iff {n : Nat} {x : Text} (comment : m.comment n = some x) :
    (∃ k ∈ tokensOf f, k.kind = .newline ∧ k.line = n) ↔ 1 ≤ n ∧ n < m.last := by
  obtain ⟨eof, left, kind⟩ := sides.left
  constructor
  · rintro ⟨k, hk, -, rfl⟩
    have shows := shows_of_mem_tokensOf (shows_run (placed_ofSource source)).1 k
      (Tokenization.tokens_eq _ ▸ left ▸ List.mem_append_left _ hk)
    exact ⟨shows.line, (sides.within k hk).2⟩
  · rintro ⟨first, last⟩
    have count : (Tokenizer.ofSource source).endLine ≤
        (Tokenizer.ofSource source).lineCount + 1 := by
      show 1 + Text.lineFeeds source ≤ Text.lineCount source + 1
      rw [h.closed.lineFeeds_eq, Nat.add_comm]
      exact Nat.le_refl _
    have within : n < (Tokenizer.ofSource source).endLine := Nat.lt_of_lt_of_eq last h.last_eq
    obtain ⟨k, hk, newline, line⟩ := h.whole.exists_newline count .here first within
      (h.fits.uncovered n (m.differs_of_comment n x comment))
    change k ∈ (tokenize source).tokens at hk
    rw [left, List.mem_append, List.mem_singleton] at hk
    refine ⟨k, hk.resolve_right ?_, newline, line⟩
    rintro rfl
    rw [newline] at kind
    cases kind

omit sides in
/-- The comments of the second program are those of the first, those before the ends of lines, and
those below unless the end mark hides them. -/
theorem hasComment_iff (n : Nat) (x : Text) : HasComment (tokenize (m.second xs)).tokens n x ↔
    HasComment (tokenize source).tokens n x ∨ (1 ≤ n ∧ n < m.last) ∧ m.comment n = some x ∨
      ¬ Marked source ∧ ∃ i, n = m.last + i ∧ ls[i]? = some x ∧ x ≠ [] := by
  obtain ⟨f, g, ts, sides⟩ := h.exists_sides
  obtain ⟨_, left, kind⟩ := sides.left
  obtain ⟨_, right, kind'⟩ := sides.right
  have none {ks : List Token} {k : Token} (hk : k.kind = .eof) :
      HasComment (ks ++ [k]) n x ↔ HasComment ks n x := by
    rw [hasComment_append,
      or_iff_left (not_hasComment_of_kind (List.forall_mem_singleton.2 (by rw [hk]; nofun)))]
  rw [right, hasComment_append, none kind', hasComment_below sides, left, none kind, ← or_assoc,
    hasComment_of_woven sides.woven, and_congr_left fun comment => h.newline_iff sides comment]

/-! ### Lines that end in code -/

omit sides in
/-- Where no comments are added, the second walk covers the lines that the first covers. -/
theorem covers_iff (bare : ∀ n, m.comment n = none) (empty : ls = []) (n : Nat) :
    Covers (tokenize (m.second xs)).found n ↔ Covers (tokenize source).found n := by
  obtain ⟨f, g, s, t, last, first, second, woven, stop, outside, line, ends⟩ := h.exists_walks
  have here : (tokenize source).found = f ++ last := by
    rw [tokenize, first.run_eq, run_of_stop stop]
  have there : (tokenize (m.second xs)).found = g ++ t.run.found := by rw [tokenize, second.run_eq]
  have count : t.lineCount = s.lineCount := by
    rw [lineCount_of_reaches second.reaches, lineCount_of_reaches first.reaches]
    exact h.lineCount_second empty
  have tail : t.run.found.map Finding.lines? = last.map Finding.lines? := by
    have ended (before : List Finding) (r : Tokenizer) :
        (before ++ [Finding.token (r.cut .eof [] r.cursor)]).map Finding.lines? =
          before.map Finding.lines? ++ [none] := List.map_append
    rcases ends with ⟨rest, rest', heredocs⟩ | ⟨mark, mark'⟩
    · -- both programs end here
      rw [h.below, empty] at rest'
      rw [step_of_end rest (heredocs_of_end rest stop)] at stop
      rw [run_of_stop ((step_of_end rest' heredocs).trans (finish_of_outside outside)),
        (finish_eq_complete stop).2, ended, ended]
    · -- the end mark seals the same lines of both
      rw [step_eq_finish_of_atEndMark mark] at stop
      rw [run_of_stop ((step_eq_finish_of_atEndMark mark').trans (finish_of_outside outside)),
        (finish_eq_complete stop).2, ended, ended, count, line]
  rw [here, there]
  refine covers_congr ?_
  rw [List.map_append, List.map_append, tail, lines_of_woven bare woven]

omit sides in
/-- Where no comments are added, the lines that may be annotated are those of the first program. -/
theorem open_iff (bare : ∀ n, m.comment n = none) (empty : ls = []) {r r' : Scan}
    (accepted : scan source = .ok (.ok r)) (accepted' : scan (m.second xs) = .ok (.ok r'))
    (n : Nat) :
    (r'.layout.endsInCode n ↔ r.layout.endsInCode n) ∧
      (r'.layout.commentOn n = none ↔ r.layout.commentOn n = none) := by
  constructor
  · obtain ⟨a, -, -, rfl⟩ := Scan.eq_of_scan accepted
    obtain ⟨a', -, -, rfl⟩ := Scan.eq_of_scan accepted'
    rw [endsInCode_iff, endsInCode_iff, h.covers_iff bare empty, h.lineCount_second empty]
  · rw [commentOn_eq_none_iff accepted', commentOn_eq_none_iff accepted]
    refine forall_congr' fun x => not_congr ((h.hasComment_iff n x).trans ?_)
    simp [bare, empty]

end Walks

end Harmless

end Margins

end Marginalia.Source
