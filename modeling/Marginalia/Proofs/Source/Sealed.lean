import Marginalia.Proofs.Source.Extent
import Marginalia.Proofs.Source.Heredocs
import Marginalia.Proofs.Source.Walk
import Marginalia.Source.Layout

/-!
# Lines that do not end in code

Which lines a step of the tokenizer leaves behind, and how. Of a complete walk every line is shown
not to end in code by one of the findings, unless the line feed at its end is a token of the program
(`covers_of_crossed`). The lines of a literal with interpolations are shown only when the literal
ends, and so the proof looks ahead to its end (`covers_of_suspended`).
-/

namespace Marginalia.Source

/-! ## Lines of cursors -/

namespace Cursor

/-- Moving over line feeds counts them. -/
theorem line_advance (n : Nat) (c : Cursor) :
    (c.advance n).line + Text.lineFeeds (c.advance n).rest = c.line + Text.lineFeeds c.rest := by
  induction n generalizing c with
  | zero => rfl
  | succ n ih =>
    unfold advance
    split
    · rfl
    · next x r hr =>
      rw [ih, hr]
      show (if x == '\n' then c.line + 1 else c.line) + r.count '\n' = c.line + (x :: r).count '\n'
      rw [List.count_cons]
      split <;> omega

/-- The end of a text has no more line feeds than the whole. -/
theorem lineFeeds_drop_le (n : Nat) (t : Text) : Text.lineFeeds (t.drop n) ≤ Text.lineFeeds t :=
  (List.drop_sublist n t).count_le '\n'

/-- A cursor is advanced to no line before its own. -/
theorem line_le_advance (n : Nat) (c : Cursor) : c.line ≤ (c.advance n).line := by
  have sum := line_advance n c
  have le := lineFeeds_drop_le n c.rest
  rw [← rest_advance] at le
  omega

/-- A cursor that passes no line feed stays on its line. -/
theorem line_advance_of_notMem {n : Nat} {c : Cursor} (h : '\n' ∉ c.rest.take n) :
    (c.advance n).line = c.line := by
  have sum := line_advance n c
  have split : Text.lineFeeds c.rest = Text.lineFeeds (c.rest.take n) + Text.lineFeeds
      (c.rest.drop n) := by
    unfold Text.lineFeeds
    rw [← List.count_append, List.take_append_drop]
  have none : Text.lineFeeds (c.rest.take n) = 0 := List.count_eq_zero.2 h
  rw [rest_advance] at sum
  omega

end Cursor

/-! ## Covered lines -/

/-- The lines that a finding shows not to end in code. -/
def Finding.lines? : Finding → Option LineRange
  | .token t => literalLines t
  | .sealed lines => some lines
  | .heredocOpened _ => none
  | .heredocRead _ lines => some lines

/-- Some finding shows that a line does not end in code. -/
def Covers (found : List Finding) (line : Nat) : Prop :=
  ∃ f ∈ found, ∃ r, f.lines? = some r ∧ r.contains line

/-- What is covered stays so with more findings. -/
theorem Covers.left {found : List Finding} {line : Nat} (h : Covers found line)
    (more : List Finding) : Covers (found ++ more) line := by
  obtain ⟨f, hf, h⟩ := h
  exact ⟨f, List.mem_append_left more hf, h⟩

/-- What is covered stays so with findings before. -/
theorem Covers.right {found : List Finding} {line : Nat} (h : Covers found line)
    (before : List Finding) : Covers (before ++ found) line := by
  obtain ⟨f, hf, h⟩ := h
  exact ⟨f, List.mem_append_right before hf, h⟩

theorem Covers.tail {found : List Finding} {line : Nat} (h : Covers found line) (f : Finding) :
    Covers (f :: found) line := h.right [f]

/-- The lines of a range are those from the first to the last. -/
theorem LineRange.contains_iff {r : LineRange} {line : Nat} :
    r.contains line ↔ r.first ≤ line ∧ line ≤ r.last := by
  unfold LineRange.contains
  rw [Bool.and_eq_true, decide_eq_true_iff, decide_eq_true_iff]

/-- Sealed lines are covered. -/
theorem covers_sealed {lines : LineRange} {found : List Finding} {line : Nat}
    (h : lines.first ≤ line ∧ line ≤ lines.last) : Covers (.sealed lines :: found) line :=
  ⟨_, List.mem_cons_self, lines, rfl, LineRange.contains_iff.2 h⟩

/-- The lines of a literal are covered, all but its last. -/
theorem covers_literal {t : Token} {line : Nat} (literal : t.kind = .literal)
    (h : t.line ≤ line ∧ line < t.endLine) : Covers [.token t] line := by
  refine ⟨_, List.mem_singleton_self _, ⟨t.line, t.endLine - 1⟩, ?_,
    LineRange.contains_iff.2 ⟨h.1, by show line ≤ t.endLine - 1; omega⟩⟩
  show literalLines t = _
  unfold literalLines
  rw [literal, if_pos]
  rw [Bool.and_eq_true, decide_eq_true_iff]
  exact ⟨rfl, by omega⟩

/-- The layout seals the lines that are covered. -/
theorem covers_iff_contains {source : Text} {t : Tokenization} {comments : List Comment}
    {line : Nat} :
    Covers t.found line ↔ ∃ r ∈ (Layout.ofTokens source t comments).sealedLines,
      r.contains line := by
  -- lines are sealed by literals among the tokens, and by what is found besides
  have mem : ∀ r, r ∈ (Layout.ofTokens source t comments).sealedLines ↔
      ∃ f ∈ t.found, f.lines? = some r := by
    intro r
    refine List.mem_append.trans ⟨?_, fun ⟨f, hf, hr⟩ => ?_⟩
    · rintro (hr | hr)
      · obtain ⟨k, hk, hlines⟩ := List.mem_filterMap.1 hr
        exact ⟨_, mem_tokensOf.1 hk, hlines⟩
      · obtain ⟨f, hf, hlines⟩ := List.mem_filterMap.1 hr
        refine ⟨f, hf, ?_⟩
        cases f with
        | token => cases hlines
        | sealed | heredocOpened | heredocRead => exact hlines
    · cases f with
      | token k => exact .inl (List.mem_filterMap.2 ⟨k, mem_tokensOf.2 hf, hr⟩)
      | sealed => exact .inr (List.mem_filterMap.2 ⟨_, hf, hr⟩)
      | heredocOpened => cases hr
      | heredocRead => exact .inr (List.mem_filterMap.2 ⟨_, hf, hr⟩)
  constructor
  · rintro ⟨f, hf, r, hr, contains⟩
    exact ⟨r, (mem r).2 ⟨f, hf, hr⟩, contains⟩
  · rintro ⟨r, hr, contains⟩
    obtain ⟨f, hf, hr⟩ := (mem r).1 hr
    exact ⟨f, hf, r, hr, contains⟩

/-- A line of the program ends in code if it is not covered. -/
theorem endsInCode_iff {source : Text} {t : Tokenization} {comments : List Comment} {line : Nat} :
    (Layout.ofTokens source t comments).endsInCode line ↔
      (1 ≤ line ∧ line ≤ max 1 (Text.lineCount source)) ∧ ¬ Covers t.found line := by
  unfold Layout.endsInCode
  rw [Bool.and_eq_true, Bool.and_eq_true, decide_eq_true_iff, decide_eq_true_iff,
    covers_iff_contains, List.all_eq_true, not_exists]
  refine and_congr_right fun _ => forall_congr' fun r => ?_
  rw [Bool.not_eq_true', Bool.eq_false_iff, not_and]

/-- A line that ends in code is not covered. -/
theorem not_covers_of_endsInCode {source : Text} {t : Tokenization} {comments : List Comment}
    {line : Nat} (h : (Layout.ofTokens source t comments).endsInCode line) :
    ¬ Covers t.found line :=
  (endsInCode_iff.1 h).2

namespace Tokenizer

/-! ## One step -/

/-- The line where the reading of a token began that is read inside some literals: the line of the
outermost of them, or `line` if there is none. -/
def lineOf (suspended : List OpenLiteral) (line : Nat) : Nat :=
  match suspended.getLast? with
  | some l => l.line
  | none => line

@[simp] theorem lineOf_nil (line : Nat) : lineOf [] line = line := rfl

theorem lineOf_cons (l : OpenLiteral) (outer : List OpenLiteral) (line : Nat) :
    lineOf (l :: outer) line = lineOf outer l.line := by
  unfold lineOf
  cases outer with
  | nil => rfl
  | cons m ms =>
    rw [List.getLast?_cons_cons, List.getLast?_eq_some_getLast (List.cons_ne_nil m ms)]

/-- The line where the reading of the next token of the program itself begins. -/
def firstLine (s : Tokenizer) : Nat := lineOf s.suspended s.cursor.line

/-- What reading from a cursor does with lines, where the token of the program that is read begins
in line `first`: once that token is found, all lines from `due` on are covered that were left
behind. -/
inductive Crosses (first due : Nat) (c : Cursor) : Step → Prop where
  | outside {found : List Finding} {s : Tokenizer} (outside : s.suspended = [])
      (forward : c.line ≤ s.cursor.line)
      (covered : ∀ line, due ≤ line → line < s.cursor.line → Covers found line)
      (begins : ∀ k ∈ tokensOf found, k.line = first) : Crosses first due c (.next found s)
  | inside {found : List Finding} {s : Tokenizer} (suspended : s.suspended ≠ [])
      (forward : c.line ≤ s.cursor.line) (none : tokensOf found = [])
      (begins : s.firstLine = first) :
      Crosses first due c (.next found s)
  | stopped {found : List Finding} {ending : Ending} (none : tokensOf found = [])
      (incomplete : ending ≠ .complete) : Crosses first due c (.stop found ending)

theorem Crosses.mono {first due : Nat} {c d : Cursor} {s : Step} (hcd : c.line ≤ d.line)
    (h : Crosses first due d s) : Crosses first due c s := by
  cases h with
  | outside outside forward covered begins =>
    exact .outside outside (Nat.le_trans hcd forward) covered begins
  | inside suspended forward none begins =>
    exact .inside suspended (Nat.le_trans hcd forward) none begins
  | stopped none incomplete => exact .stopped none incomplete

/-- What is found before covers more lines. -/
theorem Crosses.prepend {first due : Nat} {c : Cursor} {s : Step} {found : List Finding}
    (stop : Nat) (hfound : tokensOf found = [])
    (covered : ∀ line, due ≤ line → line < stop → Covers found line)
    (h : Crosses first (max due stop) c s) : Crosses first due c (s.prepend found) := by
  cases h with
  | outside outside forward behind begins =>
    refine .outside outside forward (fun line h1 h2 => ?_) (fun k hk => begins k ?_)
    · by_cases h3 : line < stop
      · exact (covered line h1 h3).left _
      · exact (behind line (by omega) h2).right _
    · rwa [tokensOf_append, hfound] at hk
  | inside suspended forward none begins =>
    exact .inside suspended forward (by rw [tokensOf_append, hfound, none]; rfl) begins
  | stopped none incomplete =>
    exact .stopped (by rw [tokensOf_append, hfound, none]; rfl) incomplete

theorem crosses_record {s : Tokenizer} {t : Token} {first due : Nat}
    (begins : lineOf s.suspended t.line = first) (ends : t.endLine = s.cursor.line)
    (spans : t.kind = .literal ∧ first ≤ due ∨ (s.suspended = [] → s.cursor.line ≤ due)) :
    Crosses first due s.cursor (s.record t) := by
  unfold record
  by_cases hs : s.suspended = []
  -- a token of the program itself: a literal covers its lines, and others leave none behind
  · rw [hs] at begins ⊢
    rw [lineOf_nil] at begins
    refine .outside rfl (Nat.le_refl _) (fun line h1 h2 => ?_) (fun k hk => ?_)
    · rcases spans with ⟨literal, hdue⟩ | hle
      · exact covers_literal literal ⟨by omega, by rw [ends]; exact h2⟩
      · have := hle hs
        exact absurd (show line < s.cursor.line from h2) (by omega)
    · rw [List.mem_singleton.1 hk]
      exact begins
  · obtain ⟨l, outer, hl⟩ := List.exists_cons_of_ne_nil hs
    rw [hl] at begins ⊢
    refine .inside (List.cons_ne_nil l outer) (Nat.le_refl _) rfl ?_
    rw [lineOf_cons] at begins
    exact (lineOf_cons l outer _).trans begins

theorem ReadsOn.crosses {s : Tokenizer} {l : OpenLiteral} {first due : Nat} {step : Step}
    (h : s.ReadsOn l step) (begins : lineOf s.suspended l.line = first) (hdue : first ≤ due) :
    Crosses first due s.cursor step := by
  cases h with
  | closed n =>
    exact Crosses.mono (Cursor.line_le_advance n s.cursor)
      (crosses_record (s := { s with cursor := _ }) begins rfl (.inl ⟨rfl, hdue⟩))
  | interpolation =>
    refine .inside (List.cons_ne_nil _ _) (Cursor.line_le_advance _ _) rfl ?_
    exact (lineOf_cons _ _ _).trans begins
  | unterminated | split => exact .stopped rfl (by nofun)

theorem Settles.crosses {s : Tokenizer} {t : Token} {first due : Nat} {step : Step}
    (h : s.Settles t step) (begins : lineOf s.suspended t.line = first)
    (ends : t.endLine = s.cursor.line) (hdue : first ≤ due)
    (spans : t.kind = .literal ∨ (s.suspended = [] → s.cursor.line ≤ due)) :
    Crosses first due s.cursor step := by
  cases h with
  | record => exact crosses_record begins ends (spans.imp_left fun h => ⟨h, hdue⟩)
  | count l outer hs braces =>
    rw [hs, lineOf_cons] at begins
    exact crosses_record (s := { s with suspended := { l with braces } :: outer })
      ((lineOf_cons _ _ _).trans begins) ends (.inr fun h => absurd h (List.cons_ne_nil _ _))
  | close l outer hs =>
    rw [hs, lineOf_cons] at begins
    exact (readsOn { s with suspended := outer, heredocs := _, memory := _ } l).crosses begins hdue

/-- The place behind a token is on no line before the cursor's. -/
theorem line_le_behind (s : Tokenizer) (kind : TokenKind) (more : Nat) :
    s.cursor.line ≤ (s.behind kind more).line := by
  unfold behind
  dsimp only
  split
  · exact Nat.le_refl _
  · exact Cursor.line_le_advance _ _

/-- A token that is taken crosses lines only as a literal. -/
theorem crosses_take {s : Tokenizer} (kind : TokenKind) (more : Nat)
    (spans : kind = .literal ∨ (s.behind kind more).line = s.cursor.line) :
    Crosses s.firstLine s.firstLine s.cursor (s.take kind more) := by
  refine Crosses.mono (line_le_behind s kind more)
    ((settles { s with cursor := s.behind kind more } _).crosses rfl rfl (Nat.le_refl _)
      (spans.imp_right fun h hs => ?_))
  dsimp only at hs ⊢
  rw [h, firstLine, hs]
  exact Nat.le_refl _

/-- The bodies of here-documents are covered without a gap. -/
theorem covers_readBodies {hs : List Heredoc} {line : Nat} {t : Text} {found : List Finding}
    {length lines : Nat} (h : readBodies hs line t = (found, .ok (length, lines))) :
    ∀ m, line ≤ m → m < line + lines → Covers found m := by
  induction hs generalizing line t found length lines with
  | nil =>
    cases h
    intro m h1 h2
    omega
  | cons d ds ih =>
    obtain ⟨n, k, bodies, a, b, -, hrest, rfl, rfl, rfl⟩ := readBodies_cons_eq_ok.1 h
    intro m h1 h2
    -- the line is in the first body or in one of the others
    by_cases hm : m < line + k
    · refine ⟨_, List.mem_cons_self, _, rfl, LineRange.contains_iff.2 ⟨h1, ?_⟩⟩
      show m ≤ line + k - 1
      omega
    · exact (ih hrest m (by omega) (by omega)).tail _

theorem Breaks.crosses {s : Tokenizer} {step : Step} {r : Text} {due : Nat} (h : s.Breaks step)
    (hr : s.cursor.rest = '\n' :: r) (hdue : s.suspended = [] → due = s.cursor.line + 1) :
    Crosses s.firstLine due s.cursor step := by
  have below : (s.cursor.advance 1).line = s.cursor.line + 1 := by
    have sum := Cursor.line_advance 1 s.cursor
    have count : Text.lineFeeds ('\n' :: r) = Text.lineFeeds r + 1 := List.count_cons_self
    rw [Cursor.rest_advance, hr, List.drop_one, List.tail_cons, count] at sum
    omega
  cases h with
  | unterminated _ _ read => exact .stopped (tokensOf_bodies read) (by nofun)
  | below _ length lines behind read place =>
    have none := tokensOf_bodies read
    have covered := covers_readBodies read
    have line : behind.line = s.cursor.line + 1 + lines := by rw [place, ← below]
    have noted {due : Nat} (spans : s.suspended = [] → behind.line ≤ due) :
      Crosses s.firstLine due s.cursor
        ({ s with cursor := behind, heredocs := [] }.record (s.cut .newline ['\n'] behind)) :=
      Crosses.mono (show s.cursor.line ≤ behind.line by omega)
        (crosses_record (s := { s with cursor := behind, heredocs := [] }) rfl rfl (.inr spans))
    by_cases hs : s.suspended = []
    · refine Crosses.prepend (s.cursor.line + 1 + lines) none (fun line h1 h2 => ?_)
        (noted fun _ => by omega)
      rw [hdue hs] at h1
      exact covered line (by omega) (by omega)
    · exact Crosses.prepend 0 none (fun line h1 h2 => by omega) (noted fun h => absurd h hs)

/-- A text is a line, or the rest of one, and what follows its end. -/
theorem exists_line (r : Text) :
    ∃ x s : Text, r = x ++ s ∧ '\n' ∉ x ∧ (s = [] ∨ ∃ a, s = '\n' :: a) := by
  induction r with
  | nil => exact ⟨[], [], rfl, List.not_mem_nil, .inl rfl⟩
  | cons c r ih =>
    by_cases hc : c = '\n'
    · exact ⟨[], c :: r, rfl, List.not_mem_nil, .inr ⟨r, by rw [hc]⟩⟩
    · obtain ⟨x, s, rfl, hx, hs⟩ := ih
      refine ⟨c :: x, s, rfl, ?_, hs⟩
      rw [List.mem_cons, not_or]
      exact ⟨Ne.symm hc, hx⟩

theorem lineFeed_notMem_take {c : Char} {x : Text} {n : Nat} (hc : c ≠ '\n') (hx : '\n' ∉ x)
    (hn : n ≤ x.length) (s : Text) : '\n' ∉ (c :: (x ++ s)).take (n + 1) := by
  rw [List.take_succ_cons, List.take_append_of_le_length hn, List.mem_cons, not_or]
  exact ⟨Ne.symm hc, fun h => hx (List.mem_of_mem_take h)⟩

/-- A token without a line feed ends on the line that it starts on. -/
theorem line_behind {s : Tokenizer} {kind : TokenKind} {more : Nat}
    (h : '\n' ∉ s.cursor.rest.take (more + 1)) : (s.behind kind more).line = s.cursor.line := by
  unfold behind
  dsimp only
  split
  · rfl
  · exact Cursor.line_advance_of_notMem h

/-- A token that is no literal ends on its line, or what it takes of the next is not counted. -/
theorem line_behind_of_read {s : Tokenizer} {c : Char} {r : Text} {kind : TokenKind} {more : Nat}
    (hr : s.cursor.rest = c :: r) (h : Lexeme.read s.memory s.spaced c r = .token kind more) :
    kind = .literal ∨ (s.behind kind more).line = s.cursor.line := by
  by_cases literal : kind = .literal
  · exact .inl literal
  refine .inr ?_
  by_cases var : kind = .var
  · rw [var]
    rfl
  have hc : c ≠ '\n' := by
    rintro rfl
    rw [Lexeme.read_lineFeed] at h
    cases h
  obtain ⟨x, t, rfl, hx, ht⟩ := exists_line r
  apply line_behind
  rw [hr]
  exact lineFeed_notMem_take hc hx (Lexeme.read_within ht h literal var) t

theorem lineFeed_notMem_of_methodName? {c : Char} {r : Text} {kind : TokenKind} {more : Nat}
    {pending : Bool} (h : Lexeme.methodName? c r = some (kind, more, pending)) :
    '\n' ∉ (c :: r).take (more + 1) := by
  have hc : c ≠ '\n' := by
    rintro rfl
    rw [Lexeme.methodName?_lineFeed] at h
    cases h
  obtain ⟨x, t, rfl, hx, ht⟩ := exists_line r
  have stops : Stops t := by
    rcases ht with rfl | ⟨a, rfl⟩
    · exact stops_nil
    · exact stops_cons (by decide) a
  exact lineFeed_notMem_take hc hx (Lexeme.methodName?_within stops h) t

/-- The place is at the end of a line of the program itself. -/
def AtLineEnd (s : Tokenizer) : Prop := s.suspended = [] ∧ s.cursor.rest.head? = some '\n'

instance (s : Tokenizer) : Decidable s.AtLineEnd := inferInstanceAs (Decidable (_ ∧ _))

/-- Before any other character the cursor is not at the end of its line. -/
theorem not_atLineEnd {s : Tokenizer} {c : Char} {r : Text} (hr : s.cursor.rest = c :: r)
    (hc : c ≠ '\n') : ¬ s.AtLineEnd := by
  rintro ⟨-, h⟩
  rw [hr] at h
  exact hc (Option.some.inj h)

/-- The first line that a step has to cover if it leaves it behind. A line feed of the program
itself ends a line of code. -/
def due (s : Tokenizer) : Nat := if s.AtLineEnd then s.cursor.line + 1 else s.firstLine

/-- Whatever a character starts crosses lines only as it should. -/
theorem Takes.crosses {s : Tokenizer} {c : Char} {r : Text} {step : Step} (h : s.Takes c r step)
    (hr : s.cursor.rest = c :: r) : Crosses s.firstLine s.due s.cursor step := by
  have due (hc : c ≠ '\n') : s.due = s.firstLine := if_neg (not_atLineEnd hr hc)
  -- no lexeme but the line feed itself starts with one
  have solid {m : Memory} {spaced : Bool} {x : Lexeme} (read : Lexeme.read m spaced c r = x)
      (hx : x ≠ .newline) : c ≠ '\n' := by
    rintro rfl
    rw [Lexeme.read_lineFeed] at read
    exact hx read.symm
  cases h with
  | name kind more pending _ read =>
    have hc : c ≠ '\n' := by
      rintro rfl
      rw [Lexeme.methodName?_lineFeed] at read
      cases read
    rw [due hc]
    exact crosses_take (s := s.readied s.spaced pending) kind more
      (.inr (line_behind (by rw [readied, hr]; exact lineFeed_notMem_of_methodName? read)))
  | token spaced waits kind more read =>
    rw [due (solid read nofun)]
    exact crosses_take (s := s.readied spaced waits) kind more (line_behind_of_read hr read)
  | newline spaced waits read =>
    have hc : c = '\n' := Classical.byContradiction fun hc => Lexeme.read_ne_newline hc _ _ _ read
    subst hc
    exact (s.readied spaced waits).breaks.crosses hr fun hs => if_pos ⟨hs, by rw [hr]; rfl⟩
  | literal spaced waits more _ _ read =>
    rw [due (solid read nofun)]
    exact Crosses.mono (Cursor.line_le_advance (more + 1) s.cursor)
      ((readsOn { s.readied spaced waits with cursor := _ } _).crosses rfl (Nat.le_refl _))
  | heredoc spaced waits more h _ read =>
    rw [due (solid read nofun)]
    refine Crosses.prepend s.firstLine rfl (fun line h1 h2 => by omega) ?_
    rw [Nat.max_self]
    exact crosses_take (s := { s.readied spaced waits with heredocs := _ }) .literal more (.inl rfl)
  | refuse | split => exact .stopped rfl (by nofun)

/-- What is skipped covers the lines that it crosses. -/
theorem crosses_skip (s : Tokenizer) {n : Nat} {c : Char} {r : Text} {found : List Finding}
    (hr : s.cursor.rest = c :: r) (hc : c ≠ '\n') (none : tokensOf found = [])
    (covered : ∀ line, s.cursor.line ≤ line → line < (s.cursor.advance n).line → Covers found line)
    (spaced : Bool) : Crosses s.firstLine s.due s.cursor
      (.next found { s with cursor := s.cursor.advance n, spaced := spaced }) := by
  by_cases hs : s.suspended = []
  · have hdue : s.due = s.cursor.line := by
      unfold due firstLine
      rw [if_neg (not_atLineEnd hr hc), hs, lineOf_nil]
    rw [hdue]
    exact .outside hs (Cursor.line_le_advance n _) covered (by rw [none]; nofun)
  · obtain ⟨l, outer, hl⟩ := List.exists_cons_of_ne_nil hs
    refine .inside hs (Cursor.line_le_advance n _) none ?_
    unfold firstLine
    rw [hl, lineOf_cons, lineOf_cons]

/-- The program ends with a token that stands where the tokenizer has come to. -/
def Finishes (s : Tokenizer) (step : Step) : Prop :=
  ∃ found t, step = .stop found .complete ∧ tokensOf found = [t] ∧ t.kind = .eof ∧
    t.line = s.cursor.line ∧ s.suspended = []

theorem crosses_finish (s : Tokenizer) {found : List Finding} (hfound : tokensOf found = []) :
    Crosses s.firstLine s.due s.cursor (s.finish found) ∨ s.Finishes (s.finish found) := by
  unfold finish
  split
  · next hs =>
    exact .inr ⟨_, s.cut .eof [] s.cursor, rfl, by rw [tokensOf_append, hfound]; rfl, rfl, rfl, hs⟩
  · exact .inl (.stopped hfound (by nofun))

/-- A cursor moves on by as many lines as it passes line feeds. -/
theorem line_advance_le_of_take {n k : Nat} {c : Cursor} (h : Text.lineFeeds (c.rest.take n) ≤ k) :
    (c.advance n).line ≤ c.line + k := by
  have sum := Cursor.line_advance n c
  have split := Text.lineFeeds_append (c.rest.take n) (c.rest.drop n)
  rw [List.take_append_drop] at split
  rw [Cursor.rest_advance] at sum
  omega

/-- A step leaves lines behind as reading does, or it ends the program. -/
theorem crosses_step (s : Tokenizer) :
    Crosses s.firstLine s.due s.cursor s.step ∨ s.Finishes s.step := by
  have acts := s.acts
  generalize s.step = step at acts ⊢
  cases acts with
  | document length lines begins document =>
    left
    obtain ⟨r, hr, -⟩ := exists_of_wordAhead (Bool.and_eq_true_iff.1 begins).2
    refine crosses_skip s hr (by decide) rfl (fun line h1 h2 => ?_) s.spaced
    have count := (lineFeeds_embeddedDocument? document).1
    have le := line_advance_le_of_take (c := s.cursor) (n := length) (k := lines)
      (Nat.le_of_eq count)
    exact covers_sealed ⟨h1, by show line ≤ s.cursor.line + lines; omega⟩
  | blank c r hr blank =>
    left
    have hc : c ≠ '\n' := by
      rintro rfl
      exact absurd blank Bool.false_ne_true
    refine crosses_skip s hr hc rfl (fun line h1 h2 => ?_) true
    rw [Cursor.line_advance_of_notMem] at h2
    · omega
    · rw [hr]
      show '\n' ∉ [c]
      rw [List.mem_singleton]
      exact Ne.symm hc
  -- the line that is joined to the next is sealed
  | join sep join ahead =>
    left
    obtain ⟨x, hx, feeds⟩ := exists_of_mem_joins join
    obtain ⟨a, ha⟩ := ahead
    have hr : s.cursor.rest = '\\' :: (x ++ a) := by rw [← ha, hx, List.cons_append]
    refine crosses_skip s hr (by decide) rfl (fun line h1 h2 => ?_) true
    have le := line_advance_le_of_take (c := s.cursor) (n := sep.length) (k := 1)
      (by rw [← ha, List.take_left, feeds])
    exact covers_sealed ⟨h1, by show line ≤ s.cursor.line; omega⟩
  | refuse => exact .inl (.stopped rfl (by nofun))
  | ends | mark => exact crosses_finish s rfl
  | reads c r hr takes => exact .inl (takes.crosses hr)

/-! ## Whole walks -/

/-- A step that goes on does not finish the program. -/
theorem not_finishes_next {s t : Tokenizer} {found : List Finding} :
    ¬ s.Finishes (.next found t) := by
  rintro ⟨_, _, h, -⟩
  cases h

/-- A step that goes on covers the lines that it crosses. -/
theorem crosses_next {s t : Tokenizer} {found : List Finding} (h : s.step = .next found t) :
    Crosses s.firstLine s.due s.cursor (.next found t) := by
  rw [← h]
  refine (crosses_step s).resolve_right fun finishes => ?_
  rw [h] at finishes
  exact not_finishes_next finishes

/-- Nothing is left open where a walk ends. -/
theorem not_suspended_of_stop {s : Tokenizer} {found : List Finding}
    (h : s.step = .stop found .complete) : s.suspended = [] := by
  rcases crosses_step s with crosses | ⟨_, _, _, _, _, _, hs⟩
  · rw [h] at crosses
    cases crosses with
    | stopped _ incomplete => exact absurd rfl incomplete
  · exact hs

theorem ending_of_next {s t : Tokenizer} {found : List Finding} (h : s.step = .next found t)
    (complete : s.run.ending = .complete) : t.run.ending = .complete := by
  rw [run_of_next h] at complete
  exact complete

/-- The lines of a literal are covered when it ends, and in a complete walk it does. -/
theorem covers_of_suspended (s : Tokenizer) (hs : s.suspended ≠ [])
    (complete : s.run.ending = .complete) :
    ∀ line, s.firstLine ≤ line → line < s.cursor.line → Covers s.run.found line := by
  induction s using walk_induction with
  | stop s found ending h =>
    rw [run_of_stop h] at complete
    cases complete
    exact absurd (not_suspended_of_stop h) hs
  | next s found t h ih =>
    have hcomplete := ending_of_next h complete
    intro line h1 h2
    rw [run_of_next h]
    have hdue : s.due = s.firstLine := if_neg fun hend => hs hend.1
    -- the literal ends in this step, or the walk goes on inside it
    cases crosses_next h with
    | outside outside forward covered =>
      rw [hdue] at covered
      exact (covered line h1 (by omega)).left _
    | inside suspended forward none begins =>
      exact (ih suspended hcomplete line (by omega) (by omega)).right _

/-- The line on which what is open started is never behind the cursor's. -/
theorem firstLine_le_of_reaches {s t : Tokenizer} (h : Reaches s t)
    (hs : s.firstLine ≤ s.cursor.line) : t.firstLine ≤ t.cursor.line := by
  induction h with
  | here => exact hs
  | @step t u found before hstep ih =>
    cases crosses_next hstep with
    | outside outside =>
      unfold firstLine
      rw [outside]
      exact Nat.le_refl _
    | inside suspended forward none begins =>
      rw [begins]
      exact Nat.le_trans ih forward

theorem ending_of_reaches {s t : Tokenizer} (h : Reaches s t)
    (complete : s.run.ending = .complete) :
    t.run.ending = .complete := by
  obtain ⟨before, hrun⟩ := h.run_eq
  rw [hrun] at complete
  exact complete

/-- Every line that a complete walk leaves behind is covered, unless it ends with a line feed of the
program itself. -/
theorem covers_of_crossed {s t u : Tokenizer} {found : List Finding} (reach : Reaches s t)
    (hs : s.firstLine ≤ s.cursor.line) (complete : s.run.ending = .complete)
    (h : t.step = .next found u) :
    ∀ line, t.cursor.line ≤ line → line < u.cursor.line →
      Covers s.run.found line ∨ t.AtLineEnd ∧ line = t.cursor.line := by
  intro line h1 h2
  have hfirst := firstLine_le_of_reaches reach hs
  have hcomplete := ending_of_next h (ending_of_reaches reach complete)
  obtain ⟨before, hrun⟩ := reach.run_eq
  rw [hrun, run_of_next h]
  cases crosses_next h with
  | outside outside forward covered =>
    by_cases hend : t.AtLineEnd ∧ line = t.cursor.line
    · exact .inr hend
    · refine .inl (((covered line ?_ h2).left _).right _)
      unfold due
      split
      · next atEnd =>
        have hne : line ≠ t.cursor.line := fun heq => hend ⟨atEnd, heq⟩
        omega
      · omega
  | inside suspended forward none begins =>
    have := covers_of_suspended u suspended hcomplete line (by omega) h2
    exact .inl ((this.right _).right _)

/-- A line in which a literal is open at the end is covered. -/
theorem covers_of_open {s t u : Tokenizer} {found : List Finding} (reach : Reaches s t)
    (hs : s.firstLine ≤ s.cursor.line) (complete : s.run.ending = .complete)
    (hopen : t.suspended ≠ []) (h : t.step = .next found u) (hlt : t.cursor.line < u.cursor.line) :
    Covers s.run.found t.cursor.line := by
  rcases covers_of_crossed reach hs complete h _ (Nat.le_refl _) hlt with covers | ⟨hend, -⟩
  · exact covers
  · exact absurd hend.1 hopen

/-- The tokens of a walk stand in the lines from where it starts. -/
theorem firstLine_le_of_token (s : Tokenizer) (hs : s.firstLine ≤ s.cursor.line) :
    ∀ k ∈ s.run.tokens, s.firstLine ≤ k.line := by
  induction s using walk_induction with
  | stop s found ending h =>
    intro k hk
    rw [tokens_run_of_stop h] at hk
    rcases crosses_step s with crosses | ⟨_, t, hstop, only, -, line, -⟩
    · rw [h] at crosses
      cases crosses with
      | stopped none =>
        rw [none] at hk
        cases hk
    · rw [h] at hstop
      cases hstop
      rw [only, List.mem_singleton] at hk
      rw [hk, line]
      exact hs
  | next s found t h ih =>
    intro k hk
    rw [tokens_run_of_next h] at hk
    have ht := firstLine_le_of_reaches (.step .here h) hs
    rcases List.mem_append.1 hk with hk | hk
    · cases crosses_next h with
      | outside outside forward covered begins =>
        exact Nat.le_of_eq (begins k hk).symm
      | inside suspended forward none =>
        rw [none] at hk
        cases hk
    · have later := ih ht k hk
      -- a step inside of literals leaves the line that the token starts on
      cases crosses_next h with
      | outside outside forward =>
        rw [firstLine, outside, lineOf_nil] at later
        exact Nat.le_trans hs (Nat.le_trans forward later)
      | inside suspended forward none begins =>
        rw [← begins]
        exact later

/-! ## Counting lines -/

variable {finished : Prop}

/-- The line of a place and the line feeds that are still to come. -/
def lineSum (s : Tokenizer) : Nat := s.cursor.line + Text.lineFeeds s.cursor.rest

/-- A step goes on to a place with a given sum of lines. At the end of a program this is asked for
only if all lines of the program are finished. -/
def Keeps (finished : Prop) (total : Nat) : Step → Prop
  | .next _ s => finished ∨ s.cursor.rest ≠ [] → s.lineSum = total
  | .stop _ _ => True

theorem keeps_prepend {total : Nat} {step : Step} (found : List Finding)
    (h : Keeps finished total step) :
    Keeps finished total (step.prepend found) := by
  cases step <;> exact h

theorem ReadsOn.keeps {s : Tokenizer} {l : OpenLiteral} {step : Step} (h : s.ReadsOn l step) :
    Keeps finished s.lineSum step := by
  cases h with
  | closed n => exact fun _ => Cursor.line_advance n s.cursor
  | interpolation n => exact fun _ => Cursor.line_advance n s.cursor
  | unterminated | split => trivial

theorem Settles.keeps {s : Tokenizer} {t : Token} {step : Step} (h : s.Settles t step) :
    Keeps finished s.lineSum step := by
  cases h with
  | record | count => exact fun _ => rfl
  | close l outer =>
    exact (readsOn { s with suspended := outer, heredocs := _, memory := _ } l).keeps

/-- A token that is taken keeps the sum of lines, unless it is a variable with a line feed. -/
theorem keeps_take {s : Tokenizer} {kind : TokenKind} {more : Nat}
    (h : '\n' ∉ s.cursor.rest.take (more + 1) ∨ kind ≠ .var) :
    Keeps finished s.lineSum (s.take kind more) := by
  have place : lineSum { s with cursor := s.behind kind more } = s.lineSum := by
    unfold lineSum
    dsimp only
    -- the line of a variable is not counted on, but there is nothing to count
    rcases h with h | h
    · have split := Text.lineFeeds_append (s.cursor.rest.take (more + 1))
        (s.cursor.rest.drop (more + 1))
      rw [List.take_append_drop, Text.lineFeeds_eq_zero h] at split
      rw [line_behind h, rest_behind]
      omega
    · unfold behind
      dsimp only
      rw [if_neg (mt beq_iff_eq.1 h)]
      exact Cursor.line_advance _ _
  rw [← place]
  exact (settles { s with cursor := s.behind kind more } _).keeps

theorem Breaks.keeps {s : Tokenizer} {step : Step} {r : Text} (h : s.Breaks step)
    (hr : s.cursor.rest = '\n' :: r) : Keeps r.Closed s.lineSum step := by
  have below : (s.cursor.advance 1).rest = r := by
    rw [Cursor.rest_advance, hr]
    rfl
  have sum := Cursor.line_advance 1 s.cursor
  cases h with
  | unterminated => trivial
  | below _ length lines _ read place =>
    subst place
    refine keeps_prepend _ fun finished => ?_
    have finished : r.Closed ∨ length < r.length := finished.imp_right fun more => by
      change ((s.cursor.advance 1).advance length).rest ≠ [] at more
      rw [Cursor.rest_advance, below] at more
      exact Nat.lt_of_not_le fun all => more (List.drop_of_length_le all)
    obtain ⟨count, -⟩ := lineFeeds_readBodies read (below.symm ▸ finished)
    show (s.cursor.advance 1).line + lines + Text.lineFeeds
      ((s.cursor.advance 1).advance length).rest =
      s.cursor.line + Text.lineFeeds s.cursor.rest
    have split := Text.lineFeeds_append ((s.cursor.advance 1).rest.take length)
      ((s.cursor.advance 1).rest.drop length)
    rw [List.take_append_drop, count] at split
    rw [Cursor.rest_advance]
    omega

theorem Keeps.mono {unfinished : Prop} {total : Nat} {step : Step} (h : Keeps finished total step)
    (weaker : unfinished → finished) : Keeps unfinished total step := by
  cases step with
  | next _ s => exact fun cond => h (cond.imp_left weaker)
  | stop => trivial

/-- Whatever a character starts keeps the sum of lines, unless it is a `$-` before a line feed. -/
theorem Takes.keeps {s : Tokenizer} {c : Char} {r : Text} {step : Step} (h : s.Takes c r step)
    (hr : s.cursor.rest = c :: r) (dash : ∀ a, s.cursor.rest ≠ '$' :: '-' :: '\n' :: a)
    (ended : c = '\n' → finished → r.Closed) : Keeps finished s.lineSum step := by
  -- the place of a line is kept by all that reads no line feed, or counts it
  cases h with
  | name kind more pending _ read =>
    refine keeps_take (s := s.readied s.spaced pending) (.inl ?_)
    show '\n' ∉ s.cursor.rest.take (more + 1)
    rw [hr]
    exact lineFeed_notMem_of_methodName? read
  | token spaced waits kind more read =>
    refine keeps_take (s := s.readied spaced waits) ?_
    by_cases var : kind = .var
    · subst var
      left
      show '\n' ∉ s.cursor.rest.take (more + 1)
      rw [hr] at dash ⊢
      exact Lexeme.lineFeed_notMem_of_var read dash
    · exact .inr var
  | newline spaced waits read =>
    have hc : c = '\n' := Classical.byContradiction fun hc => Lexeme.read_ne_newline hc _ _ _ read
    subst hc
    exact ((s.readied spaced waits).breaks.keeps hr).mono (ended rfl)
  | literal spaced waits more =>
    have place : lineSum { s.readied spaced waits with cursor := s.cursor.advance (more + 1) } =
        s.lineSum :=
      Cursor.line_advance (more + 1) s.cursor
    rw [← place]
    exact (readsOn { s.readied spaced waits with cursor := _ } _).keeps
  | heredoc spaced waits more =>
    exact keeps_prepend _ (keeps_take (s := { s.readied spaced waits with heredocs := _ })
      (.inr (by decide)))
  | refuse | split => trivial

/-- A step keeps the sum of lines, unless it is at a `$-` before a line feed. -/
theorem keeps_step {s : Tokenizer} {c : Char} {r : Text} (hr : s.cursor.rest = c :: r)
    (dash : ∀ a, s.cursor.rest ≠ '$' :: '-' :: '\n' :: a) (ended : c = '\n' → finished → r.Closed) :
    Keeps finished s.lineSum s.step := by
  have finish : ∀ found, Keeps finished s.lineSum (s.finish found) := fun found => by
    unfold finish
    split <;> trivial
  have acts := s.acts
  generalize s.step = step at acts ⊢
  cases acts with
  | document | blank | join => exact fun _ => Cursor.line_advance _ s.cursor
  | refuse => trivial
  | ends | mark => exact finish _
  | reads c' r' hr' takes =>
    obtain ⟨rfl, rfl⟩ := List.cons.inj (hr.symm.trans hr')
    exact takes.keeps hr dash ended

/-- Where no `$-` takes a line feed, the line of the place counts the line feeds before it. At the
end of a program this holds if the program ends a line there, or if no line feed has just been
taken. -/
theorem lineSum_of_next {s u : Tokenizer} {found : List Finding} (h : s.step = .next found u)
    (dash : ∀ a, s.cursor.rest ≠ '$' :: '-' :: '\n' :: a)
    (finished : s.cursor.rest.Closed ∨ s.cursor.rest.head? ≠ some '\n' ∨ u.cursor.rest ≠ []) :
    u.lineSum = s.lineSum := by
  cases hr : s.cursor.rest with
  | nil =>
    have less := rest_lt_of_step h
    rw [hr] at less
    cases less
  | cons c r =>
    have keeps : Keeps (Text.Closed r ∨ c ≠ '\n') s.lineSum s.step :=
      keeps_step hr dash fun hc => fun
      | .inl closed => closed
      | .inr other => absurd hc other
    rw [h] at keeps
    rw [hr] at finished
    refine keeps ?_
    rcases finished with closed | other | more
    · exact .inl (.inl (closed.of_suffix (List.suffix_cons c r)))
    · exact .inl (.inr fun hc => other (by rw [hc]; rfl))
    · exact .inr more

end Tokenizer

end Marginalia.Source
