import Marginalia.Proofs.Source.Narrow
import Marginalia.Proofs.Source.Sealed

/-!
# Tokens as slices

Where the tokenizer is, what it has suspended and what it finds, measured on the whole program. At
every place the rest is what stands behind the position (`Cursor.At`), and every token shows the
characters of the program between its ends (`Token.Shows`), however deep the interpolations are that
were read on the way. If the delimiters of all literals are ASCII characters, no token ends inside a
character.
-/

namespace Marginalia.Source

/-- The characters of a program between two positions. -/
def slice (source : Text) (p q : Nat) : Text := (source.drop p).take (q - p)

/-- Whether nothing or a line feed stands directly before a position of a program. -/
def AtLineStart (source : Text) (p : Nat) : Prop := p = 0 ∨ source[p - 1]? = some '\n'

variable {source : Text}

/-! ## Places -/

/-- A cursor that tells the truth about a program. -/
structure Cursor.At (source : Text) (c : Cursor) : Prop where
  rest : c.rest = source.drop c.position
  inside : c.position ≤ source.length
  lineStart : c.atLineStart ↔ AtLineStart source c.position
  line : 1 ≤ c.line

namespace Cursor

variable {c : Cursor}

/-- The walk starts at the start of the source. -/
theorem at_ofSource (source : Text) : (ofSource source).At source where
  rest := rfl
  inside := Nat.zero_le _
  lineStart := ⟨fun _ => .inl rfl, fun _ => rfl⟩
  line := Nat.le_refl 1

/-- A cursor that is advanced stays in the source. -/
theorem At.advance (h : c.At source) (n : Nat) : (c.advance n).At source := by
  induction n generalizing c with
  | zero => exact h
  | succ n ih =>
    unfold Cursor.advance
    split
    · exact h
    · next x r hr =>
      have behind : source.drop c.position = x :: r := h.rest ▸ hr
      have next : source[c.position]? = some x := by
        rw [← List.head?_drop, behind]
        rfl
      refine ih ⟨?_, ?_, ?_, ?_⟩
      · rw [← List.tail_drop, behind]
        rfl
      · exact (List.getElem?_eq_some_iff.1 next).1
      · unfold AtLineStart
        dsimp only
        rw [Nat.add_sub_cancel, next, Option.some_inj, beq_iff_eq]
        exact (or_iff_right (Nat.succ_ne_zero _)).symm
      · have := h.line
        dsimp only
        split <;> omega

/-- The number of the line says nothing of the place. -/
theorem At.withLine (h : c.At source) (line : Nat) (hline : 1 ≤ line) :
    ({ c with line := line } : Cursor).At source := ⟨h.rest, h.inside, h.lineStart, hline⟩

/-- The characters behind a place, up to a place further on. -/
theorem At.take_rest {d : Cursor} (h : c.At source) : c.rest.take (d.position - c.position) =
    slice source c.position d.position := by
  rw [h.rest]
  rfl

end Cursor

/-! ## Tokens -/

/-- A token that stands in a program and shows its characters; the end of a line shows only the
first of its characters, without the bodies of here-documents behind it. -/
structure Token.Shows (source : Text) (t : Token) : Prop where
  le : t.start ≤ t.stop
  inside : t.stop ≤ source.length
  line : 1 ≤ t.line
  text : t.text = if t.kind = .newline then (slice source t.start t.stop).take 1
    else slice source t.start t.stop

/-- A finding that stands in a program. -/
def Finding.Shows (source : Text) : Finding → Prop
  | .token t => t.Shows source
  | .sealed lines => 1 ≤ lines.first
  | .heredocRead _ lines => 1 ≤ lines.first
  | .heredocOpened _ => True

/-- A literal that started in a program. -/
structure OpenLiteral.At (source : Text) (l : OpenLiteral) : Prop where
  source_eq : l.source = source.drop l.start
  line : 1 ≤ l.line
  narrow : NarrowDelimiters source → l.delimiters.Narrow

namespace Tokenizer

/-- A state of the tokenizer whose place and whose literals are those of a program. -/
structure Placed (source : Text) (s : Tokenizer) : Prop where
  cursor : s.cursor.At source
  literals : ∀ l ∈ s.suspended, l.At source ∧ l.start ≤ s.cursor.position

/-- Where a step leads to, and what it finds, is there in the program; the end of the program is
found last. If no character outside of ASCII stands where a delimiter is due, no token ends inside a
character. -/
def Sound (source : Text) : Step → Prop
  | .next found s => s.Placed source ∧ (∀ f ∈ found, f.Shows source) ∧
      ∀ t ∈ tokensOf found, t.kind ≠ .eof
  | .stop found ending => (∀ f ∈ found, f.Shows source) ∧
      (NarrowDelimiters source → ∀ fault, ending ≠ .broken fault)

variable {s : Tokenizer} {t : Token}

/-- The walk starts with all in its place. -/
theorem placed_ofSource (source : Text) : (ofSource source).Placed source :=
  ⟨Cursor.at_ofSource source, fun _ h => nomatch h⟩

/-- What a state remembers plays no role for where it is. -/
theorem Placed.of_same (h : s.Placed source) {u : Tokenizer} (cursor : u.cursor = s.cursor)
    (suspended : u.suspended = s.suspended) : u.Placed source :=
  ⟨cursor ▸ h.cursor, fun l hl => cursor ▸ h.literals l (suspended ▸ hl)⟩

/-- All stays in its place with a cursor further on. -/
theorem Placed.move (h : s.Placed source) {c : Cursor} (hc : c.At source)
    (le : s.cursor.position ≤ c.position) : ({ s with cursor := c } : Tokenizer).Placed source :=
  ⟨hc, fun l hl => ⟨(h.literals l hl).1, Nat.le_trans (h.literals l hl).2 le⟩⟩

/-- All stays in its place with the cursor advanced. -/
theorem Placed.advance (h : s.Placed source) (n : Nat) :
    ({ s with cursor := s.cursor.advance n } : Tokenizer).Placed source :=
  h.move (h.cursor.advance n) (Cursor.leads_advance n s.cursor).position_le

theorem Sound.prepend {step : Step} {found : List Finding} (h : Sound source step)
    (hfound : ∀ f ∈ found, f.Shows source) (none : tokensOf found = []) :
    Sound source (step.prepend found) := by
  cases step with
  | next more state =>
    refine ⟨h.1, List.forall_mem_append.2 ⟨hfound, h.2.1⟩, ?_⟩
    rw [tokensOf_append, none]
    exact h.2.2
  | stop more ending => exact ⟨List.forall_mem_append.2 ⟨hfound, h.1⟩, h.2⟩

theorem sound_refuse {found : List Finding} {line : Nat} {fault : SyntaxFault}
    (hfound : ∀ f ∈ found, f.Shows source) : Sound source (refuse found line fault) :=
  ⟨hfound, fun _ _ => by nofun⟩

theorem sound_record (h : s.Placed source) (ht : t.Shows source) (on : t.kind ≠ .eof) :
    Sound source (s.record t) := by
  refine ⟨h.of_same rfl rfl, ?_⟩
  split
  · exact ⟨List.forall_mem_singleton.2 ht, List.forall_mem_singleton.2 on⟩
  · exact ⟨fun _ h => (nomatch h), fun _ h => (nomatch h)⟩

theorem ReadsOn.sound {l : OpenLiteral} {step : Step} (h : s.ReadsOn l step)
    (placed : s.Placed source) (hl : l.At source) (le : l.start ≤ s.cursor.position) :
    Sound source step := by
  cases h with
  | closed n =>
    have behind := placed.advance n
    have further := (Cursor.leads_advance n s.cursor).position_le
    refine sound_record behind ⟨Nat.le_trans le further, behind.cursor.inside, hl.line, ?_⟩
      (show TokenKind.literal ≠ .eof by decide)
    refine Eq.trans ?_ (if_neg (show TokenKind.literal ≠ .newline by decide)).symm
    rw [hl.source_eq]
    rfl
  | interpolation n =>
    have behind := placed.advance n
    have further := (Cursor.leads_advance n s.cursor).position_le
    exact ⟨⟨behind.cursor, List.forall_mem_cons.2
      ⟨⟨⟨hl.source_eq, hl.line, hl.narrow⟩, Nat.le_trans le further⟩, behind.literals⟩⟩,
      fun _ h => (nomatch h), fun _ h => (nomatch h)⟩
  | unterminated => exact sound_refuse fun _ h => nomatch h
  | split read =>
    refine ⟨fun _ h => (nomatch h), fun narrow => ?_⟩
    exact absurd read (Delimiters.read_ne_split (hl.narrow narrow) _ _ _)

theorem Settles.sound {step : Step} (h : s.Settles t step) (placed : s.Placed source)
    (ht : t.Shows source) (on : t.kind ≠ .eof) : Sound source step := by
  have literals := placed.literals
  cases h with
  | record => exact sound_record placed ht on
  | count l outer hs =>
    -- counting braces does not touch where a literal stands
    rw [hs] at literals
    obtain ⟨⟨hl, le⟩, outside⟩ := List.forall_mem_cons.1 literals
    exact sound_record ⟨placed.cursor, List.forall_mem_cons.2
      ⟨⟨⟨hl.source_eq, hl.line, hl.narrow⟩, le⟩, outside⟩⟩ ht on
  | close l outer hs =>
    rw [hs] at literals
    obtain ⟨⟨hl, le⟩, outside⟩ := List.forall_mem_cons.1 literals
    exact (readsOn _ l).sound ⟨placed.cursor, outside⟩ hl le

/-- The place behind a token is in the source. -/
theorem at_behind (h : s.cursor.At source) (kind : TokenKind) (more : Nat) :
    (s.behind kind more).At source := by
  unfold Tokenizer.behind
  dsimp only
  split
  · exact (h.advance _).withLine _ h.line
  · exact h.advance _

/-- The characters of a token are those between its ends, also where the program is too short. -/
theorem take_behind (s : Tokenizer) (kind : TokenKind) (more : Nat) :
    s.cursor.rest.take (more + 1) =
    s.cursor.rest.take ((s.behind kind more).position - s.cursor.position) := by
  have measure := (leads_behind s kind more).measure
  rw [rest_behind, List.length_drop] at measure
  by_cases short : s.cursor.rest.length ≤ more + 1
  · rw [List.take_of_length_le short, List.take_of_length_le (by omega)]
  · congr 1
    omega

/-- A token that is taken shows the source. -/
theorem sound_take (h : s.Placed source) {kind : TokenKind} (other : kind ≠ .newline ∧ kind ≠ .eof)
    (more : Nat) : Sound source (s.take kind more) := by
  have le := (leads_behind s kind more).position_le
  refine (settles _ _).sound (h.move (at_behind h.cursor kind more) le)
    ⟨le, (at_behind h.cursor kind more).inside, h.cursor.line, ?_⟩ other.2
  show s.cursor.rest.take (more + 1) = if kind = .newline then _ else _
  rw [if_neg other.1, take_behind]
  exact h.cursor.take_rest

/-- The bodies of here-documents show the source. -/
theorem shows_readBodies (hs : List Heredoc) {line : Nat} (hline : 1 ≤ line) (t : Text) :
    ∀ f ∈ (readBodies hs line t).1, f.Shows source := by
  induction hs generalizing line t with
  | nil => exact fun _ h => nomatch h
  | cons h hs ih =>
    unfold readBodies
    split
    · exact fun _ h => nomatch h
    · next length lines _ =>
      exact List.forall_mem_cons.2 ⟨hline, ih (Nat.le_add_right_of_le hline) _⟩

theorem Breaks.sound {step : Step} (h : s.Breaks step) (placed : s.Placed source) {r : Text}
    (hr : s.cursor.rest = '\n' :: r) : Sound source step := by
  have below := placed.cursor.advance 1
  have bodies : ∀ f ∈ (readBodies s.heredocs (s.cursor.advance 1).line
      (s.cursor.advance 1).rest).1, f.Shows source := shows_readBodies s.heredocs below.line _
  cases h with
  | unterminated _ _ read =>
    rw [read] at bodies
    exact sound_refuse bodies
  | below _ length lines behind read place =>
    rw [read] at bodies
    have there : behind.At source := by
      rw [place]
      exact (below.advance length).withLine _ (Nat.le_add_right_of_le below.line)
    -- the token reaches over the bodies as well, but its text is the line feed alone
    have one : (s.cursor.advance 1).position = s.cursor.position + 1 :=
      advance_position 1 s.cursor (by rw [hr]; exact Nat.succ_le_succ (Nat.zero_le _))
    have further : s.cursor.position + 1 ≤ behind.position := by
      rw [← one, place]
      exact (Cursor.leads_advance length (s.cursor.advance 1)).position_le
    have shows : (s.cut .newline ['\n'] behind).Shows source := by
      refine ⟨Nat.le_of_succ_le further, there.inside, placed.cursor.line, ?_⟩
      show ['\n'] = (slice source s.cursor.position behind.position).take 1
      rw [← placed.cursor.take_rest, hr, List.take_take, Nat.min_eq_left (by omega)]
      rfl
    have newline : TokenKind.newline ≠ .eof := by decide
    refine (sound_record ?_ shows newline).prepend bodies (tokensOf_bodies read)
    exact (placed.move there (Nat.le_of_succ_le further)).of_same rfl rfl

/-- In a source without wide delimiters none is ahead. -/
theorem wideDelimiterAhead_of_at {c : Cursor} (h : c.At source) (narrow : NarrowDelimiters source) :
    wideDelimiterAhead c.rest = false := by
  refine narrow c.rest ((List.mem_tails _ _).2 ?_)
  rw [h.rest]
  exact List.drop_suffix _ _

/-- What a character starts shows the source. -/
theorem Takes.sound {c : Char} {r : Text} {step : Step} (h : s.Takes c r step)
    (placed : s.Placed source) (hr : s.cursor.rest = c :: r) : Sound source step := by
  -- a literal is cut at a character boundary if no delimiter is wide
  have narrow : NarrowDelimiters source → wideDelimiterAhead (c :: r) = false := fun narrow =>
    hr ▸ wideDelimiterAhead_of_at placed.cursor narrow
  have readied (spaced waits : Bool) : (s.readied spaced waits).Placed source :=
    placed.of_same rfl rfl
  cases h with
  | name kind more pending _ read =>
    obtain ⟨line, last, -⟩ := Lexeme.kind_of_methodName? read
    exact sound_take (readied _ _) ⟨line, last⟩ more
  | token spaced waits kind more read =>
    refine sound_take (readied spaced waits) ?_ more
    rcases Lexeme.kind_of_read read with ⟨rfl, -⟩ | other
    · decide
    · exact ⟨other.1, other.2.1⟩
  | newline spaced waits read =>
    have hc : c = '\n' := Classical.byContradiction fun hc => Lexeme.read_ne_newline hc _ _ _ read
    exact (breaks _).sound (readied spaced waits) (hc ▸ hr)
  | literal spaced waits more delimiters flags read =>
    refine (readsOn _ _).sound ((readied spaced waits).advance (more + 1))
      ⟨placed.cursor.rest, placed.cursor.line, fun hn => ?_⟩ (Cursor.leads_advance _ _).position_le
    exact Lexeme.narrow_of_read (narrow hn) read
  | heredoc spaced waits more h line read =>
    refine Sound.prepend (sound_take ?_ (by decide) more) (List.forall_mem_singleton.2 trivial) rfl
    exact placed.of_same rfl rfl
  | refuse => exact sound_refuse fun _ h => nomatch h
  | split spaced waits read =>
    exact ⟨fun _ h => (nomatch h), fun hn => absurd read (Lexeme.read_ne_split (narrow hn))⟩

theorem sound_finish (h : s.Placed source) {found : List Finding}
    (hfound : ∀ f ∈ found, f.Shows source) : Sound source (s.finish found) := by
  unfold finish
  split
  · refine ⟨List.forall_mem_append.2 ⟨hfound, fun f hf => ?_⟩, fun _ _ => by nofun⟩
    rw [List.mem_singleton.1 hf]
    refine ⟨Nat.le_refl _, h.cursor.inside, h.cursor.line, ?_⟩
    rw [if_neg (by nofun)]
    show [] = (source.drop s.cursor.position).take (s.cursor.position - s.cursor.position)
    rw [Nat.sub_self, List.take_zero]
  · exact sound_refuse hfound

/-- Every step leads to a place of the program and finds what is there. -/
theorem sound_step (h : s.Placed source) : Sound source s.step := by
  have none : ∀ f ∈ ([] : List Finding), f.Shows source := fun _ h => nomatch h
  have one : ∀ last, ∀ f ∈ [Finding.sealed ⟨s.cursor.line, last⟩], f.Shows source := fun last =>
    List.forall_mem_singleton.2 h.cursor.line
  have skip : ∀ n found, (∀ f ∈ found, f.Shows source) → tokensOf found = [] →
      Sound source (.next found (s.skip n)) := fun n found hfound quiet =>
    ⟨(h.advance n).of_same rfl rfl, hfound, by rw [quiet]; exact fun _ h => (nomatch h)⟩
  have acts := s.acts
  generalize s.step = step at acts ⊢
  cases acts with
  | document length => exact ⟨h.advance length, one _, fun _ h => (nomatch h)⟩
  | blank => exact skip 1 [] none rfl
  | join sep => exact skip sep.length _ (one _) rfl
  | refuse => exact sound_refuse none
  | ends => exact sound_finish h none
  | mark => exact sound_finish h (one _)
  | reads c r hr takes => exact takes.sound h hr

/-! ## Whole walks -/

/-- Wherever the walk comes, all is in its place. -/
theorem placed_of_reaches {u : Tokenizer} (h : s.Placed source) (reach : Reaches s u) :
    u.Placed source := by
  induction reach with
  | here => exact h
  | step _ hstep ih =>
    have sound := sound_step ih
    rw [hstep] at sound
    exact sound.1

/-- Everything that a walk finds stands in the program. -/
theorem shows_run (h : s.Placed source) : (∀ f ∈ s.run.found, f.Shows source) ∧
    (NarrowDelimiters source → ∀ fault, s.run.ending ≠ .broken fault) := by
  induction s using walk_induction with
  | stop s found ending hstep =>
    have sound := sound_step h
    rw [hstep] at sound
    rw [run_of_stop hstep]
    exact sound
  | next s found u hstep ih =>
    have sound := sound_step h
    rw [hstep] at sound
    rw [run_of_next hstep]
    obtain ⟨rest, unbroken⟩ := ih sound.1
    exact ⟨List.forall_mem_append.2 ⟨sound.2.1, rest⟩, unbroken⟩

/-- Tokens show the source, if all that is found does. -/
theorem shows_of_mem_tokensOf {found : List Finding} (h : ∀ f ∈ found, f.Shows source) :
    ∀ k ∈ tokensOf found, k.Shows source := fun _ hk => h _ (mem_tokensOf.1 hk)

end Tokenizer

end Marginalia.Source
