import Marginalia.Proofs.Text
import Marginalia.Source.Tokenizer

/-!
# Steps of the tokenizer

Whatever the tokenizer comes across, a step does one of a few things (`Acts`): it passes over what
separates tokens, it ends the walk, or it reads a token (`Takes`). A token that has been read is
noted, unless it is the brace that closes an interpolation (`Settles`); then the literal around it
goes on (`ReadsOn`). What a step does is looked up here, so that what is said of all steps elsewhere
is said for these cases.
-/

namespace Marginalia.Source

namespace Cursor

theorem advance_nil {c : Cursor} (hr : c.rest = []) (n : Nat) : c.advance n = c := by
  cases n with
  | zero => rfl
  | succ n =>
    unfold Cursor.advance
    rw [hr]

/-- A cursor is advanced twice. -/
theorem advance_add (m n : Nat) (c : Cursor) : c.advance (m + n) = (c.advance m).advance n := by
  induction m generalizing c with
  | zero =>
    rw [Nat.zero_add]
    rfl
  | succ m ih =>
    cases hr : c.rest with
    | nil => rw [advance_nil hr, advance_nil hr, advance_nil hr]
    | cons x r =>
      rw [Nat.succ_add, Cursor.advance, Cursor.advance, hr]
      exact ih _

end Cursor

namespace Tokenizer

variable {s : Tokenizer}

/-! ## Literals and tokens that have been read -/

/-- How reading on in a literal ends: behind it, with the letters that belong to it; at an
interpolation; or with the walk. -/
inductive ReadsOn (s : Tokenizer) (l : OpenLiteral) : Step → Prop where
  | closed (n : Nat) :
      ReadsOn s l ({ s with cursor := s.cursor.advance n }.record
        { kind := .literal, text := l.source.take ((s.cursor.advance n).position - l.start),
          start := l.start, stop := (s.cursor.advance n).position, line := l.line,
          endLine := (s.cursor.advance n).line, after := (s.cursor.advance n).rest })
  | interpolation (n depth : Nat) (inClass : Bool) :
      ReadsOn s l (.next []
        { s with
          cursor := s.cursor.advance n
          spaced := false
          memory := s.memory.enterInterpolation
          heredocs := []
          suspended := { l with depth, inClass, braces := 0, pending := s.heredocs } ::
            s.suspended })
  | unterminated : ReadsOn s l (refuse [] l.line .unterminatedLiteral)
  | split (read : l.delimiters.read l.depth l.inClass s.cursor.rest = .split) :
      ReadsOn s l (.stop [] (.broken (.splitCharacter l.start)))

/-- What reading a literal on may come to. -/
theorem readsOn (s : Tokenizer) (l : OpenLiteral) : s.ReadsOn l (s.readLiteral l) := by
  unfold readLiteral
  split
  · next length _ =>
    dsimp only
    split
    · rw [← Cursor.advance_add]
      exact .closed _
    · exact .closed length
  · exact .interpolation _ _ _
  · exact .unterminated
  · next read => exact .split read

/-- What becomes of a token that has been read. In an interpolation braces are counted. -/
inductive Settles (s : Tokenizer) (k : Token) : Step → Prop where
  | record : Settles s k (s.record k)
  | count (l : OpenLiteral) (outer : List OpenLiteral) (hs : s.suspended = l :: outer)
    (braces : Nat) :
      Settles s k ({ s with suspended := { l with braces } :: outer }.record k)
  | close (l : OpenLiteral) (outer : List OpenLiteral) (hs : s.suspended = l :: outer)
      (braces : l.braces = 0) (closing : k.isPunct rightBrace) :
      Settles s k
        ({ s with suspended := outer, heredocs := l.pending, memory :=
          s.memory.note k }.readLiteral l)

/-- What a token may come to that settles. -/
theorem settles (s : Tokenizer) (k : Token) : s.Settles k (s.settle k) := by
  unfold settle
  split
  · exact .record
  · next l outer hs =>
    split
    · exact .count l outer hs _
    · split
      · next closing =>
        split
        · next braces => exact .close l outer hs braces closing
        · next n _ => exact .count l outer hs n
      · exact .record

/-- The token that is taken outside of all literals. -/
theorem take_of_outside (outside : s.suspended = []) (kind : TokenKind) (more : Nat) :
    s.take kind more =
      .next [.token (s.cut kind (s.cursor.rest.take (more + 1)) (s.behind kind more))]
        { s with
          cursor := s.behind kind more
          spaced := false
          memory := s.memory.note
            (s.cut kind (s.cursor.rest.take (more + 1)) (s.behind kind more)) } := by
  unfold take settle
  dsimp only
  rw [outside]
  rfl

/-- How a line feed is taken: the bodies of the here-documents below are read, or one of them has no
end. -/
inductive Breaks (s : Tokenizer) : Step → Prop where
  | unterminated (bodies : List Finding) (h : Heredoc)
      (read : readBodies s.heredocs (s.cursor.advance 1).line (s.cursor.advance 1).rest =
        (bodies, .error h)) :
      Breaks s (refuse bodies h.line (.unterminatedHeredoc h.id))
  | below (bodies : List Finding) (length lines : Nat) (behind : Cursor)
      (read : readBodies s.heredocs (s.cursor.advance 1).line (s.cursor.advance 1).rest =
        (bodies, .ok (length, lines)))
      (place : behind = { (s.cursor.advance 1).advance length with
        line := (s.cursor.advance 1).line + lines }) :
      Breaks s (({ s with cursor := behind, heredocs := [] }.record
        (s.cut .newline ['\n'] behind)).prepend
        bodies)

/-- What an end of a line may come to. -/
theorem breaks (s : Tokenizer) : s.Breaks s.takeNewline := by
  unfold takeNewline
  dsimp only
  generalize read : readBodies s.heredocs _ _ = all
  obtain ⟨bodies, h | ⟨length, lines⟩⟩ := all
  · exact .unterminated bodies h read
  · exact .below bodies length lines _ read rfl

/-- A line feed behind which the walk goes on. -/
theorem exists_of_takeNewline {u : Tokenizer} {found : List Finding}
    (h : s.takeNewline = .next found u) :
    ∃ bodies length lines behind,
      readBodies s.heredocs (s.cursor.advance 1).line (s.cursor.advance 1).rest =
        (bodies, .ok (length, lines)) ∧
      behind = { (s.cursor.advance 1).advance length with line :=
  (s.cursor.advance 1).line + lines } ∧
      found = bodies ++ (if s.suspended.isEmpty then [.token (s.cut .newline ['\n'] behind)]
        else []) ∧
      u = { s with
        cursor := behind
        heredocs := []
        spaced := false
        memory := s.memory.note (s.cut .newline ['\n'] behind) } := by
  have breaks := s.breaks
  rw [h] at breaks
  generalize hstep : Step.next found u = step at breaks
  cases breaks with
  | unterminated => cases hstep
  | below bodies length lines behind read place =>
    cases hstep
    exact ⟨bodies, length, lines, behind, read, place, rfl, rfl⟩

/-! ## Reading a token -/

/-- The state in which a token is read, with what is known of blanks before it and of a `def` that
waits for a name. -/
def readied (s : Tokenizer) (spaced waits : Bool) : Tokenizer :=
  { s with spaced := spaced, memory := { s.memory with namesMethod := waits } }

/-- What is read where something starts with `c`, which is no blank. -/
inductive Takes (s : Tokenizer) (c : Char) (r : Text) : Step → Prop where
  | name (kind : TokenKind) (more : Nat) (pending : Bool) (named : s.memory.namesMethod = true)
      (read : Lexeme.methodName? c r = some (kind, more, pending)) :
      Takes s c r ((s.readied s.spaced pending).take kind more)
  | token (spaced waits : Bool) (kind : TokenKind) (more : Nat)
      (read : Lexeme.read (s.readied spaced waits).memory spaced c r = .token kind more) :
      Takes s c r ((s.readied spaced waits).take kind more)
  | newline (spaced waits : Bool)
      (read : Lexeme.read (s.readied spaced waits).memory spaced c r = .newline) :
      Takes s c r (s.readied spaced waits).takeNewline
  | literal (spaced waits : Bool) (more : Nat) (delimiters : Delimiters) (flags : Bool)
      (read : Lexeme.read (s.readied spaced waits).memory spaced c r =
        .delimited more delimiters flags) :
      Takes s c r ({ s.readied spaced waits with cursor := s.cursor.advance (more + 1) }.readLiteral
        { source := s.cursor.rest, start := s.cursor.position, line := s.cursor.line,
          delimiters := delimiters, flags := flags })
  | heredoc (spaced waits : Bool) (more : Nat) (h : Heredoc) (line : h.line = s.cursor.line)
      (read : Lexeme.read (s.readied spaced waits).memory spaced c r =
        .heredoc more h.id h.indented) :
      Takes s c r (({ s.readied spaced waits with heredocs := s.heredocs ++ [h] }.take .literal
        more).prepend
        [.heredocOpened h])
  | refuse (line : Nat) (fault : SyntaxFault) : Takes s c r (refuse [] line fault)
  | split (spaced waits : Bool)
      (read : Lexeme.read (s.readied spaced waits).memory spaced c r = .split) :
      Takes s c r (.stop [] (.broken (.splitCharacter s.cursor.position)))

/-- What a character of the program may come to. -/
theorem takes_readLexeme (s : Tokenizer) (spaced waits : Bool) (c : Char) (r : Text) :
    s.Takes c r ((s.readied spaced waits).readLexeme c r) := by
  unfold readLexeme
  split
  · next read => exact .token _ _ _ _ read
  · next read => exact .newline _ _ read
  · next read => exact .literal _ _ _ _ _ read
  · next more id indented read => exact .heredoc _ _ more ⟨id, indented, s.cursor.line⟩ rfl read
  · exact .refuse _ _
  · next read => exact .split _ _ read

/-- What a character may come to. -/
theorem takes (s : Tokenizer) (c : Char) (r : Text) : s.Takes c r (s.readToken c r) := by
  unfold readToken
  split
  · next named =>
    split
    · next read => exact .name _ _ _ named read
    · exact s.takes_readLexeme false false c r
  · exact s.takes_readLexeme s.spaced s.memory.namesMethod c r

/-! ## One step -/

/-- A word that is ahead is followed by what ends it. -/
theorem exists_of_wordAhead {w : String} {ends : Text → Bool} {t : Text} (h : wordAhead w ends t) :
    ∃ r, t = w.toList ++ r ∧ ends r := by
  unfold wordAhead at h
  obtain ⟨r, hr, he⟩ := (Option.any_eq_true ..).1 h
  exact ⟨r, (List.append_eq_of_isPrefixOf?_eq_some hr).symm, he⟩

/-- The two ways to join a line to the next. -/
def joins : List Text := [['\\', '\n'], ['\\', '\r', '\n']]

/-- A join is a backslash and an end of a line. -/
theorem exists_of_mem_joins {sep : Text} (join : sep ∈ joins) :
    ∃ rest, sep = '\\' :: rest ∧ Text.lineFeeds sep = 1 := by
  rw [joins, List.mem_cons, List.mem_singleton] at join
  rcases join with rfl | rfl
  · exact ⟨_, rfl, rfl⟩
  · exact ⟨_, rfl, rfl⟩

/-- What a step does. -/
inductive Acts (s : Tokenizer) : Step → Prop where
  | document (length lines : Nat)
    (begins : s.cursor.atLineStart && wordAhead "=begin" wordEnds s.cursor.rest)
      (document : embeddedDocument? s.cursor.rest = some (length, lines)) :
      Acts s (.next [.sealed ⟨s.cursor.line, s.cursor.line + lines⟩]
        { s with cursor := s.cursor.advance length })
  | blank (c : Char) (r : Text) (hr : s.cursor.rest = c :: r)
      (blank : c == ' ' || c == '\t' || c == '\r' || c == '\x0c') : Acts s (.next [] (s.skip 1))
  | join (sep : Text) (join : sep ∈ joins) (ahead : sep <+: s.cursor.rest) :
      Acts s (.next [.sealed ⟨s.cursor.line, s.cursor.line⟩] (s.skip sep.length))
  | refuse (line : Nat) (fault : SyntaxFault) : Acts s (refuse [] line fault)
  | ends (none : s.cursor.rest = []) (heredocs : s.heredocs = []) : Acts s (s.finish [])
  | mark (mark : s.cursor.atLineStart && wordAhead "__END__" lineEnds s.cursor.rest) :
      Acts s (s.finish [.sealed ⟨s.cursor.line, max s.lineCount s.cursor.line⟩])
  | reads (c : Char) (r : Text) {step : Step} (hr : s.cursor.rest = c :: r)
    (takes : s.Takes c r step) :
      Acts s step

/-- What a step may come to. -/
theorem acts (s : Tokenizer) : s.Acts s.step := by
  unfold step
  split
  · next none =>
    split
    · exact .refuse _ _
    · next heredocs => exact .ends none heredocs
  · next c r hr =>
    dsimp only
    rw [← hr]
    split
    · next begins =>
      split
      · next document => exact .document _ _ begins document
      · exact .refuse _ _
    split
    · next mark => exact .mark mark
    split
    · next blank => exact .blank c r hr blank
    split
    · next ahead => exact .join _ List.mem_cons_self (List.isPrefixOf_iff_prefix.1 ahead)
    split
    · next ahead =>
      exact .join _ (List.mem_cons_of_mem _ List.mem_cons_self) (List.isPrefixOf_iff_prefix.1 ahead)
    · exact .reads c r hr (s.takes c r)

end Tokenizer

end Marginalia.Source
