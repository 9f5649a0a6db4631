import Marginalia.Proofs.Source.Returns
import Marginalia.Proofs.Source.Slices

/-!
# A walk past carriage returns

The walk over a program, and the walk over the same program with a carriage return before each line
feed. The second walk does what the first does, at the places that the returns move
(`returned_step`); only before a line feed it may take one step more, over the return
(`step_returned_lineFeed`). So both find the same, and both end the same way (`returned_run`).
-/

namespace Marginalia.Source

open Text

variable {source : Text}

/-! ## Places -/

namespace Cursor

variable {c : Cursor}

/-- The same place in the program with returns. -/
def returned (source : Text) (c : Cursor) : Cursor :=
  { c with rest := withReturns c.rest, position := place source c.position }

/-- The same place, behind the return that stands there if a line feed follows. -/
def behindReturn (source : Text) (c : Cursor) : Cursor :=
  (c.returned source).advance (returnAhead c.rest)

/-- One character may become two. -/
theorem advance_returned_one (h : c.At source) {x : Char} {r : Text} (hr : c.rest = x :: r) :
    (c.returned source).advance (withReturns [x]).length = (c.advance 1).returned source := by
  have position : place source (c.position + 1) =
      place source c.position + (withReturns [x]).length := by
    rw [place_add, ← h.rest, hr, place_cons]
    rfl
  have one : c.advance 1 =
      ⟨r, c.position + 1, if x == '\n' then c.line + 1 else c.line, x == '\n'⟩ := by
    rw [Cursor.advance, hr]
    rfl
  unfold returned
  rw [one, position, hr]
  by_cases hx : x = '\n'
  · rw [hx]
    rfl
  · rw [withReturns_cons hx, withReturns_cons hx]
    rfl

/-- Moving over some characters is moving over them and their returns. -/
theorem advance_returned (h : c.At source) (n : Nat) :
    (c.returned source).advance (place c.rest n) = (c.advance n).returned source := by
  induction n generalizing c with
  | zero => rfl
  | succ n ih =>
    cases hr : c.rest with
    | nil =>
      rw [advance_nil hr, advance_nil]
      show withReturns c.rest = []
      rw [hr]
      rfl
    | cons x r =>
      have behind := ih (h.advance 1)
      rw [rest_advance, hr, List.drop_one, List.tail_cons] at behind
      rw [place_cons, advance_add, advance_returned_one h hr, behind, Nat.add_comm n 1, advance_add]

/-- Moving over characters of a line is the same as ever. -/
theorem advance_returned_line (h : c.At source) {n : Nat} (hn : '\n' ∉ c.rest.take n) :
    (c.returned source).advance n = (c.advance n).returned source := by
  rw [← advance_returned h n, place_of_notMem hn]

/-- Moving to the end of a line, and over the return there. -/
theorem advance_behindReturn (h : c.At source) (n : Nat) :
    (c.returned source).advance (place c.rest n + returnAhead (c.rest.drop n)) =
      (c.advance n).behindReturn source := by
  rw [advance_add, advance_returned h, behindReturn, rest_advance]

/-- A place before a line feed is the same place, once the return is passed. -/
theorem behindReturn_of_head? {c : Cursor} (hr : c.rest.head? ≠ some '\n') :
    c.behindReturn source = c.returned source := by
  rw [behindReturn, returnAhead, if_neg hr]
  rfl

/-- Where a line feed is ahead, the place behind its return. -/
theorem behindReturn_of_lineFeed {c : Cursor} {r : Text} (hr : c.rest = '\n' :: r) :
    c.behindReturn source =
      ⟨'\n' :: withReturns r, place source c.position + 1, c.line, false⟩ := by
  unfold behindReturn returned
  rw [hr]
  rfl

end Cursor

/-! ## Tokens, findings and states -/

/-- The same token in the program with returns. The return that ends a line belongs to the comment
before it, or else to nothing, and so the positions of comments and line ends say little. -/
structure Token.Returned (source : Text) (k l : Token) : Prop where
  kind : l.kind = k.kind
  line : l.line = k.line
  endLine : l.endLine = k.endLine
  text : k.kind ≠ .literal → k.kind ≠ .comment → l.text = k.text
  after : k.kind ≠ .comment → l.after = withReturns k.after
  start : k.kind ≠ .comment → k.kind ≠ .newline → l.start = place source k.start
  stop : k.kind ≠ .comment → k.kind ≠ .newline → l.stop = place source k.stop

/-- The same finding in the program with returns. -/
inductive Finding.Returned (source : Text) : Finding → Finding → Prop where
  | token {k l : Token} (h : k.Returned source l) : Finding.Returned source (.token k) (.token l)
  | same {f : Finding} (h : f.token? = none) : Finding.Returned source f f

/-- Findings that are no tokens are not changed by returns. -/
theorem returned_of_tokensOf {found : List Finding} (h : tokensOf found = []) :
    List.Forall₂ (Finding.Returned source) found found := by
  induction found with
  | nil => exact .nil
  | cons f found ih =>
    cases f with
    | token k => cases h
    | sealed lines => exact .cons (.same rfl) (ih h)
    | heredocOpened d => exact .cons (.same rfl) (ih h)
    | heredocRead d lines => exact .cons (.same rfl) (ih h)

/-- The same fault in the program with returns. -/
def Fault.returned (source : Text) : Fault → Fault
  | .splitCharacter position => .splitCharacter (place source position)
  | .strayComment line => .strayComment line

/-- The same end of the program with returns. -/
def Ending.returned (source : Text) : Ending → Ending
  | .complete => .complete
  | .refused e => .refused e
  | .broken fault => .broken (fault.returned source)

/-- The same literal in the program with returns. -/
def OpenLiteral.returned (source : Text) (l : OpenLiteral) : OpenLiteral :=
  { l with source := withReturns l.source, start := place source l.start }

namespace Tokenizer

/-- The same state in the program with returns. -/
def returned (source : Text) (s : Tokenizer) : Tokenizer :=
  { s with
    cursor := s.cursor.returned source
    suspended := s.suspended.map (OpenLiteral.returned source) }

/-- The same state, behind the return that stands there if a line feed follows. -/
def behindReturn (source : Text) (s : Tokenizer) : Tokenizer :=
  { s.returned source with cursor := s.cursor.behindReturn source }

/-- What is left of the program is left with returns. -/
theorem rest_returned (source : Text) (s : Tokenizer) :
    (s.returned source).cursor.rest = withReturns s.cursor.rest := rfl

/-- The literals that are open are moved. -/
theorem suspended_returned (source : Text) (s : Tokenizer) :
    (s.returned source).suspended = s.suspended.map (OpenLiteral.returned source) := rfl

/-- No blank closes or nests in a literal that is open. -/
def Visible (s : Tokenizer) : Prop := ∀ l ∈ s.suspended, l.delimiters.Visible

/-- The state `t` of the program with returns is the state `s`. Before a line feed the return may
have been passed, and whether blanks precede a line feed plays no role. -/
inductive Returned (source : Text) (s : Tokenizer) : Tokenizer → Prop where
  | here : Returned source s (s.returned source)
  | behind (spaced : Bool) (h : s.cursor.rest.head? = some '\n') :
      Returned source s { s.behindReturn source with spaced := spaced }

/-- A state goes on as the one behind the return. -/
theorem returned_behindReturn (source : Text) (s : Tokenizer) :
    s.Returned source (s.behindReturn source) := by
  by_cases h : s.cursor.rest.head? = some '\n'
  · exact .behind s.spaced h
  · unfold behindReturn
    rw [Cursor.behindReturn_of_head? h]
    exact .here

end Tokenizer

/-- A step over the program and one over the program with returns. -/
inductive Step.Returned (source : Text) : Step → Step → Prop where
  | next {found more : List Finding} {s t : Tokenizer}
      (finds : List.Forall₂ (Finding.Returned source) found more) (visible : s.Visible)
      (state : s.Returned source t) : Step.Returned source (.next found s) (.next more t)
  | stop {found more : List Finding} {ending : Ending}
      (finds : List.Forall₂ (Finding.Returned source) found more) :
      Step.Returned source (.stop found ending) (.stop more (ending.returned source))

/-- A walk over the program and one over the program with returns: the same is found, and they end
the same way. -/
structure Tokenization.Returned (source : Text) (a b : Tokenization) : Prop where
  found : List.Forall₂ (Finding.Returned source) a.found b.found
  ending : b.ending = a.ending.returned source

theorem Step.Returned.prepend {a b : Step} {found : List Finding} (quiet : tokensOf found = [])
    (h : a.Returned source b) : (a.prepend found).Returned source (b.prepend found) := by
  cases h with
  | next finds visible state =>
    exact .next (List.rel_append (returned_of_tokensOf quiet) finds) visible state
  | stop finds => exact .stop (List.rel_append (returned_of_tokensOf quiet) finds)

namespace Tokenizer

variable {s : Tokenizer} {k l : Token}

/-! ## One token -/

/-- What is remembered of a literal does not depend on its characters. -/
theorem note_literal (m : Memory) (hk : k.kind = .literal) (hl : l.kind = .literal) :
    m.note l = m.note k := by
  obtain ⟨_, _, _, _, _, _, _⟩ := k
  obtain ⟨_, _, _, _, _, _, _⟩ := l
  cases hk
  cases hl
  rfl

/-- A token is noted as it was. -/
theorem note_returned (h : k.Returned source l) (m : Memory) : m.note l = m.note k := by
  by_cases literal : k.kind = .literal
  · exact note_literal m literal (h.kind.trans literal)
  by_cases comment : k.kind = .comment
  · unfold Memory.note
    rw [h.kind, comment]
    rfl
  · exact note_eq h.kind (h.text literal comment) m

/-- A token stays the punctuation mark that it is. -/
theorem isPunct_returned (h : k.Returned source l) (w : String) : l.isPunct w = k.isPunct w := by
  by_cases punct : k.kind = .punct
  · refine isPunct_eq h.kind (h.text ?_ ?_) w
    · rw [punct]
      decide
    · rw [punct]
      decide
  · have other : (k.kind == .punct) = false := beq_eq_false_iff_ne.2 punct
    unfold Token.isPunct
    rw [h.kind, other]
    rfl

/-- A token is cut with the returns in it. -/
theorem cut_returned (s : Tokenizer) (kind : TokenKind) (text : Text) (behind : Cursor) :
    (s.cut kind text behind).Returned source
    ((s.returned source).cut kind text (behind.returned source)) :=
  ⟨rfl, rfl, rfl, fun _ _ => rfl, fun _ => rfl, fun _ _ => rfl, fun _ _ => rfl⟩

theorem returned_record (visible : s.Visible) (hk : k.Returned source l) :
    (s.record k).Returned source ((s.returned source).record l) := by
  have outside : (s.returned source).suspended.isEmpty = s.suspended.isEmpty := by
    rw [suspended_returned, List.isEmpty_map]
  have finds : List.Forall₂ (Finding.Returned source)
    (if s.suspended.isEmpty then [.token k] else [])
      (if (s.returned source).suspended.isEmpty then [.token l] else []) := by
    rw [outside]
    split
    · exact .cons (.token hk) .nil
    · exact .nil
  have state : ({ s.returned source with spaced := false, memory := s.memory.note l } : Tokenizer) =
      ({ s with spaced := false, memory := s.memory.note k } : Tokenizer).returned source := by
    rw [note_returned hk]
    rfl
  refine .next finds visible ?_
  exact state ▸ .here

/-- The letters behind a literal are the same. -/
theorem flags_returned {c : Cursor} (h : c.At source) (flags : Bool) :
    (if flags then (c.returned source).advance (Source.run Char.isAlpha (c.returned source).rest)
      else c.returned source) =
      (if flags then c.advance (Source.run Char.isAlpha c.rest) else c).returned source := by
  cases flags with
  | false => rfl
  | true =>
    have letters : Source.run Char.isAlpha (withReturns c.rest) = Source.run Char.isAlpha c.rest :=
      congrArg List.length (takeWhile_withReturns (by decide) (by decide) c.rest)
    have line : '\n' ∉ c.rest.take (Source.run Char.isAlpha c.rest) := by
      rw [Lexeme.take_run]
      exact fun hm => absurd (List.all_eq_true.1 List.all_takeWhile _ hm) (by decide)
    rw [if_pos rfl, if_pos rfl]
    show (c.returned source).advance (Source.run Char.isAlpha (withReturns c.rest)) = _
    rw [letters, Cursor.advance_returned_line h line]

/-- A literal is read on on both sides. -/
theorem returned_readLiteral {o : OpenLiteral} (placed : s.cursor.At source) (visible : s.Visible)
    (ho : o.delimiters.Visible) :
    (s.readLiteral o).Returned source ((s.returned source).readLiteral (o.returned source)) := by
  have read : (o.returned source).delimiters.read (o.returned source).depth
    (o.returned source).inClass
      (s.returned source).cursor.rest =
        (o.delimiters.read o.depth o.inClass s.cursor.rest).returned _ :=
    Delimiters.read_withReturns ho o.depth o.inClass s.cursor.rest
  unfold readLiteral
  rw [read]
  -- a place in the literal is moved by the returns that were put before it
  have moved : ∀ n, (s.returned source).cursor.advance (place s.cursor.rest n) =
      (s.cursor.advance n).returned source := Cursor.advance_returned placed
  cases o.delimiters.read o.depth o.inClass s.cursor.rest with
  | closed n =>
    dsimp only [LiteralStop.returned]
    have flags := flags_returned (placed.advance n) o.flags
    rw [moved]
    rw [show (o.returned source).flags = o.flags from rfl, flags]
    generalize (if o.flags then _ else s.cursor.advance n : Cursor) = behind
    refine returned_record (s := { s with cursor := behind }) visible ?_
    exact ⟨rfl, rfl, rfl, fun h => absurd rfl h, fun _ => rfl, fun _ _ => rfl, fun _ _ => rfl⟩
  | interpolation n depth inClass =>
    dsimp only [LiteralStop.returned]
    rw [moved]
    exact .next .nil (List.forall_mem_cons.2 ⟨ho, visible⟩) .here
  | unterminated => exact .stop .nil
  | split => exact .stop .nil

/-- A token settles on both sides. -/
theorem returned_settle (placed : s.cursor.At source) (visible : s.Visible)
    (hk : k.Returned source l) :
    (s.settle k).Returned source ((s.returned source).settle l) := by
  have opening := isPunct_returned hk leftBrace
  have closing := isPunct_returned hk rightBrace
  unfold settle
  cases hs : s.suspended with
  | nil =>
    rw [suspended_returned, hs]
    exact returned_record visible hk
  | cons o outer =>
    have literals := visible
    unfold Visible at literals
    rw [hs] at literals
    obtain ⟨ho, others⟩ := List.forall_mem_cons.1 literals
    have count : ∀ n, (record { s with suspended := { o with braces := n } :: outer } k).Returned
      source
        (record (returned source { s with suspended := { o with braces := n } :: outer }) l) :=
          fun n =>
      returned_record (List.forall_mem_cons.2 ⟨ho, others⟩) hk
    rw [suspended_returned, hs, List.map_cons]
    dsimp only
    rw [opening, closing, show (o.returned source).braces = o.braces from rfl]
    split
    · exact count _
    · split
      · cases o.braces with
        | zero =>
          -- the brace closes the interpolation, and the literal goes on
          have rest := returned_readLiteral
            (s := { s with suspended := outer, heredocs := o.pending, memory := s.memory.note k })
            placed others ho
          dsimp only
          rw [← note_returned hk] at rest ⊢
          exact rest
        | succ n => exact count n
      · exact returned_record visible hk

/-- The place behind a token without a line feed is moved with it. -/
theorem behind_returned (placed : s.cursor.At source) {kind : TokenKind} {more : Nat}
    (line : '\n' ∉ s.cursor.rest.take (more + 1)) :
    (s.returned source).behind kind more = (s.behind kind more).returned source := by
  have moved : (s.returned source).cursor.advance (more + 1) =
      (s.cursor.advance (more + 1)).returned source := Cursor.advance_returned_line placed line
  unfold behind
  dsimp only
  rw [moved]
  split <;> rfl

/-- A token of one line is taken as ever. -/
theorem returned_take (placed : s.cursor.At source) (visible : s.Visible) (kind : TokenKind)
    {more : Nat} (line : '\n' ∉ s.cursor.rest.take (more + 1)) :
    (s.take kind more).Returned source ((s.returned source).take kind more) := by
  have text : (s.returned source).cursor.rest.take (more + 1) = s.cursor.rest.take (more + 1) :=
    take_withReturns line
  unfold take
  dsimp only
  rw [behind_returned placed line, text]
  exact returned_settle (s := { s with cursor := s.behind kind more })
    (at_behind placed kind more) visible
    (cut_returned s kind _ _)

/-- The end of a line, behind its return. -/
theorem returned_takeNewline (placed : s.cursor.At source) (visible : s.Visible)
    (hr : s.cursor.rest.head? = some '\n') :
    s.takeNewline.Returned source (s.behindReturn source).takeNewline := by
  obtain ⟨r, hr⟩ := List.head?_eq_some_iff.1 hr
  have below : (s.behindReturn source).cursor.advance 1 = (s.cursor.advance 1).returned source := by
    rw [← Cursor.advance_returned_one placed hr]
    show ((s.cursor.returned source).advance (returnAhead s.cursor.rest)).advance 1 = _
    rw [hr, ← Cursor.advance_add]
    rfl
  have at_below := placed.advance 1
  have bodies : readBodies (s.behindReturn source).heredocs
    ((s.cursor.advance 1).returned source).line
      ((s.cursor.advance 1).returned source).rest = _ :=
    readBodies_withReturns s.heredocs (s.cursor.advance 1).line (s.cursor.advance 1).rest
  have quiet := tokensOf_readBodies s.heredocs (s.cursor.advance 1).line (s.cursor.advance 1).rest
  unfold takeNewline
  dsimp only
  -- the bodies take as many lines, with their returns
  rw [below, bodies]
  cases hbodies : readBodies s.heredocs (s.cursor.advance 1).line (s.cursor.advance 1).rest with
  | mk found taken =>
    rw [hbodies] at quiet
    cases taken with
    | error h => exact .stop (returned_of_tokensOf quiet)
    | ok more =>
      obtain ⟨n, k⟩ := more
      dsimp only [Except.map]
      rw [Cursor.advance_returned (placed.advance 1) n]
      refine Step.Returned.prepend quiet (returned_record (s := { s with
        cursor := { (s.cursor.advance 1).advance n with line := (s.cursor.advance 1).line + k }
        heredocs := [] }) visible ⟨rfl, ?_, rfl, fun _ _ => rfl, fun _ => rfl, ?_, ?_⟩)
      · show (s.cursor.behindReturn source).line = s.cursor.line
        rw [Cursor.behindReturn_of_lineFeed hr]
      · exact fun _ h => absurd rfl h
      · exact fun _ h => absurd rfl h

/-! ## One step -/

/-- What a character of the program starts is read on both sides. -/
theorem returned_readLexeme {c : Char} {r : Text} (placed : s.cursor.At source)
    (visible : s.Visible) (hr : s.cursor.rest = c :: r) (code : isAsciiBlank c = false)
    (uncommented : c ≠ '#') (unnamed : s.memory.namesMethod = false) (plain : Plain (c :: r)) :
    (s.readLexeme c r).Returned source ((s.returned source).readLexeme c (withReturns r)) := by
  -- both texts have the same lexeme, which stays on its line
  obtain ⟨same, line⟩ :
    Lexeme.read (s.returned source).memory (s.returned source).spaced c (withReturns r) =
      Lexeme.read s.memory s.spaced c r ∧
      '\n' ∉ (c :: r).take ((Lexeme.read s.memory s.spaced c r).more + 1) :=
    Lexeme.read_withReturns code uncommented unnamed plain
  rw [← hr] at line
  unfold readLexeme
  rw [same]
  cases hread : Lexeme.read s.memory s.spaced c r with
  | token kind more =>
    rw [hread] at line
    exact returned_take placed visible kind line
  | newline =>
    refine absurd hread (Lexeme.read_ne_newline ?_ _ _ _)
    rintro rfl
    exact absurd code (by decide)
  | delimited more delimiters flags =>
    rw [hread] at line
    have moved : (s.returned source).cursor.advance (more + 1) =
        (s.cursor.advance (more + 1)).returned source := Cursor.advance_returned_line placed line
    dsimp only
    rw [moved]
    exact returned_readLiteral (s := { s with cursor := s.cursor.advance (more + 1) })
      (placed.advance (more + 1)) visible (Lexeme.visible_of_read hread)
  | heredoc more id indented =>
    rw [hread] at line
    refine Step.Returned.prepend rfl ?_
    exact returned_take (s := { s with heredocs := s.heredocs ++ [⟨id, indented, s.cursor.line⟩] })
      placed visible .literal line
  | brokenHeredoc => exact .stop .nil
  | split => exact .stop .nil

/-- What a character starts is read on both sides, also where a method is named. -/
theorem returned_readToken {c : Char} {r : Text} (placed : s.cursor.At source) (visible : s.Visible)
    (hr : s.cursor.rest = c :: r) (code : isAsciiBlank c = false) (uncommented : c ≠ '#')
    (plain : Plain (c :: r)) :
    (s.readToken c r).Returned source ((s.returned source).readToken c (withReturns r)) := by
  unfold readToken
  rw [Lexeme.methodName?_withReturns]
  show Step.Returned source _ (if s.memory.namesMethod then _ else _)
  cases named : s.memory.namesMethod with
  | false =>
    rw [if_neg Bool.false_ne_true, if_neg Bool.false_ne_true]
    exact returned_readLexeme placed visible hr code uncommented named plain
  | true =>
    rw [if_pos rfl, if_pos rfl]
    cases hname : Lexeme.methodName? c r with
    | none =>
      exact returned_readLexeme
        (s := { s with spaced := false, memory := { s.memory with namesMethod := false } })
        placed visible hr code uncommented rfl plain
    | some name =>
      obtain ⟨kind, more, pending⟩ := name
      have line := lineFeed_notMem_of_methodName? hname
      rw [← hr] at line
      exact returned_take (s := { s with memory := { s.memory with namesMethod := pending } })
        placed visible kind line

theorem returned_finish {found : List Finding} (quiet : tokensOf found = []) :
    (s.finish found).Returned source ((s.returned source).finish found) := by
  have last : (s.cut .eof [] s.cursor).Returned source _ := cut_returned s .eof [] s.cursor
  have finds : List.Forall₂ (Finding.Returned source) found found := returned_of_tokensOf quiet
  unfold finish
  rw [suspended_returned]
  cases s.suspended with
  | nil => exact .stop (List.rel_append finds (.cons (.token last) .nil))
  | cons o outer => exact .stop finds

/-- A comment takes the return at the end of its line. -/
theorem returned_comment {r : Text} (placed : s.cursor.At source) (visible : s.Visible)
    (hr : s.cursor.rest = '#' :: r) : s.step.Returned source (s.returned source).step := by
  have hr' : (s.returned source).cursor.rest = '#' :: withReturns r := by
    rw [rest_returned, hr]
    rfl
  obtain ⟨left, line⟩ := step_of_hash hr
  obtain ⟨right, line'⟩ := step_of_hash hr'
  have stretch : '\n' ∉ s.cursor.rest.take ((r.takeWhile (· != '\n')).length + 1) := by
    rw [hr, List.take_succ_cons, List.mem_cons, not_or,
      ← List.prefix_iff_eq_take.1 (List.takeWhile_prefix _)]
    exact ⟨by decide, lineFeed_notMem_takeWhile r⟩
  -- the comment takes the return that the second walk has before the line feed
  have place : (s.returned source).cursor.advance
    (((withReturns r).takeWhile (· != '\n')).length + 1) =
      (s.cursor.advance ((r.takeWhile (· != '\n')).length + 1)).behindReturn source := by
    have length : ((withReturns r).takeWhile (· != '\n')).length + 1 =
        Text.place s.cursor.rest ((r.takeWhile (· != '\n')).length + 1) +
          returnAhead (s.cursor.rest.drop ((r.takeWhile (· != '\n')).length + 1)) := by
      have run := run_withReturns r
      unfold Source.run at run
      rw [place_of_notMem stretch, hr, List.drop_succ_cons]
      omega
    rw [length]
    exact Cursor.advance_behindReturn placed _
  rw [left, right, place]
  rw [place] at line'
  have state := returned_behindReturn source
    { s.unnamed with cursor := s.cursor.advance ((r.takeWhile (· != '\n')).length + 1) }
  refine .next ?_ visible state
  rw [suspended_returned, List.isEmpty_map]
  split
  · refine .cons (.token ⟨rfl, rfl, ?_, fun _ h => absurd rfl h, fun h => absurd rfl h, fun h =>
      absurd rfl h, fun h => absurd rfl h⟩) .nil
    exact line'.trans line.symm
  · exact .nil

/-- Text is skipped on both sides. -/
theorem returned_skip {n m : Nat} {found : List Finding} (visible : s.Visible)
    (quiet : tokensOf found = [])
    (moved : (s.cursor.returned source).advance m = (s.cursor.advance n).returned source) :
    (Step.next found (s.skip n)).Returned source (.next found ((s.returned source).skip m)) := by
  have state : (s.returned source).skip m = (s.skip n).returned source := by
    show ({ s.returned source with
      cursor := (s.cursor.returned source).advance m, spaced := true } : Tokenizer) = _
    rw [moved]
    rfl
  rw [state]
  exact .next (returned_of_tokensOf quiet) visible .here

/-- A backslash joins lines at one line end as at the other. -/
theorem joins_withReturns {c : Char} {r : Text} (noReturn : '\r' ∉ r) :
    List.isPrefixOf ['\\', '\r', '\n'] (c :: r) = false ∧
      List.isPrefixOf ['\\', '\n'] (c :: withReturns r) = false ∧
        List.isPrefixOf ['\\', '\r', '\n'] (c :: withReturns r) =
          List.isPrefixOf ['\\', '\n'] (c :: r) := by
  by_cases hc : c = '\\'
  · subst hc
    cases r with
    | nil => exact ⟨rfl, rfl, rfl⟩
    | cons d a =>
      rw [List.mem_cons, not_or] at noReturn
      have other : ∀ w u : Text, List.isPrefixOf ('\\' :: '\r' :: w) ('\\' :: d :: u) = false :=
        fun w u => by
        rw [List.isPrefixOf_cons_cons, List.isPrefixOf_cons_cons, beq_false_of_ne noReturn.1]
        rfl
      -- the backslash joins lines only if a line feed follows it
      by_cases hd : d = '\n'
      · subst hd
        exact ⟨rfl, rfl, rfl⟩
      · have plain : ∀ w u : Text, List.isPrefixOf ('\\' :: '\n' :: w) ('\\' :: d :: u) = false :=
          fun w u => by
          rw [List.isPrefixOf_cons_cons, List.isPrefixOf_cons_cons, beq_false_of_ne (Ne.symm hd)]
          rfl
        rw [withReturns_cons hd, other, other, plain, plain]
        exact ⟨rfl, rfl, rfl⟩
  · have none : ∀ w u : Text, List.isPrefixOf ('\\' :: w) (c :: u) = false := fun w u => by
      rw [List.isPrefixOf_cons_cons, beq_false_of_ne (Ne.symm hc)]
      rfl
    rw [none, none, none, none]
    exact ⟨rfl, rfl, rfl⟩

/-- The end of the program is the same. -/
theorem returned_step_end (hrest : s.cursor.rest = []) :
    s.step.Returned source (s.returned source).step := by
  have hrest' : (s.returned source).cursor.rest = [] := by
    rw [rest_returned, hrest]
    rfl
  unfold step
  rw [hrest, hrest']
  dsimp only
  rw [show (s.returned source).heredocs = s.heredocs from rfl]
  cases s.heredocs with
  | nil => exact returned_finish rfl
  | cons h hs => exact .stop .nil

/-- Before any other character than a line feed or a number sign both walks take the same step. -/
theorem returned_step_char {c : Char} {r : Text} (placed : s.cursor.At source) (visible : s.Visible)
    (plain : Plain (c :: r)) (hrest : s.cursor.rest = c :: r) (hc : c ≠ '\n')
    (uncommented : c ≠ '#') :
    s.step.Returned source (s.returned source).step := by
  have hrest' : (s.returned source).cursor.rest = c :: withReturns r := by
    rw [rest_returned, hrest, withReturns_cons hc]
  -- what decides between the cases of a step is the same with returns
  have begins : wordAhead "=begin" wordEnds (c :: withReturns r) =
      wordAhead "=begin" wordEnds (c :: r) := by
    rw [← withReturns_cons hc]
    exact wordAhead_withReturns (by decide) (by decide) wordEnds_withReturns _
  have mark : wordAhead "__END__" lineEnds (c :: withReturns r) =
      wordAhead "__END__" lineEnds (c :: r) := by
    rw [← withReturns_cons hc]
    exact wordAhead_withReturns (by decide) (by decide) lineEnds_withReturns _
  -- without returns in the source a join is a backslash and a line feed, with them it has a return
  obtain ⟨never, whole, joins⟩ := joins_withReturns (c := c)
    (fun h => plain.noReturn (List.mem_cons_of_mem c h))
  unfold step
  rw [hrest, hrest']
  dsimp only
  rw [begins, mark, never, whole, joins,
    show (s.returned source).cursor.atLineStart = s.cursor.atLineStart from rfl]
  split
  · rw [← withReturns_cons hc, embeddedDocument?_withReturns]
    cases embeddedDocument? (c :: r) with
    | none => exact .stop .nil
    | some document =>
      obtain ⟨n, k⟩ := document
      have moved : (s.returned source).cursor.advance
        (place (c :: r) n + returnAhead ((c :: r).drop n)) =
          (s.cursor.advance n).behindReturn source := by
        rw [← hrest]
        exact Cursor.advance_behindReturn placed n
      dsimp only [Option.map_some]
      rw [moved]
      exact .next (.cons (.same rfl) .nil) visible
        (returned_behindReturn source { s with cursor := s.cursor.advance n })
  split
  · exact returned_finish rfl
  split
  · refine returned_skip visible rfl ?_
    rw [← Cursor.advance_returned_one placed hrest, withReturns_cons hc]
    rfl
  rw [if_neg Bool.false_ne_true, if_neg Bool.false_ne_true]
  split
  · next join =>
    obtain ⟨a, ha⟩ := List.isPrefixOf_iff_prefix.1 join
    refine returned_skip visible rfl ?_
    rw [← Cursor.advance_returned placed, hrest, ← ha]
    rfl
  · next blank _ =>
    have code : isAsciiBlank c = false :=
      Bool.eq_false_iff.2 fun h => blank (isSkipped_of_isAsciiBlank h hc)
    exact returned_readToken placed visible hrest code uncommented plain

/-- What is not a line feed is read at the same place. -/
theorem returned_step (placed : s.cursor.At source) (visible : s.Visible)
    (plain : Plain s.cursor.rest) (hr : s.cursor.rest.head? ≠ some '\n') :
    s.step.Returned source (s.returned source).step := by
  cases hrest : s.cursor.rest with
  | nil => exact returned_step_end hrest
  | cons c r =>
    rw [hrest] at plain hr
    by_cases comment : c = '#'
    · rw [comment] at hrest
      exact returned_comment placed visible hrest
    · exact returned_step_char placed visible plain hrest (fun h => hr (by rw [h]; rfl)) comment

/-- Before a line feed the return is a blank. Behind it the line ends as it does without it. -/
theorem step_returned_lineFeed (placed : s.cursor.At source) (visible : s.Visible)
    (hr : s.cursor.rest.head? = some '\n') :
    (s.returned source).step = .next [] { s.behindReturn source with spaced := true } ∧
      ∀ spaced, s.step.Returned source (step { s.behindReturn source with spaced := spaced }) := by
  obtain ⟨r, hrest⟩ := List.head?_eq_some_iff.1 hr
  constructor
  · have before : (s.returned source).cursor.rest = '\r' :: '\n' :: withReturns r := by
      rw [rest_returned, hrest]
      rfl
    rw [step_of_blank before (by decide)]
    unfold skip behindReturn Cursor.behindReturn
    rw [returnAhead, if_pos hr]
    rfl
  · intro spaced
    have behind : (s.cursor.behindReturn source).rest = '\n' :: withReturns r := by
      rw [Cursor.behindReturn_of_lineFeed hrest]
    rw [step_of_lineFeed hrest,
      step_of_lineFeed (s := { s.behindReturn source with spaced := spaced }) behind]
    exact returned_takeNewline (s := s.unnamed) placed visible hr

/-! ## Whole walks -/

/-- Two steps that match are the start of two walks that match, if what follows them does. -/
theorem returned_of_steps {t : Tokenizer} (steps : s.step.Returned source t.step)
    (later : ∀ found u, s.step = .next found u → u.Visible → ∀ v, u.Returned source v →
      u.run.Returned source v.run) : s.run.Returned source t.run := by
  cases hs : s.step with
  | stop found ending =>
    rw [hs] at steps
    generalize ht : t.step = other at steps
    cases steps with
    | stop finds =>
      rw [run_of_stop hs, run_of_stop ht]
      exact ⟨finds, rfl⟩
  | next found u =>
    have rest := later found u hs
    rw [hs] at steps
    generalize ht : t.step = other at steps
    cases steps with
    | next finds visible state =>
      obtain ⟨others, ending⟩ := rest visible _ state
      rw [run_of_next hs, run_of_next ht]
      exact ⟨List.rel_append finds others, ending⟩

/-- A state that has not passed the return yet passes it first. -/
theorem returned_of_state {t : Tokenizer} (placed : s.Placed source) (visible : s.Visible)
    (plain : Plain s.cursor.rest) (state : s.Returned source t)
    (later : ∀ found u, s.step = .next found u → u.Visible → ∀ v, u.Returned source v →
      u.run.Returned source v.run) : s.run.Returned source t.run := by
  cases state with
  | behind spaced h =>
    exact returned_of_steps ((step_returned_lineFeed placed.cursor visible h).2 spaced) later
  | here =>
    by_cases h : s.cursor.rest.head? = some '\n'
    · obtain ⟨pass, steps⟩ := step_returned_lineFeed placed.cursor visible h
      rw [run_of_next pass]
      exact returned_of_steps (steps true) later
    · exact returned_of_steps (returned_step placed.cursor visible plain h) later

/-- The two walks find the same, and they end the same way. -/
theorem returned_run {t : Tokenizer} (placed : s.Placed source) (visible : s.Visible)
    (plain : Plain s.cursor.rest) (state : s.Returned source t) : s.run.Returned source t.run := by
  induction s using walk_induction generalizing t with
  | stop s found ending hstep =>
    refine returned_of_state placed visible plain state fun more u h => ?_
    rw [hstep] at h
    cases h
  | next s found u hstep ih =>
    refine returned_of_state placed visible plain state fun more v h visible w state => ?_
    have sound := sound_step placed
    have suffix := (next_cases hstep).2.1.1
    rw [hstep] at h sound
    cases h
    exact ih sound.1 visible (plain.of_suffix suffix) state

end Tokenizer

/-- A program with returns is cut into the same tokens. -/
theorem returned_tokenize (plain : Plain source) :
    (tokenize source).Returned source (tokenize (withReturns source)) := by
  have start : Tokenizer.ofSource (withReturns source) =
      (Tokenizer.ofSource source).returned source := by
    unfold Tokenizer.ofSource
    rw [lineCount_withReturns]
    rfl
  unfold tokenize
  rw [start]
  exact Tokenizer.returned_run (Tokenizer.placed_ofSource source) (fun _ h => nomatch h) plain .here

namespace Tokenization

variable {a b : Tokenization}

/-- The tokens are those of the program, with the returns in them. -/
theorem Returned.tokens (h : a.Returned source b) :
    List.Forall₂ (Token.Returned source) a.tokens b.tokens := by
  rw [tokens_eq, tokens_eq]
  have finds := h.found
  generalize a.found = found, b.found = more at finds
  induction finds with
  | nil => exact .nil
  | cons first _ ih =>
    cases first with
    | token hk => exact .cons hk ih
    | same none =>
      unfold tokensOf at ih ⊢
      rw [List.filterMap_cons_none none, List.filterMap_cons_none none]
      exact ih

/-- The stretches of lines that do not end in code are the same. -/
theorem Returned.sealedLines (h : a.Returned source b) : b.sealedLines = a.sealedLines := by
  unfold Tokenization.sealedLines
  have finds := h.found
  generalize a.found = found, b.found = more at finds
  induction finds with
  | nil => rfl
  | cons first _ ih =>
    cases first with
    | token hk => exact ih
    | same none => rw [List.filterMap_cons, List.filterMap_cons, ih]

end Tokenization

end Marginalia.Source
