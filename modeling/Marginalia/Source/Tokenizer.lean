import Marginalia.Source.Lexeme
import Marginalia.Source.SyntaxError

/-!
# The tokenizer

A machine that walks over a program. Its state is the place it has come to, what it remembers of the
tokens so far, the here-documents whose bodies are still to come, and a stack of literals that are
suspended while the code of one of their interpolations is read. `Tokenizer.step` takes one blank,
one token, or one stretch of a literal; every step that goes on consumes at least one character
(`rest_lt_of_step`), which is why `Tokenizer.run` ends.
-/

namespace Marginalia.Source

/-! ## Places in a program -/

/-- A place in a program: what follows it, and where it is. -/
structure Cursor where
  rest : Text
  /-- How many characters precede. -/
  position : Nat
  line : Nat
  /-- Whether nothing or a line feed directly precedes. -/
  atLineStart : Bool
  deriving DecidableEq, Repr

namespace Cursor

/-- The start of a program. -/
def ofSource (source : Text) : Cursor := ⟨source, 0, 1, true⟩

/-- Moves over `n` characters, counting line feeds. -/
def advance : Nat → Cursor → Cursor
  | 0, c => c
  | n + 1, c =>
    match c.rest with
    | [] => c
    | x :: r => advance n ⟨r, c.position + 1, if x == '\n' then c.line + 1 else c.line, x == '\n'⟩

/-- What is left behind an advance. -/
theorem rest_advance (n : Nat) (c : Cursor) : (c.advance n).rest = c.rest.drop n := by
  induction n generalizing c with
  | zero => rfl
  | succ n ih =>
    unfold advance
    split
    · next h => simp [h]
    · next h => simp [ih, h]

end Cursor

/-! ## Here-documents and other lines that are not code -/

/-- Lines `first` to `last`, both included. -/
structure LineRange where
  first : Nat
  last : Nat
  deriving DecidableEq, Repr

/-- Whether a line is in a range. -/
def LineRange.contains (r : LineRange) (line : Nat) : Bool := r.first ≤ line && line ≤ r.last

/-- A here-document whose opener has been read. -/
structure Heredoc where
  /-- The text of the line that ends it. -/
  id : Text
  /-- Whether blanks may stand around that text. -/
  indented : Bool
  /-- The line of the opener. -/
  line : Nat
  deriving DecidableEq, Repr

/-- Whether a line, given with its end, closes a here-document. -/
def Heredoc.closedBy (h : Heredoc) (piece : Text) : Bool :=
  let content := Text.lineText piece
  if h.indented then Text.trim content == h.id else content == h.id

/-- The body of a here-document at the start of a text: its length and its number of lines, the
closing line included. -/
def Heredoc.body? (h : Heredoc) (t : Text) : Option (Nat × Nat) :=
  let ps := Text.pieces t
  (ps.findIdx? h.closedBy).map fun k => ((ps.take (k + 1)).flatten.length, k + 1)

/-- A blank or the end of the text follows. -/
def wordEnds : Text → Bool
  | [] => true
  | c :: _ => c == ' ' || c == '\t' || c == '\r' || c == '\n'

/-- The end of the line or of the text follows. -/
def lineEnds : Text → Bool
  | [] => true
  | c :: _ => c == '\r' || c == '\n'

/-- Whether a text starts with a word that ends as the test says. -/
def wordAhead (w : String) (ends : Text → Bool) (t : Text) : Bool :=
  (w.toList.isPrefixOf? t).any ends

/-- The length of an embedded document `=begin … =end` without the last line feed, and on which of
its lines, counted from 0, it ends. -/
def embeddedDocument? (t : Text) : Option (Nat × Nat) :=
  match Text.pieces t with
  | [] => none
  | p :: ps =>
    match ps.findIdx? (wordAhead "=end" wordEnds) with
    | none => none
    | some k =>
      let last := (ps[k]?.getD []).takeWhile (· != '\n')
      some (((p :: ps.take k).flatten).length + last.length, k + 1)

theorem length_pos_of_embeddedDocument? {c : Char} {r : Text} {length lines : Nat}
    (h : embeddedDocument? (c :: r) = some (length, lines)) : 0 < length := by
  unfold embeddedDocument? at h
  split at h
  · cases h
  · next p ps hp =>
    have := Text.ne_nil_of_mem_pieces (t := c :: r) (p := p) (by rw [hp]; exact List.mem_cons_self)
    have := List.length_pos_iff.2 this
    split at h
    · cases h
    · simp only [Option.some.injEq, Prod.mk.injEq] at h
      simp only [List.flatten_cons, List.length_append] at h
      omega

/-! ## States -/

/-- A literal that is being read. -/
structure OpenLiteral where
  /-- The program from the start of the literal on. -/
  source : Text
  start : Nat
  line : Nat
  delimiters : Delimiters
  /-- Letters after its end belong to it. -/
  flags : Bool
  /-- How many nested openers are unclosed. -/
  depth : Nat := 0
  /-- Whether a character class is open. -/
  inClass : Bool := false
  /-- How many braces are unclosed in the interpolation that is being read. -/
  braces : Nat := 0
  /-- The here-documents that were pending where the interpolation started. -/
  pending : List Heredoc := []
  deriving DecidableEq, Repr

/-- What the tokenizer comes across. -/
inductive Finding where
  /-- A token of the program itself, not of the inside of a literal. -/
  | token (t : Token)
  /-- A stretch of lines that do not end in code. -/
  | sealed (lines : LineRange)
  | heredocOpened (h : Heredoc)
  /-- The body of a here-document, up to the line that ends it. -/
  | heredocRead (h : Heredoc) (lines : LineRange)
  deriving DecidableEq, Repr

/-- How tokenizing ends. -/
inductive Ending where
  | complete
  | refused (e : SyntaxError)
  | broken (f : Fault)
  deriving DecidableEq, Repr

/-- The state of the tokenizer. -/
structure Tokenizer where
  cursor : Cursor
  /-- Blanks precede the place. -/
  spaced : Bool := false
  memory : Memory := {}
  /-- Here-documents whose bodies start after the current line, first opened first. -/
  heredocs : List Heredoc := []
  /-- Literals in whose interpolations the place is, innermost first. -/
  suspended : List OpenLiteral := []
  /-- How many lines the program has. -/
  lineCount : Nat
  deriving DecidableEq, Repr

/-- The outcome of a step: what was found, and the next state or the end. -/
inductive Step where
  | next (found : List Finding) (state : Tokenizer)
  | stop (found : List Finding) (ending : Ending)
  deriving DecidableEq, Repr

/-- Whether a step ends the walk or leaves at most `n` characters to read. -/
def Step.Within (n : Nat) : Step → Prop
  | .next _ s => s.cursor.rest.length ≤ n
  | .stop _ _ => True

/-- Adds what was found before. -/
def Step.prepend (found : List Finding) : Step → Step
  | .next more state => .next (found ++ more) state
  | .stop more ending => .stop (found ++ more) ending

theorem Step.Within.mono {m n : Nat} {s : Step} (h : s.Within m) (hmn : m ≤ n) : s.Within n := by
  cases s with
  | next found state => exact Nat.le_trans (show state.cursor.rest.length ≤ m from h) hmn
  | stop => trivial

theorem Step.within_prepend {n : Nat} {s : Step} (found : List Finding) (h : s.Within n) :
    (s.prepend found).Within n := by
  cases s <;> exact h

/-- Everything the tokenizer finds in a program, in order, and how it ends. -/
structure Tokenization where
  found : List Finding
  ending : Ending
  deriving DecidableEq, Repr

namespace Tokenizer

/-- The state at the start of a program. -/
def ofSource (source : Text) : Tokenizer :=
  { cursor := .ofSource source, lineCount := Text.lineCount source }

/-- Stops with a refusal. -/
def refuse (found : List Finding) (line : Nat) (fault : SyntaxFault) : Step :=
  .stop found (.refused { line := line, fault := fault })

/-- The token from the place of one state to the place of a later cursor. -/
def cut (s : Tokenizer) (kind : TokenKind) (text : Text) (behind : Cursor) : Token :=
  { kind, text, start := s.cursor.position, stop := behind.position, line := s.cursor.line,
    endLine := behind.line, after := behind.rest }

/-- Takes note of a token that ends at the place of the state. Only a token outside of all literals
is a finding. -/
def record (s : Tokenizer) (t : Token) : Step :=
  .next (if s.suspended.isEmpty then [.token t] else [])
    { s with spaced := false, memory := s.memory.note t }

/-- Reads on in a literal, whose opener or interpolation ends at the place of the state. -/
def readLiteral (s : Tokenizer) (l : OpenLiteral) : Step :=
  match l.delimiters.read l.depth l.inClass s.cursor.rest with
  | .closed length =>
    let behind := s.cursor.advance length
    let behind := if l.flags then behind.advance (run Char.isAlpha behind.rest) else behind
    let t : Token :=
      { kind := .literal, text := l.source.take (behind.position - l.start), start := l.start,
        stop := behind.position, line := l.line, endLine := behind.line, after := behind.rest }
    { s with cursor := behind }.record t
  | .interpolation length depth inClass =>
    let l := { l with depth := depth, inClass := inClass, braces := 0, pending := s.heredocs }
    .next []
      { s with
        cursor := s.cursor.advance length
        spaced := false
        memory := s.memory.enterInterpolation
        heredocs := []
        suspended := l :: s.suspended }
  | .unterminated => refuse [] l.line .unterminatedLiteral
  | .split => .stop [] (.broken (.splitCharacter l.start))

/-- Takes note of a token that ends at the place of the state. In an interpolation braces are
counted, and the brace that closes it leads back into the literal. -/
def settle (s : Tokenizer) (t : Token) : Step :=
  match s.suspended with
  | [] => s.record t
  | l :: outer =>
    if t.isPunct leftBrace then
      { s with suspended := { l with braces := l.braces + 1 } :: outer }.record t
    else if t.isPunct rightBrace then
      match l.braces with
      -- this brace closes the interpolation
      | 0 =>
        { s with suspended := outer, heredocs := l.pending, memory :=
          s.memory.note t }.readLiteral l
      | n + 1 => { s with suspended := { l with braces := n } :: outer }.record t
    else s.record t

/-- The place behind a token of `more` characters after its first. A variable never ends a line, so
that a line feed taken by `$-` is not counted. -/
def behind (s : Tokenizer) (kind : TokenKind) (more : Nat) : Cursor :=
  let place := s.cursor.advance (more + 1)
  if kind == .var then { place with line := s.cursor.line } else place

/-- Takes a token of `more` characters after its first. -/
def take (s : Tokenizer) (kind : TokenKind) (more : Nat) : Step :=
  let place := s.behind kind more
  { s with cursor := place }.settle (s.cut kind (s.cursor.rest.take (more + 1)) place)

/-- Reads the bodies of here-documents from what follows, where line `line` starts. The result tells
how many characters and how many lines they take, or which here-document has no end. -/
def readBodies : List Heredoc → Nat → Text → List Finding × Except Heredoc (Nat × Nat)
  | [], _, _ => ([], .ok (0, 0))
  | h :: hs, line, t =>
    match h.body? t with
    | none => ([], .error h)
    | some (length, lines) =>
      let (found, taken) := readBodies hs (line + lines) (t.drop length)
      (.heredocRead h ⟨line, line + lines - 1⟩ :: found,
        taken.map fun more => (length + more.1, lines + more.2))

/-- Takes a line feed, with the bodies of the here-documents that start after it. -/
def takeNewline (s : Tokenizer) : Step :=
  let below := s.cursor.advance 1
  let (bodies, taken) := readBodies s.heredocs below.line below.rest
  match taken with
  | .error h => refuse bodies h.line (.unterminatedHeredoc h.id)
  | .ok (length, lines) =>
    -- a closing line without a line feed counts as a line of its own
    let behind := { below.advance length with line := below.line + lines }
    ({ s with cursor := behind, heredocs := [] }.record (s.cut .newline ['\n'] behind)).prepend
      bodies

/-- Reads what starts with `c`, which is no blank. -/
def readLexeme (s : Tokenizer) (c : Char) (r : Text) : Step :=
  match Lexeme.read s.memory s.spaced c r with
  | .token kind more => s.take kind more
  | .newline => s.takeNewline
  | .delimited more delimiters flags =>
    { s with cursor := s.cursor.advance (more + 1) }.readLiteral
      { source := s.cursor.rest, start := s.cursor.position, line := s.cursor.line,
        delimiters := delimiters, flags := flags }
  | .heredoc more id indented =>
    let h : Heredoc := ⟨id, indented, s.cursor.line⟩
    ({ s with heredocs := s.heredocs ++ [h] }.take .literal more).prepend [.heredocOpened h]
  | .brokenHeredoc => refuse [] s.cursor.line .unterminatedHeredocName
  | .split => .stop [] (.broken (.splitCharacter s.cursor.position))

/-- Reads what starts with `c`, which is no blank. Behind `def` the name of the method comes
first. -/
def readToken (s : Tokenizer) (c : Char) (r : Text) : Step :=
  if s.memory.namesMethod then
    match Lexeme.methodName? c r with
    | some (kind, more, pending) =>
      { s with memory := { s.memory with namesMethod := pending } }.take kind more
    | none =>
      { s with spaced := false, memory := { s.memory with namesMethod := false } }.readLexeme c r
  else s.readLexeme c r

/-- The program ends, by its length or by `__END__`. Inside an interpolation this is a refusal. -/
def finish (s : Tokenizer) (found : List Finding) : Step :=
  match s.suspended with
  | [] => .stop (found ++ [.token (s.cut .eof [] s.cursor)]) .complete
  | l :: _ => refuse found l.line .unterminatedInterpolation

/-- Moves over `n` characters that separate tokens. -/
def skip (s : Tokenizer) (n : Nat) : Tokenizer :=
  { s with cursor := s.cursor.advance n, spaced := true }

/-- One step. -/
def step (s : Tokenizer) : Step :=
  match s.cursor.rest with
  | [] =>
    match s.heredocs with
    | h :: _ => refuse [] h.line (.unterminatedHeredoc h.id)
    | [] => s.finish []
  | c :: r =>
    let here := s.cursor.line
    -- an embedded document and the end mark count at the start of a line only
    if s.cursor.atLineStart && wordAhead "=begin" wordEnds (c :: r) then
      match embeddedDocument? (c :: r) with
      | some (length, lines) =>
        .next [.sealed ⟨here, here + lines⟩] { s with cursor := s.cursor.advance length }
      | none => refuse [] here .unterminatedDocument
    else if s.cursor.atLineStart && wordAhead "__END__" lineEnds (c :: r) then
      s.finish [.sealed ⟨here, max s.lineCount here⟩]
    else if c == ' ' || c == '\t' || c == '\r' || c == '\x0c' then .next [] (s.skip 1)
    else if ['\\', '\n'].isPrefixOf (c :: r) then .next [.sealed ⟨here, here⟩] (s.skip 2)
    else if ['\\', '\r', '\n'].isPrefixOf (c :: r) then .next [.sealed ⟨here, here⟩] (s.skip 3)
    else s.readToken c r

/-! ## Every step consumes something -/

theorem rest_record (s : Tokenizer) (t : Token) :
    (s.record t).Within s.cursor.rest.length := Nat.le_refl _

/-- Reading a literal on leaves no more than there was. -/
theorem rest_readLiteral_le (s : Tokenizer) (l : OpenLiteral) :
    (s.readLiteral l).Within s.cursor.rest.length := by
  unfold readLiteral
  split
  · dsimp only [record, Step.Within]
    split
    · simp only [Cursor.rest_advance, List.length_drop]
      omega
    · simp only [Cursor.rest_advance, List.length_drop]
      exact Nat.sub_le ..
  · simp [Step.Within, Cursor.rest_advance]
  · trivial
  · trivial

/-- A token that settles leaves no more than there was. -/
theorem rest_settle_le (s : Tokenizer) (t : Token) :
    (s.settle t).Within s.cursor.rest.length := by
  unfold settle
  split
  · exact rest_record ..
  · split
    · exact rest_record ..
    · split
      · split
        · exact rest_readLiteral_le ..
        · exact rest_record ..
      · exact rest_record ..

/-- What is left behind a token. -/
theorem rest_behind (s : Tokenizer) (kind : TokenKind) (more : Nat) :
    (s.behind kind more).rest = s.cursor.rest.drop (more + 1) := by
  unfold behind
  dsimp only
  split <;> simp [Cursor.rest_advance]

/-- A token that is taken leaves less. -/
theorem rest_take_lt (s : Tokenizer) (kind : TokenKind) (more : Nat) :
    (s.take kind more).Within (s.cursor.rest.length - 1) := by
  refine (rest_settle_le ..).mono ?_
  simp [rest_behind]
  omega

/-- An end of a line leaves less. -/
theorem rest_takeNewline_lt (s : Tokenizer) :
    s.takeNewline.Within (s.cursor.rest.length - 1) := by
  unfold takeNewline
  dsimp only
  split
  · trivial
  · refine Step.within_prepend _ ((rest_record ..).mono ?_)
    simp [Cursor.rest_advance]
    omega

/-- What a character starts leaves less. -/
theorem rest_readLexeme_lt (s : Tokenizer) (c : Char) (r : Text) :
    (s.readLexeme c r).Within (s.cursor.rest.length - 1) := by
  unfold readLexeme
  split
  · exact rest_take_lt ..
  · exact rest_takeNewline_lt s
  · refine (rest_readLiteral_le ..).mono ?_
    simp [Cursor.rest_advance]
    omega
  · exact Step.within_prepend _ (rest_take_lt ..)
  · trivial
  · trivial

/-- A token leaves less. -/
theorem rest_readToken_lt (s : Tokenizer) (c : Char) (r : Text) :
    (s.readToken c r).Within (s.cursor.rest.length - 1) := by
  unfold readToken
  split
  · split
    · exact rest_take_lt ..
    · exact rest_readLexeme_lt ..
  · exact rest_readLexeme_lt ..

/-- The end of the walk leaves nothing to be read. -/
theorem finish_within (s : Tokenizer) (found : List Finding) (n : Nat) :
    (s.finish found).Within n := by
  unfold finish
  split <;> trivial

/-- A step that goes on leaves less to read. -/
theorem rest_lt_of_step {s t : Tokenizer} {found : List Finding} (h : s.step = .next found t) :
    t.cursor.rest.length < s.cursor.rest.length := by
  -- every case of a step reads a character, apart from those that stop
  have within : s.step.Within (s.cursor.rest.length - 1) := by
    unfold step
    split
    · split
      · trivial
      · exact finish_within ..
    · next c r hr =>
      dsimp only
      split
      · split
        · next he =>
          have := length_pos_of_embeddedDocument? he
          simp [Step.Within, Cursor.rest_advance, hr]; omega
        · trivial
      · split
        · exact finish_within ..
        · split
          · simp [Step.Within, skip, Cursor.rest_advance, hr]
          · split
            · simp [Step.Within, skip, Cursor.rest_advance, hr]
            · split
              · simp [Step.Within, skip, Cursor.rest_advance, hr]
              · exact rest_readToken_lt s c r
  have nonempty : s.cursor.rest ≠ [] := by
    intro hr
    unfold step at h
    rw [hr] at h
    dsimp only at h
    split at h
    · cases h
    · unfold finish at h
      split at h <;> cases h
  rw [h] at within
  have := List.length_pos_iff.2 nonempty
  have : t.cursor.rest.length ≤ s.cursor.rest.length - 1 := within
  omega

/-- Walks on to the end of the program. -/
def run (s : Tokenizer) : Tokenization :=
  match h : s.step with
  | .stop found ending => ⟨found, ending⟩
  | .next found t =>
    have := rest_lt_of_step h
    let tail := run t
    ⟨found ++ tail.found, tail.ending⟩
termination_by s.cursor.rest.length

end Tokenizer

/-- Everything the tokenizer finds in a program. -/
def tokenize (source : Text) : Tokenization := (Tokenizer.ofSource source).run

namespace Tokenization

/-- The tokens of the program, in order. -/
def tokens (t : Tokenization) : List Token :=
  t.found.filterMap fun
    | .token token => some token
    | _ => none

/-- The stretches of lines that do not end in code, in the order in which they were passed. Literals
over several lines are not among them. -/
def sealedLines (t : Tokenization) : List LineRange :=
  t.found.filterMap fun
    | .sealed lines => some lines
    | .heredocRead _ lines => some lines
    | _ => none

end Tokenization

end Marginalia.Source
