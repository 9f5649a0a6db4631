import Marginalia.Source.Tokenizer

/-!
# Layout

What annotating needs to know about the lines of a program: which of them end in code, so that a
comment may be appended, and which have a comment.
-/

namespace Marginalia.Source

/-- A comment. Positions count characters; `stop` is the position after its last one. -/
structure Comment where
  line : Nat
  start : Nat
  stop : Nat
  deriving DecidableEq, Repr

/-- The lines of a program. -/
structure Layout where
  /-- How many lines there are; an empty program has one. -/
  lineCount : Nat
  /-- Stretches of lines that do not end in code. -/
  sealedLines : List LineRange
  comments : List Comment
  deriving DecidableEq, Repr

namespace Layout

/-- The layout of a program that cannot be read: no line of it is known to end in code. -/
def unknown : Layout := ⟨0, [], []⟩

/-- Whether a line, counted from 1, ends in code. -/
def endsInCode (l : Layout) (line : Nat) : Bool :=
  1 ≤ line && line ≤ l.lineCount && l.sealedLines.all fun r => !r.contains line

/-- The first comment recorded for a line. -/
def commentOn (l : Layout) (line : Nat) : Option Comment :=
  l.comments.find? fun c => c.line == line

end Layout

/-- The lines in which a literal of several lines is open at the end. -/
def literalLines (t : Token) : Option LineRange :=
  if t.kind == .literal && t.line < t.endLine then some ⟨t.line, t.endLine - 1⟩ else none

/-- The layout of a tokenized program, given its comments. -/
def Layout.ofTokens (source : Text) (t : Tokenization) (comments : List Comment) : Layout :=
  { lineCount := max 1 (Text.lineCount source)
    sealedLines := t.tokens.filterMap literalLines ++ t.sealedLines
    comments := comments }

end Marginalia.Source
