import Marginalia.Source.Scanner

/-!
# Two scanners that do the same

The scanner is compared with itself on programs that differ in their blanks, in their comments, or
in the brackets around them. What two states have in common, and what two tokens, is another thing
each time; which branch the scanner takes for a token is not. `Scanner.Simulation` lists what the
states and the tokens owe: the questions that have the same answer and the single moves that keep
the states alike. From it the walk through the branches is done once (`Scanner.Simulation.code`).
-/

namespace Marginalia.Source

/-- Words for a condition. They open a body, or they are modifiers. -/
def Keyword.isCondition : Keyword → Bool
  | .ifWord | .unlessWord | .whileWord | .untilWord => true
  | _ => false

/-- The header of a body with more brackets around it. -/
def Header.within (n : Nat) : Header → Header
  | .params depth => .params (depth + n)
  | h => h

theorem Header.within_zero (h : Header) : h.within 0 = h := by cases h <;> rfl

theorem Header.within_of_ne {h : Header} (n : Nat) (free : ∀ depth, h ≠ .params depth) :
    h.within n = h := by
  cases h with
  | params depth => exact absurd rfl (free depth)
  | _ => rfl

/-- A question about the header has the same answer, unless it is about the parentheses of
parameters. -/
theorem Header.within_beq {h header : Header} (n : Nat) (free : ∀ depth, header ≠ .params depth) :
    (h.within n == header) = (h == header) := by
  cases header with
  | params depth => exact absurd rfl (free depth)
  | _ => cases h <;> rfl

namespace Scanner

variable {n : Nat} {R : Scanner → Scanner → Prop}
  {O : Except SyntaxError Scanner → Except SyntaxError Scanner → Prop} {a b : Scanner} {t k : Token}

/-- The token `k` is to the second scanner what `t` is to the first. Of states that `R` relates, the
second has `n` brackets more, and `O` relates the answers. -/
structure Simulation (n : Nat) (R : Scanner → Scanner → Prop)
    (O : Except SyntaxError Scanner → Except SyntaxError Scanner → Prop) (t k : Token) : Prop where
  kind : k.kind = t.kind
  isPunct : ∀ w, k.isPunct w = t.isPunct w
  ok : ∀ {a b}, R a b → O (.ok a) (.ok b)
  header : ∀ {a b}, R a b → b.top.header = a.top.header.within n
  length : ∀ {a b}, R a b → b.brackets.length = a.brackets.length + n
  -- the program itself has no clauses, so that what is asked of its statements does not count
  clauseHere : ∀ {a b}, R a b → ∀ p : BlockKind → Bool, p .program = false →
    (p b.top.kind && b.betweenStatements) = (p a.top.kind && a.betweenStatements)
  headerEnds : ∀ {a b}, R a b →
    (b.top.header == .line && b.atFrameLevel) = (a.top.header == .line && a.atFrameLevel)
  awaitsDo : ∀ {a b}, R a b → b.awaitsDo = a.awaitsDo
  condition : ∀ {a b}, R a b → ∀ w, t.kind = .keyword w → w.isCondition →
    b.atExpressionStart = a.atExpressionStart
  block : ∀ {a b}, R a b → t.isPunct leftBrace →
    (b.last.any (fun l => l.token.allowsBlock) && bodyBelow k.after) =
      (a.last.any (fun l => l.token.allowsBlock) && bodyBelow t.after)
  touch : ∀ {a b}, R a b → R (a.touch t) (b.touch k)
  setHeader : ∀ {a b}, R a b → ∀ h, (∀ depth, h ≠ .params depth) → a.top.header ≠ .body ∨
    h = .body →
    R (a.setHeader h) (b.setHeader h)
  dropFrame : ∀ {a b}, R a b → R a.dropFrame b.dropFrame
  openBracket : ∀ {a b}, R a b → ∀ x, R (a.openBracket x t) (b.openBracket x k)
  openParams : ∀ {a b}, R a b → a.top.header = .afterName →
    R ((a.openBracket .paren t).setHeader (.params (a.brackets.length + 1)))
      ((b.openBracket .paren k).setHeader (.params (b.brackets.length + 1)))
  closeParams : ∀ {a b}, R a b → a.top.header = .params a.brackets.length →
    R (a.dropBracket.setHeader .afterParams) (b.dropBracket.setHeader .afterParams)
  -- the brace of a block is a bracket of its own
  enter : ∀ {a b}, R a b → ∀ kind h, kind ≠ .program → (∀ depth, h ≠ .params depth) →
    (kind = .braceBlock → a.brackets ≠ []) →
    R { a with top := ⟨kind, t.line, a.brackets.length, h, none⟩, below := a.top :: a.below }
      { b with top := ⟨kind, k.line, b.brackets.length, h, none⟩, below := b.top :: b.below }
  closeFrame : ∀ {a b}, R a b → t.kind = .keyword .endWord → O (a.closeFrame t) (b.closeFrame k)
  clause : ∀ {a b}, R a b → ∀ w h, t.kind = .keyword w → (∀ depth, h ≠ .params depth) →
    O (a.clause t h) (b.clause k h)
  closeBracket : ∀ {a b}, R a b → ∀ w x, t.isPunct w → O (a.closeBracket x t) (b.closeBracket x k)
  closeBrace : ∀ {a b}, R a b → t.isPunct rightBrace → O (a.closeBrace t) (b.closeBrace k)

namespace Simulation

variable (sim : Simulation n R O t k) (h : R a b)

include sim h

/-- The innermost frames are in the same part of their headers. -/
theorem header_beq (header : Header) (free : ∀ depth, header ≠ .params depth) :
    (b.top.header == header) = (a.top.header == header) := by
  rw [sim.header h, Header.within_beq n free]

/-- Frames are opened on both sides. -/
theorem openFrame {kind : BlockKind} {header : Header}
    (inner : kind ≠ .program ∧ kind ≠ .braceBlock) (free : ∀ depth, header ≠ .params depth) :
    R (a.openFrame kind t header) (b.openFrame kind k header) :=
  sim.enter (sim.touch h) kind header inner.1 free fun brace => absurd brace inner.2

/-- A reserved word is taken alike. -/
theorem word {w : Keyword} (hw : t.kind = .keyword w) : O (a.word w t) (b.word w k) := by
  have touched := sim.ok (sim.touch h)
  have body : R (a.setHeader .body) (b.setHeader .body) := sim.setHeader h .body nofun (.inr rfl)
  have opens {kind : BlockKind} {header : Header} (inner : kind ≠ .program ∧ kind ≠ .braceBlock)
      (free : ∀ depth, header ≠ .params depth) :
      O (.ok (a.openFrame kind t header)) (.ok (b.openFrame kind k header)) :=
    sim.ok (sim.openFrame h inner free)
  have modifies {kind : BlockKind} (inner : kind ≠ .program ∧ kind ≠ .braceBlock)
      (condition : w.isCondition) :
      O (.ok (if a.atExpressionStart then a.openFrame kind t .line else a.touch t))
        (.ok (if b.atExpressionStart then b.openFrame kind k .line else b.touch k)) := by
    rw [sim.condition h w hw condition]
    split
    · exact opens inner nofun
    · exact touched
  unfold Scanner.word
  -- each keyword is one of the moves above, by the same test on both sides
  cases w with
  | endWord => exact sim.closeFrame h hw
  | elseWord | ensureWord | elsifWord | whenWord => exact sim.clause h _ _ hw nofun
  | rescueWord =>
    dsimp only
    rw [sim.clauseHere h acceptsRescue rfl]
    split
    · exact sim.clause h _ _ hw nofun
    · exact touched
  | inWord =>
    dsimp only
    rw [sim.clauseHere h (· == .caseBody) rfl]
    split
    · exact sim.clause h _ _ hw nofun
    · exact touched
  | thenWord =>
    dsimp only
    rw [sim.headerEnds h]
    split
    · exact sim.ok body
    · exact sim.ok h
  | doWord =>
    dsimp only
    rw [sim.awaitsDo h]
    split
    · exact sim.ok body
    · exact opens (by decide) nofun
  | ifWord | unlessWord | whileWord | untilWord => exact modifies (by decide) rfl
  | defWord | classWord | moduleWord | caseWord | forWord | beginWord =>
    exact opens (by decide) nofun
  | _ => exact touched

/-- Braces are opened on both sides. -/
theorem openBrace (brace : t.isPunct leftBrace) : R (a.openBrace t) (b.openBrace k) := by
  have opened := sim.openBracket (sim.touch h) .brace
  unfold Scanner.openBrace
  rw [sim.block h brace]
  split
  · exact sim.enter opened .braceBlock .blockStart nofun nofun fun _ => List.cons_ne_nil _ _
  · exact opened

/-- Any other token is read on both sides. -/
theorem plain : O (a.plain t) (b.plain k) := by
  have touched := sim.touch h
  unfold Scanner.plain
  rw [sim.kind]
  split
  · next w eq => exact sim.word h eq
  · rw [sim.isPunct, sim.isPunct, sim.isPunct, sim.isPunct, sim.isPunct, sim.isPunct]
    split
    · next brace => exact sim.ok (sim.openBrace h brace)
    split
    · next brace => exact sim.closeBrace h brace
    split
    · exact sim.ok (sim.openBracket touched .paren)
    split
    · exact sim.ok (sim.openBracket touched .square)
    split
    · next paren => exact sim.closeBracket h _ .paren paren
    split
    · next square => exact sim.closeBracket h _ .square square
    · exact sim.ok touched

/-- The start of a block is read on both sides. -/
theorem blockStart : O (a.blockStart t) (b.blockStart k) := by
  unfold Scanner.blockStart
  rw [sim.header_beq h .blockStart nofun, sim.isPunct]
  split
  · next start =>
    split
    · exact sim.ok (sim.setHeader h .line nofun (.inl (by rw [beq_iff_eq.1 start]; decide)))
    · exact sim.plain (sim.setHeader h .body nofun (.inr rfl))
  · exact sim.plain h

/-- A token of code is taken alike. -/
theorem code : O (a.code t) (b.code k) := by
  have level (depth : Nat) :
      (b.brackets.length == depth + n) = (a.brackets.length == depth) := by
    rw [sim.length h, Bool.eq_iff_iff, beq_iff_eq, beq_iff_eq]
    exact Nat.add_right_cancel_iff
  -- behind the name of a method, its header goes on to the end of the line
  have behind (header : a.top.header ≠ .body) :
      O ((a.setHeader .line).blockStart t) ((b.setHeader .line).blockStart k) :=
    sim.blockStart (sim.setHeader h .line nofun (.inl header))
  -- behind a definition without an end, the statement around it goes on
  have assigned : O (a.dropFrame.blockStart t) (b.dropFrame.blockStart k) :=
    sim.blockStart (sim.dropFrame h)
  unfold Scanner.code
  rw [sim.header h, sim.isPunct, sim.isPunct, sim.isPunct, sim.kind]
  cases header : a.top.header with
  | methodName =>
    dsimp only [Header.within]
    split
    · exact sim.ok (sim.setHeader h .afterName nofun (.inl (by rw [header]; decide)))
    · exact sim.ok h
  | afterName =>
    dsimp only [Header.within]
    split
    · exact sim.ok (sim.openParams h header)
    · split
      · exact assigned
      · exact behind (by rw [header]; decide)
  | afterParams =>
    dsimp only [Header.within]
    split
    · exact assigned
    · exact behind (by rw [header]; decide)
  | params depth =>
    dsimp only [Header.within]
    rw [level]
    split
    · next closing =>
      have closing := beq_iff_eq.1 (Bool.and_eq_true_iff.1 closing).2
      exact sim.ok (sim.closeParams h (by rw [header, closing]))
    · exact sim.blockStart h
  | _ => exact sim.blockStart h

end Simulation

end Scanner

end Marginalia.Source
