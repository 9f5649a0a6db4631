import Marginalia.Source.Scanner

/-!
# Marks

The words and brackets of a program are its marks: each opens something or closes what was opened
last. Which words open a body depends on the scanner, since `if` may be a modifier and `do` may
belong to a loop. A definition without an end is opened by its `def` and closed by its `=`.
-/

namespace Marginalia.Source

/-- Something that is open: a bracket, or a body that a word has opened. -/
inductive Opener where
  | bracket (b : Bracket)
  | block (k : BlockKind)
  deriving DecidableEq, Repr

/-- Something that closes: a bracket, an `end`, or the `=` of a definition without an end. -/
inductive Closer where
  | bracket (b : Bracket)
  | endWord
  | assignment
  deriving DecidableEq, Repr

/-- A token that opens or closes something. -/
inductive Mark where
  | opens (o : Opener)
  | closes (c : Closer)
  deriving DecidableEq, Repr

/-- The mark of a bracket. -/
def Token.bracketMark? (t : Token) : Option Mark :=
  if t.isPunct leftBrace then some (.opens (.bracket .brace))
  else if t.isPunct rightBrace then some (.closes (.bracket .brace))
  else if t.isPunct "(" then some (.opens (.bracket .paren))
  else if t.isPunct "[" then some (.opens (.bracket .square))
  else if t.isPunct ")" then some (.closes (.bracket .paren))
  else if t.isPunct "]" then some (.closes (.bracket .square))
  else none

/-! ## Headers -/

/-- Whether a header is that of a `def`, where no bracket is open in it. -/
def Header.isBare : Header → Bool
  | .methodName | .afterName | .afterParams => true
  | _ => false

/-- Whether a header says nothing of the brackets that are open in it. -/
def Header.isFree : Header → Bool
  | .body | .line | .blockStart => true
  | _ => false

/-- Whether a header is that of a `def`, before the rest of its line. -/
def Header.isMethod : Header → Bool
  | .methodName | .afterName | .params _ | .afterParams => true
  | _ => false

/-- The header of a method is no body. -/
theorem Header.ne_body_of_isMethod {h : Header} (method : h.isMethod) : h ≠ .body := by
  rintro rfl
  cases method

/-- A bare header is that of a method. -/
theorem Header.isMethod_of_isBare {h : Header} (bare : h.isBare) : h.isMethod = true := by
  cases h with
  | methodName | afterName | afterParams => rfl
  | body | line | blockStart | params => cases bare

/-- Behind the name or the parameters of a method. -/
theorem Header.isBare_of_named {h : Header} (named : h = .afterName ∨ h = .afterParams) :
    h.isBare = true := by
  rcases named with rfl | rfl
  · rfl
  · rfl

/-- A free header is not that of a method. -/
theorem Header.isMethod_of_isFree {h : Header} (free : h.isFree) : h.isMethod = false := by
  cases h with
  | body | line | blockStart => rfl
  | methodName | afterName | params | afterParams => cases free

namespace Scanner

/-! ## The mark of a token -/

/-- The mark of a word. -/
def wordMark? (s : Scanner) : Keyword → Option Mark
  | .endWord => some (.closes .endWord)
  | .doWord => if s.awaitsDo then none else some (.opens (.block .doBlock))
  | .ifWord => if s.atExpressionStart then some (.opens (.block .ifBody)) else none
  | .unlessWord => if s.atExpressionStart then some (.opens (.block .unlessBody)) else none
  | .whileWord => if s.atExpressionStart then some (.opens (.block .whileLoop)) else none
  | .untilWord => if s.atExpressionStart then some (.opens (.block .untilLoop)) else none
  | .defWord => some (.opens (.block .methodDef))
  | .classWord => some (.opens (.block .classBody))
  | .moduleWord => some (.opens (.block .moduleBody))
  | .caseWord => some (.opens (.block .caseBody))
  | .forWord => some (.opens (.block .forLoop))
  | .beginWord => some (.opens (.block .beginBody))
  | _ => none

/-- The mark of a word or a bracket. -/
def plainMark? (s : Scanner) (t : Token) : Option Mark :=
  match t.kind with
  | .keyword k => s.wordMark? k
  | _ => t.bracketMark?

/-- The mark of a token. -/
def mark? (s : Scanner) (t : Token) : Option Mark :=
  if (s.top.header == .afterName || s.top.header == .afterParams) && t.isPunct "=" then
    some (.closes .assignment)
  else s.plainMark? t

/-- The mark of a token that the scanner heeds: a `def` that waits for its name passes over all
others. -/
def heeded? (s : Scanner) (t : Token) : Option Mark :=
  if s.top.header == .methodName then none else s.mark? t

/-- The kinds of tokens that are part of statements. -/
def isCode : TokenKind → Bool
  | .comment | .newline | .semicolon | .eof => false
  | _ => true

variable {s : Scanner} {t : Token}

theorem kind_of_isPunct {u : String} (h : t.isPunct u) : t.kind = .punct := by
  unfold Token.isPunct at h
  rw [Bool.and_eq_true, beq_iff_eq] at h
  exact h.1

/-- A token has only one sign. -/
theorem isPunct_eq_beq {u : String} (h : t.isPunct u) (v : String) : t.isPunct v = (u == v) := by
  unfold Token.isPunct at h ⊢
  rw [Bool.and_eq_true, beq_iff_eq, beq_iff_eq] at h
  rw [h.1, h.2, Bool.eq_iff_iff, Bool.and_eq_true, beq_iff_eq, beq_iff_eq, beq_iff_eq,
    String.toList_inj]
  exact and_iff_right rfl

/-- A punctuation mark is one of some if it is among them. -/
theorem isPunctOf_eq_any {u : String} (h : t.isPunct u) (vs : List String) :
    t.isPunctOf vs = vs.any (u == ·) := by
  have kind := kind_of_isPunct h
  have sign (v : String) : (t.text == v.toList) = (u == v) := by
    rw [← isPunct_eq_beq h v, Token.isPunct, kind]
    rfl
  unfold Token.isPunctOf
  rw [kind]
  simp only [sign]
  rfl

/-- A token that is no keyword has the mark of a bracket, or none. -/
theorem plainMark?_of_other (s : Scanner) (h : ∀ k, t.kind ≠ .keyword k) :
    s.plainMark? t = t.bracketMark? := by
  unfold plainMark?
  split
  · next k hk => exact absurd hk (h k)
  · rfl

/-- A punctuation mark has the mark of a bracket, or none. -/
theorem plainMark?_of_isPunct {u : String} (s : Scanner) (h : t.isPunct u) :
    s.plainMark? t = t.bracketMark? :=
  plainMark?_of_other s fun k => by rw [kind_of_isPunct h]; nofun

/-- A bar has no mark. -/
theorem plainMark?_of_bar (s : Scanner) (h : t.isPunct "|") : s.plainMark? t = none := by
  rw [plainMark?_of_isPunct s h]
  simp [Token.bracketMark?, isPunct_eq_beq h, leftBrace, rightBrace]

/-- A parenthesis opens a bracket. -/
theorem plainMark?_of_paren (s : Scanner) (h : t.isPunct "(") :
    s.plainMark? t = some (.opens (.bracket .paren)) := by
  rw [plainMark?_of_isPunct s h]
  simp [Token.bracketMark?, isPunct_eq_beq h, leftBrace, rightBrace]

/-- A closing parenthesis closes a bracket. -/
theorem plainMark?_of_closingParen (s : Scanner) (h : t.isPunct ")") :
    s.plainMark? t = some (.closes (.bracket .paren)) := by
  rw [plainMark?_of_isPunct s h]
  simp [Token.bracketMark?, isPunct_eq_beq h, leftBrace, rightBrace]

/-- The mark of a word depends on the header of the innermost body only where a loop awaits `do`. -/
theorem plainMark?_congr {r : Scanner} (t : Token) (awaits : r.awaitsDo = s.awaitsDo)
    (last : r.last = s.last) : r.plainMark? t = s.plainMark? t := by
  have start : r.atExpressionStart = s.atExpressionStart := by
    unfold atExpressionStart
    rw [last]
  have words (k : Keyword) : r.wordMark? k = s.wordMark? k := by
    unfold wordMark?
    rw [awaits, start]
  unfold plainMark?
  split
  · exact words _
  · rfl

/-- Only in the line of a header a `do` is waited for. -/
theorem awaitsDo_of_header (h : s.top.header ≠ .line) : s.awaitsDo = false := by
  unfold awaitsDo
  rw [beq_eq_false_iff_ne.2 h, Bool.and_false, Bool.false_and]

/-- Behind the opener of a block a token has the mark that it has in the body. -/
theorem plainMark?_of_blockStart (header : s.top.header = .blockStart) (t : Token) :
    (s.setHeader .body).plainMark? t = s.plainMark? t := by
  apply plainMark?_congr
  · rw [awaitsDo_of_header (s := s) (by rw [header]; nofun)]
    exact awaitsDo_of_header nofun
  · rfl

/-- About the name of a method a token has the mark that it has on the rest of the line. -/
theorem plainMark?_of_bare (bare : s.top.header.isBare = true) (kind : s.top.kind = .methodDef)
    (t : Token) : (s.setHeader .line).plainMark? t = s.plainMark? t := by
  apply plainMark?_congr
  · have before : s.awaitsDo = false := awaitsDo_of_header fun hl => by rw [hl] at bare; cases bare
    have after : (s.setHeader .line).top.kind = .methodDef := kind
    rw [before]
    unfold awaitsDo
    rw [after]
    rfl
  · rfl

/-- Elsewhere than behind the name of a method, the mark is the plain one. -/
theorem mark?_of_header (t : Token) (h : s.top.header ≠ .afterName ∧ s.top.header ≠ .afterParams) :
    s.mark? t = s.plainMark? t := by
  unfold mark?
  rw [beq_eq_false_iff_ne.2 h.1, beq_eq_false_iff_ne.2 h.2, Bool.or_false, Bool.false_and]
  rfl

/-- Of anything but an equals sign the mark is the plain one. -/
theorem mark?_of_other (s : Scanner) (h : t.isPunct "=" = false) :
    s.mark? t = s.plainMark? t := by
  unfold mark?
  rw [h, Bool.and_false]
  rfl

/-- Behind the name or the parameters of a method an equals sign closes the block of the method. -/
theorem mark?_of_assign (h : s.top.header = .afterName ∨ s.top.header = .afterParams)
    (assign : t.isPunct "=") : s.mark? t = some (.closes .assignment) := by
  unfold mark?
  rcases h with h | h
  · rw [h, assign]
    rfl
  · rw [h, assign]
    rfl

/-- Elsewhere than at the name of a method, each mark is heeded. -/
theorem heeded?_of_header (t : Token) (h : s.top.header ≠ .methodName) :
    s.heeded? t = s.mark? t := by
  unfold heeded?
  rw [beq_eq_false_iff_ne.2 h]
  rfl

/-- What is no code has no mark. -/
theorem mark?_of_separator (s : Scanner) (h : isCode t.kind = false) : s.mark? t = none := by
  have nothing {u : String} : t.isPunct u = false := by
    cases hu : t.isPunct u with
    | false => rfl
    | true => rw [kind_of_isPunct hu] at h; cases h
  rw [mark?_of_other s nothing, plainMark?_of_other s fun k hk => by rw [hk] at h; cases h]
  unfold Token.bracketMark?
  simp only [nothing, Bool.false_eq_true, if_false]

/-- What is no code has no mark that is heeded. -/
theorem heeded?_of_separator (s : Scanner) (h : isCode t.kind = false) : s.heeded? t = none := by
  unfold heeded?
  rw [mark?_of_separator s h, ite_self]

end Scanner

end Marginalia.Source
