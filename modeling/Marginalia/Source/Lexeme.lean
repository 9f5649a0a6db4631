import Marginalia.Source.Literal
import Marginalia.Source.Memory

/-!
# Lexemes

Which token starts at a place in a program, and how far it reaches. A lexeme starts with a first
character `c` that is known, and its length is given by `more`, the number of characters after the
first; so no lexeme is empty. Positions and lines play no role here.
-/

namespace Marginalia.Source

/-- Letters, the underscore and all characters outside of ASCII start names. -/
def isNameStart (c : Char) : Bool := c.isAlpha || c == '_' || isWide c

/-- The characters of names. -/
def isNameChar (c : Char) : Bool := c.isAlphanum || c == '_' || isWide c

/-- Hexadecimal digits. -/
def isHexDigit (c : Char) : Bool :=
  c.isDigit || ('a' ≤ c && c ≤ 'f') || ('A' ≤ c && c ≤ 'F')

/-- How many characters at the start of a text satisfy a test. -/
def run (p : Char → Bool) (t : Text) : Nat := (t.takeWhile p).length

/-- What starts at a place in a program. -/
inductive Lexeme where
  /-- A token that ends after `more` characters. -/
  | token (kind : TokenKind) (more : Nat)
  /-- The end of a line. -/
  | newline
  /-- The opener of a literal, and whether letters after its end belong to it. -/
  | delimited (more : Nat) (delimiters : Delimiters) (flags : Bool)
  /-- The opener of a here-document. -/
  | heredoc (more : Nat) (id : Text) (indented : Bool)
  /-- The opener of a here-document whose quoted name is not closed. -/
  | brokenHeredoc
  /-- A token that ends inside a character. -/
  | split
  deriving DecidableEq, Repr

namespace Lexeme

/-- The first of some operators with which a text starts: its length. -/
def operatorLength? (ops : List String) (t : Text) : Option Nat :=
  (ops.find? fun op => op.toList.isPrefixOf t).map fun op => op.toList.length

/-! ## Numbers and characters -/

/-- How far a number reaches. A sign belongs to it after an exponent's `e`, which `exponent` tells
of the character before, and a point before a digit. -/
def numberLength (exponent : Bool) : Text → Nat
  | [] => 0
  | c :: r =>
    if c.isAlphanum || c == '_' then numberLength (c == 'e' || c == 'E') r + 1
    else if exponent && (c == '+' || c == '-') then numberLength false r + 1
    else if c == '.' && (r.head?.any Char.isDigit) then numberLength false r + 1
    else 0

/-- How far an escape reaches behind its backslash: `\n`, `\u00e9`, `\u` with braces, `\C-a`,
`\M-\C-a`. -/
def escapeLength : Text → Nat
  | 'u' :: '{' :: r =>
    let inside := run (fun c => c != '}' && c != '\n') r
    2 + inside + (if r[inside]? == some '}' then 1 else 0)
  | 'u' :: r => 1 + run isHexDigit (r.take 4)
  | 'C' :: '-' :: '\\' :: r => 3 + escapeLength r
  | 'M' :: '-' :: '\\' :: r => 3 + escapeLength r
  | 'C' :: '-' :: r => 2 + min 1 r.length
  | 'M' :: '-' :: r => 2 + min 1 r.length
  | _ :: _ => 1
  | [] => 0

/-- Whether `?` and the characters after it are a character literal. -/
def charLiteralAhead : Text → Bool
  | [] => false
  | c :: r =>
    !Text.isAsciiBlank c &&
      (c == '\\' || isWide c ||
        match r with
        | d :: _ => !isNameChar d
        | [] => true)

/-- A character literal, read behind its `?`. -/
def charLiteral : Text → Lexeme
  | '\\' :: r => .token .literal (1 + escapeLength r)
  | _ => .token .literal 1

/-! ## Names -/

/-- Whether a text starts with an assignment, rather than with a comparison or a match. -/
def assignmentAhead : Text → Bool
  | '=' :: '=' :: _ => false
  | '=' :: '~' :: _ => false
  | '=' :: _ => true
  | _ => false

/-- A question or exclamation mark belongs to the name before it, unless an assignment follows. -/
def nameMark : Text → Nat
  | e :: r => if (e == '?' || e == '!') && !assignmentAhead r then 1 else 0
  | [] => 0

/-- Whether a colon behind a name makes it the key of a pair: a single colon, after a question mark
only with a space behind it. -/
def labelColon (name after : Text) : Bool :=
  match after with
  | ':' :: r => r.head? != some ':' && (name.getLast? != some '?' || r.head? == some ' ')
  | _ => false

/-- A name, a reserved word or a key. -/
def word (m : Memory) (c : Char) (r : Text) : Lexeme :=
  let letters := run isNameChar r
  let more := letters + nameMark (r.drop letters)
  let name := c :: r.take more
  if !m.afterDot && labelColon name (r.drop more) then .token .label (more + 1)
  else
    match if m.afterDot then none else Keyword.ofText? name with
    | some k => .token (.keyword k) more
    | none => .token (if c.isUpper then .const else .ident) more

/-- The mark at the end of a method's name in its definition: a question or exclamation mark, or the
`=` of a setter. -/
def methodMark : Text → Nat
  | '?' :: _ => 1
  | '!' :: _ => 1
  | ['='] => 1
  | '=' :: d :: _ => if d == '=' || d == '~' || d == '>' || d == ' ' || d == '\t' then 0 else 1
  | _ => 0

/-- The token behind `def`, if it names the method or leads to its name; and whether the name is
still to come, as after `self` in `def self.name`. -/
def methodName? (c : Char) (r : Text) : Option (TokenKind × Nat × Bool) :=
  if isNameStart c then
    let letters := run isNameChar r
    match r.drop letters with
    | '.' :: _ => some (.ident, letters, true)
    | after => some (.methodName, letters + methodMark after, false)
  else if c == '.' then some (.punct, 0, true)
  else (operatorLength? methodOperators (c :: r)).map fun n => (.methodName, n - 1, false)

/-- A global variable, read behind its `$`. -/
def globalVar : Text → Lexeme
  | [] => .token .var 0
  | '-' :: [] => .token .var 1
  | '-' :: d :: _ => if isWide d then .split else .token .var 2
  | c :: r =>
    if isNameChar c then .token .var (run isNameChar (c :: r))
    else .token .var (if Text.isAsciiBlank c then 0 else 1)

/-- An instance or class variable, read behind its first `@`. -/
def memberVar : Text → Lexeme
  | '@' :: r => .token .var (1 + run isNameChar r)
  | r => .token .var (run isNameChar r)

/-- The mark at the end of a symbol, unless an operator follows. -/
def symbolMark : Text → Nat
  | e :: r =>
    if (e == '?' || e == '!' || e == '=') &&
        !(match r with
          | d :: _ => d == '=' || d == '>' || d == '~'
          | [] => false)
    then 1 else 0
  | [] => 0

/-- A symbol or a colon, read behind the first colon. -/
def colon (m : Memory) : Text → Lexeme
  | [] => .token .punct 0
  | c :: r =>
    if c == ':' then .token .punct 1
    else if c == '"' then .delimited 1 ⟨'"', none, true⟩ false
    else if c == '\'' then .delimited 1 ⟨'\'', none, false⟩ false
    else if isNameStart c || c == '@' || c == '$' then
      let sigils := run (fun x => x == '@' || x == '$') (c :: r)
      let more := sigils + run isNameChar ((c :: r).drop sigils)
      .token .literal (more + symbolMark ((c :: r).drop more))
    else if m.afterValue then .token .punct 0
    else
      match operatorLength? methodOperators (c :: r) with
      | some n => .token .literal n
      | none => .token .punct 0

/-! ## Literals with a choice of delimiter -/

/-- The letters that say what a `%` literal is. -/
def isPercentKind (c : Char) : Bool :=
  c == 'q' || c == 'Q' || c == 'w' || c == 'W' || c == 'i' || c == 'I' || c == 'r' || c == 's' ||
    c == 'x'

/-- Whether a character can delimit a `%` literal. -/
def isPercentDelimiter (c : Char) : Bool := !c.isAlphanum && !Text.isAsciiBlank c

/-- Whether a literal can stand behind a `%`. -/
def percentAhead : Text → Bool
  | [] => false
  | c :: r =>
    if isPercentKind c then
      match r with
      | d :: _ => isPercentDelimiter d
      | [] => false
    else isPercentDelimiter c && c != '='

/-- A `%` literal, read behind the `%`. -/
def percent : Text → Lexeme
  | c :: r =>
    if isPercentKind c then
      let interpolates := c == 'Q' || c == 'W' || c == 'I' || c == 'r' || c == 'x'
      .delimited 2 (.ofOpening (r.headD '(') interpolates) (c == 'r')
    else .delimited 1 (.ofOpening c true) false
  | [] => .token .punct 0

/-! ## Openers of here-documents -/

/-- Whether `<<` opens a here-document: a name or a quote follows, and neither a singleton class nor
a left operand precedes. `after` is what follows `<<`. -/
def heredocAhead (m : Memory) (spaced : Bool) (after : Text) : Bool :=
  let name :=
    match after with
    | '~' :: r => r
    | '-' :: r => r
    | r => r
  m.lastKeyword != some .classWord &&
    (match name with
      | c :: _ => isNameStart c || c == '"' || c == '\'' || c == '`'
      | [] => false) &&
    m.literalPosition spaced after.head?

/-- The name of a here-document: its characters, and how many characters it takes with its
quotes. -/
def heredocName? : Text → Option (Text × Nat)
  | [] => some ([], 0)
  | c :: r =>
    if c == '"' || c == '\'' || c == '`' then
      let id := r.takeWhile fun x => x != '\n' && x != c
      if r[id.length]? == some c then some (id, id.length + 2) else none
    else
      let id := (c :: r).takeWhile isNameChar
      some (id, id.length)

/-- The opener of a here-document, read behind `<<`. -/
def heredocOpener (after : Text) : Lexeme :=
  let (indented, name) :=
    match after with
    | '~' :: r => (true, r)
    | '-' :: r => (true, r)
    | r => (false, r)
  match heredocName? name with
  | some (id, length) => .heredoc (1 + (if indented then 1 else 0) + length) id indented
  | none => .brokenHeredoc

/-! ## All lexemes -/

/-- The operator that starts with `c`. -/
def operator (c : Char) (r : Text) : Lexeme :=
  .token .punct ((operatorLength? operators (c :: r)).getD 1 - 1)

/-- What starts with `c`, where `c` is no blank. `spaced` tells whether blanks precede. -/
def read (m : Memory) (spaced : Bool) (c : Char) (r : Text) : Lexeme :=
  if c == '\n' then .newline
  else if c == '#' then .token .comment (run (· != '\n') r)
  else if c == ';' then .token .semicolon 0
  else if c == '"' || c == '`' then .delimited 0 ⟨c, none, true⟩ false
  else if c == '\'' then .delimited 0 ⟨c, none, false⟩ false
  else if c == ':' then colon m r
  else if c == '@' then memberVar r
  else if c == '$' then globalVar r
  else if c.isDigit then .token .number (numberLength false r)
  else if isNameStart c then word m c r
  else if c == '%' && m.literalPosition spaced r.head? && percentAhead r then percent r
  else if c == '/' && m.literalPosition spaced r.head? then .delimited 0 ⟨'/', none, true⟩ true
  else if c == '?' && !m.afterValue && charLiteralAhead r then charLiteral r
  else
    match c, r with
    | '<', '<' :: after => if heredocAhead m spaced after then heredocOpener after else operator c r
    | _, _ => operator c r

end Lexeme

end Marginalia.Source
