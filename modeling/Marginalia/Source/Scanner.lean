import Marginalia.Source.Layout

/-!
# Statements

A machine that is fed the tokens of a program. It keeps a stack of frames, one for each open body of
statements, and a stack of open brackets, and it closes a statement where a line, a semicolon or a
body ends. On the way it checks that every closer fits what is open.

The frame stack has a top by construction, because the frame of the program itself is never closed.
A frame remembers how many brackets were open where it started (`bracketBase`): a line ends a
statement only while no bracket has been opened since.
-/

namespace Marginalia.Source

/-- A statement that may be wrapped. Positions count characters; `line` is the line on which it
ends, and `depth` the number of bodies around it. -/
structure Statement where
  start : Nat
  stop : Nat
  line : Nat
  depth : Nat
  deriving DecidableEq, Repr

/-- A statement that has not ended yet. -/
structure OpenStatement where
  start : Nat
  stop : Nat
  line : Nat
  wrappable : Bool
  deriving DecidableEq, Repr

/-- How far the header of a body has been read. -/
inductive Header where
  /-- The header is over. -/
  | body
  /-- Up to the end of the line, a semicolon or `then`, or `do` for a loop. -/
  | line
  /-- Behind the opener of a block, where its parameters may stand. -/
  | blockStart
  /-- Behind `def`. -/
  | methodName
  /-- Behind the name of a method. -/
  | afterName
  /-- In the parentheses of a method, which are the given number of brackets. -/
  | params (depth : Nat)
  /-- Behind the parameters of a method. -/
  | afterParams
  deriving DecidableEq, Repr

/-- An open body of statements. -/
structure Frame where
  kind : BlockKind
  /-- The line of the opener. -/
  line : Nat
  /-- How many brackets were open behind the opener. -/
  bracketBase : Nat
  header : Header
  statement : Option OpenStatement := none
  deriving DecidableEq, Repr

/-- The last token of code. -/
structure LastCode where
  token : Token
  /-- It is a modifier, such as the `if` of `x if y`. -/
  isModifier : Bool
  deriving DecidableEq, Repr

/-- Whether a line that ends with a token goes on in the next. -/
def Token.continuesLine (t : Token) : Bool :=
  match t.kind with
  | .punct => t.isPunctOf continuationOperators
  | .keyword k => k.continuesLine
  | _ => false

/-- Whether `if`, `while` and their like behind a token are modifiers. -/
def Token.allowsModifier (t : Token) : Bool :=
  match t.kind with
  | .keyword k => k.allowsModifier
  | .ident | .methodName | .const | .var | .number | .literal => true
  | .punct => t.isPunctOf [")", "]", rightBrace, "->"]
  | _ => false

/-- Whether a brace behind a token may open a block. -/
def Token.allowsBlock (t : Token) : Bool :=
  match t.kind with
  | .ident | .methodName => true
  | .punct => t.isPunctOf [")", "->"]
  | _ => false

/-- Whether a line that ends with this goes on in the next. -/
def LastCode.continuesLine (l : LastCode) : Bool := l.isModifier || l.token.continuesLine

/-- Whether the next line with code starts with a call on what precedes: `.name` or `&.name`. Lines
that hold a comment only are passed over; `inComment` tells that one is being passed. -/
def leadingDot (inComment : Bool) : Text → Bool
  | [] => false
  | c :: r =>
    if inComment then leadingDot (c != '\n') r
    else if c == '\n' then false
    else if Text.isBlank c then leadingDot false r
    else if c == '#' then leadingDot true r
    else (c == '.' && r.head? != some '.') || (c == '&' && r.head? == some '.')

/-- Whether a brace that is followed by this text has its body on the next line: nothing follows on
its own line but parameters and a comment. -/
def bodyBelow (after : Text) : Bool :=
  let line := after.takeWhile (· != '\n')
  let behindParams : Option Text :=
    match Text.trimStart line with
    | '|' :: r =>
      let params := r.takeWhile (· != '|')
      if params.length < r.length then some (Text.trimStart (r.drop (params.length + 1))) else none
    | r => some r
  match behindParams with
  | none => false
  | some r =>
    match Text.dropEndWhile (· == '\r') r with
    | [] => true
    | c :: _ => c == '#'

/-- The state of the machine. -/
structure Scanner where
  /-- The innermost open body. -/
  top : Frame := ⟨.program, 1, 0, .body, none⟩
  /-- The bodies around it, innermost first. -/
  below : List Frame := []
  /-- The open brackets with their lines, innermost first. -/
  brackets : List (Bracket × Nat) := []
  last : Option LastCode := none
  /-- The statements that have ended, in that order. -/
  statements : List Statement := []
  comments : List Comment := []
  deriving DecidableEq, Repr

namespace Scanner

/-- Stops with a refusal. -/
def refuse (line : Nat) (fault : SyntaxFault) : Except SyntaxError Scanner :=
  .error { line := line, fault := fault }

/-- Whether no bracket has been opened since the innermost body started. -/
def atFrameLevel (s : Scanner) : Bool := s.brackets.length == s.top.bracketBase

/-- Whether a bracket has been opened since the innermost body started. -/
def inBracket (s : Scanner) : Bool := s.top.bracketBase < s.brackets.length

/-- Changes how far the header of the innermost body has been read. -/
def setHeader (s : Scanner) (h : Header) : Scanner := { s with top := { s.top with header := h } }

/-- Ends the open statement of the innermost body. -/
def endStatement (s : Scanner) : Scanner :=
  match s.top.statement with
  | none => s
  | some o =>
    { s with
      top := { s.top with statement := none }
      statements :=
        if o.wrappable then s.statements ++ [⟨o.start, o.stop, o.line, s.below.length + 1⟩]
        else s.statements }

/-- Ends the header of the innermost body, or else its open statement. -/
def endHeaderOrStatement (s : Scanner) : Scanner :=
  if s.top.header == .body then s.endStatement else s.setHeader .body

/-- Lets a token start or extend the open statement of the innermost body. -/
def touch (s : Scanner) (t : Token) : Scanner :=
  if s.top.header == .body then
    let o := s.top.statement.getD ⟨t.start, t.stop, t.endLine, true⟩
    -- `using` counts only as the first word of a statement
    let forbidden := t.keyword?.any Keyword.forbidsWrapping ||
      (o.start == t.start && (t.kind == .ident || t.kind == .methodName) &&
        t.text == "using".toList)
    let o : OpenStatement := ⟨o.start, t.stop, t.endLine, o.wrappable && !forbidden⟩
    { s with top := { s.top with statement := some o } }
  else s

/-- Opens a body inside the statement that its opener extends. -/
def openFrame (s : Scanner) (kind : BlockKind) (t : Token) (header : Header) : Scanner :=
  let s := s.touch t
  { s with top := ⟨kind, t.line, s.brackets.length, header, none⟩, below := s.top :: s.below }

/-- Leaves the innermost body. The program itself is never left. -/
def dropFrame (s : Scanner) : Scanner :=
  match s.below with
  | [] => s
  | f :: fs => { s with top := f, below := fs }

/-- Opens a bracket. -/
def openBracket (s : Scanner) (b : Bracket) (t : Token) : Scanner :=
  { s with brackets := (b, t.line) :: s.brackets }

/-- Closes the innermost bracket. -/
def dropBracket (s : Scanner) : Scanner := { s with brackets := s.brackets.tail }

/-- Closes the innermost body with `end`. -/
def closeFrame (s : Scanner) (t : Token) : Except SyntaxError Scanner :=
  match s.inBracket, s.brackets with
  | true, (b, line) :: _ => refuse t.line (.unclosedBracket t.text b line)
  | _, _ =>
    if s.top.kind == .program then refuse t.line (.unexpected t.text)
    -- the closed body belongs to a statement of the body around it
    else .ok ((s.endStatement.dropFrame).touch t)

/-- Starts the next clause of the innermost body. -/
def clause (s : Scanner) (t : Token) (header : Header) : Except SyntaxError Scanner :=
  if s.top.kind == .program || s.top.kind == .braceBlock || !s.atFrameLevel then
    refuse t.line (.unexpected t.text)
  else .ok (s.endStatement.setHeader header)

/-- Closes the innermost bracket with a closer of the given kind. -/
def closeBracket (s : Scanner) (expected : Bracket) (t : Token) : Except SyntaxError Scanner :=
  match s.inBracket, s.brackets with
  | true, (b, line) :: _ =>
    if b == expected then .ok (s.dropBracket.touch t)
    else refuse t.line (.unclosedBracket t.text b line)
  | _, _ =>
    if s.top.kind == .program then refuse t.line (.unexpected t.text)
    else refuse t.line (.unclosedBlock t.text s.top.kind s.top.line)

/-- Whether a clause of the innermost body may start here: between its statements. -/
def betweenStatements (s : Scanner) : Bool :=
  s.top.statement.isNone && s.top.header == .body && s.atFrameLevel

/-- The bodies in which `rescue` starts a clause. -/
def acceptsRescue : BlockKind → Bool
  | .methodDef | .beginBody | .doBlock | .classBody | .moduleBody => true
  | _ => false

/-- Whether a loop waits for its optional `do`. -/
def awaitsDo (s : Scanner) : Bool :=
  (s.top.kind == .whileLoop || s.top.kind == .untilLoop || s.top.kind == .forLoop) &&
    s.top.header == .line && s.atFrameLevel

/-- Whether `if`, `while` and their like open a body here, rather than modify what precedes. -/
def atExpressionStart (s : Scanner) : Bool := !s.last.any fun l => l.token.allowsModifier

/-- Takes a reserved word. -/
def word (s : Scanner) (k : Keyword) (t : Token) : Except SyntaxError Scanner :=
  match k with
  | .endWord => s.closeFrame t
  | .elseWord | .ensureWord => s.clause t .body
  | .elsifWord | .whenWord => s.clause t .line
  | .rescueWord =>
    if acceptsRescue s.top.kind && s.betweenStatements then s.clause t .line else .ok (s.touch t)
  | .inWord =>
    if s.top.kind == .caseBody && s.betweenStatements then s.clause t .line else .ok (s.touch t)
  | .thenWord =>
    .ok (if s.top.header == .line && s.atFrameLevel then s.setHeader .body else s)
  | .doWord =>
    .ok (if s.awaitsDo then s.setHeader .body else s.openFrame .doBlock t .blockStart)
  | .ifWord => .ok (if s.atExpressionStart then s.openFrame .ifBody t .line else s.touch t)
  | .unlessWord => .ok (if s.atExpressionStart then s.openFrame .unlessBody t .line else s.touch t)
  | .whileWord => .ok (if s.atExpressionStart then s.openFrame .whileLoop t .line else s.touch t)
  | .untilWord => .ok (if s.atExpressionStart then s.openFrame .untilLoop t .line else s.touch t)
  | .defWord => .ok (s.openFrame .methodDef t .methodName)
  | .classWord => .ok (s.openFrame .classBody t .line)
  | .moduleWord => .ok (s.openFrame .moduleBody t .line)
  | .caseWord => .ok (s.openFrame .caseBody t .line)
  | .forWord => .ok (s.openFrame .forLoop t .line)
  | .beginWord => .ok (s.openFrame .beginBody t .body)
  | _ => .ok (s.touch t)

/-- Takes an opening brace: of a block if it follows a call and its body starts on the next line, or
else of a hash. The brace of a block is on both stacks. -/
def openBrace (s : Scanner) (t : Token) : Scanner :=
  if s.last.any (fun l => l.token.allowsBlock) && bodyBelow t.after then
    let s := (s.touch t).openBracket .brace t
    -- the base includes the brace itself
    { s with
      top := ⟨.braceBlock, t.line, s.brackets.length, .blockStart, none⟩
      below := s.top :: s.below }
  else (s.touch t).openBracket .brace t

/-- Takes a closing brace. -/
def closeBrace (s : Scanner) (t : Token) : Except SyntaxError Scanner :=
  if s.top.kind == .braceBlock && s.atFrameLevel then
    .ok ((s.endStatement.dropFrame.dropBracket).touch t)
  else s.closeBracket .brace t

/-- Takes a token of code that is not part of a header with rules of its own. -/
def plain (s : Scanner) (t : Token) : Except SyntaxError Scanner :=
  match t.kind with
  | .keyword k => s.word k t
  | _ =>
    if t.isPunct leftBrace then .ok (s.openBrace t)
    else if t.isPunct rightBrace then s.closeBrace t
    else if t.isPunct "(" then .ok ((s.touch t).openBracket .paren t)
    else if t.isPunct "[" then .ok ((s.touch t).openBracket .square t)
    else if t.isPunct ")" then s.closeBracket .paren t
    else if t.isPunct "]" then s.closeBracket .square t
    else .ok (s.touch t)

/-- Takes a token behind the opener of a block: the first bar of its parameters, or its body. -/
def blockStart (s : Scanner) (t : Token) : Except SyntaxError Scanner :=
  if s.top.header == .blockStart then
    if t.isPunct "|" then .ok (s.setHeader .line) else (s.setHeader .body).plain t
  else s.plain t

/-- Takes a token of code. In the header of a `def` the name and the parentheses of the parameters
are taken here; an `=` behind them makes it a definition without an end, which is an expression of
the statement around it. -/
def code (s : Scanner) (t : Token) : Except SyntaxError Scanner :=
  match s.top.header with
  | .methodName => .ok (if t.kind == .methodName then s.setHeader .afterName else s)
  | .afterName =>
    -- the parentheses of parameters are no part of a statement
    if t.isPunct "(" then
      let s := s.openBracket .paren t
      .ok (s.setHeader (.params s.brackets.length))
    else if t.isPunct "=" then s.dropFrame.blockStart t
    else (s.setHeader .line).blockStart t
  | .afterParams =>
    if t.isPunct "=" then s.dropFrame.blockStart t else (s.setHeader .line).blockStart t
  | .params depth =>
    if t.isPunct ")" && s.brackets.length == depth then .ok (s.dropBracket.setHeader .afterParams)
    else s.blockStart t
  | _ => s.blockStart t

/-- Takes the end of a line. It ends a statement or a header unless a bracket is open, an operand is
due, or the next line goes on with a call. The bar that closes block parameters is no operator. -/
def newline (s : Scanner) (t : Token) : Scanner :=
  let inBlockParams :=
    (s.top.kind == .doBlock || s.top.kind == .braceBlock) && s.top.header == .line
  let continues := s.last.any fun l =>
    l.continuesLine && !(inBlockParams && l.token.isPunct "|")
  if !s.atFrameLevel || continues || leadingDot false t.after then s
  else { s.endHeaderOrStatement with last := none }

/-- Takes the end of the program, where nothing may be open. -/
def finish (s : Scanner) (t : Token) : Except SyntaxError Scanner :=
  match s.brackets with
  | (b, line) :: _ => refuse line (.endInBracket b)
  | [] =>
    if !s.below.isEmpty then refuse s.top.line (.endInBlock s.top.kind)
    else if s.last.any LastCode.continuesLine then refuse (max 1 (t.line - 1)) .unexpectedEnd
    else .ok s.endHeaderOrStatement

/-- Takes the next token. -/
def feed (s : Scanner) (t : Token) : Except SyntaxError Scanner :=
  match t.kind with
  | .comment => .ok { s with comments := s.comments ++ [⟨t.line, t.start, t.stop⟩] }
  | .newline => .ok (s.newline t)
  | .semicolon => .ok (if s.atFrameLevel then { s.endHeaderOrStatement with last := none } else s)
  | .eof => s.finish t
  | _ =>
    let isModifier := t.keyword?.any Keyword.isModifier && !s.atExpressionStart
    (s.code t).map fun s => { s with last := some ⟨t, isModifier⟩ }

end Scanner

/-- The statements and the layout of a program. -/
structure Scan where
  statements : List Statement
  layout : Layout
  deriving DecidableEq, Repr

/-- Scans a tokenized program. A refusal by the statements comes before one by the tokens, because
tokens are taken one by one. -/
def Scan.ofTokens (source : Text) (t : Tokenization) :
    Except Fault (Except SyntaxError Scan) :=
  match t.tokens.foldlM Scanner.feed {} with
  | .error e => .ok (.error e)
  | .ok s =>
    match t.ending with
    | .complete => .ok (.ok ⟨s.statements, .ofTokens source t s.comments⟩)
    | .refused e => .ok (.error e)
    | .broken f => .error f

/-- The statements and the layout of a program, or why it is refused. -/
def scan (source : Text) : Except Fault (Except SyntaxError Scan) :=
  Scan.ofTokens source (tokenize source)

/-- The layout of a program, which is unknown where the program is refused. -/
def layoutOf (source : Text) : Except Fault Layout :=
  (scan source).map fun
    | .ok s => s.layout
    | .error _ => .unknown

/-- The first syntax error of a program, reported for a file if one is named. -/
def checkSyntax (source : Text) (fileName : Option Text) : Except Fault (Option SyntaxError) :=
  (scan source).map fun
    | .ok _ => none
    | .error e => some { e with fileName := fileName }

end Marginalia.Source
