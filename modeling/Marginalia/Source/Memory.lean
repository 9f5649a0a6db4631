import Marginalia.Source.Token

/-!
# What the tokenizer remembers

Whether `/`, `%`, `<<` and `?` start a literal depends on the tokens before them: on the kind of the
last one, and on which names are local variables. `Memory.note` takes one token into account.
-/

namespace Marginalia.Source

/-- What the tokens so far say about the next one. -/
structure Memory where
  /-- The last token ends a value. -/
  afterValue : Bool := false
  /-- The last token is a name that may be a method called with an argument. -/
  afterName : Bool := false
  /-- The last token is a dot, so that a method name follows. -/
  afterDot : Bool := false
  /-- A `def` waits for the name of its method. -/
  namesMethod : Bool := false
  /-- Names assigned so far or bound as parameters. Scopes are not told apart. -/
  locals : List Text := []
  /-- The last token, if it is a name without a receiver. -/
  bareName : Option Text := none
  /-- The last token is a local variable. -/
  afterLocal : Bool := false
  /-- The last token, if it is a reserved word. -/
  lastKeyword : Option Keyword := none
  /-- The last token opens a block that may start with parameters. -/
  opensBlock : Bool := false
  /-- Between the bars of block parameters. -/
  inBlockParams : Bool := false
  /-- In the header of a `def`, at this depth of parentheses. -/
  defParams : Option Nat := none
  deriving DecidableEq, Repr

namespace Memory

/-- Adds a local variable. -/
def bindName (m : Memory) (name : Text) : Memory := { m with locals := name :: m.locals }

/-- Adds a local variable, if there is one to add. -/
def bindName? (m : Memory) (name : Option Text) : Memory :=
  match name with
  | some n => m.bindName n
  | none => m

/-- The name that a token binds where parameters stand. -/
def paramName? (m : Memory) (t : Token) : Option Text :=
  match t.kind with
  | .ident | .methodName => if m.afterDot then none else some t.text
  | .label => some (Text.dropEndWhile (· == ':') t.text)
  | _ => none

/-- Follows the header of a `def` up to its end, binding parameters. -/
def noteDefHeader (m : Memory) (t : Token) : Memory :=
  match m.defParams with
  | none => m
  | some depth =>
    if t.isPunct "(" then { m with defParams := some (depth + 1) }
    else if t.isPunct ")" then { m with defParams := if depth > 1 then some (depth - 1) else none }
    else if (t.kind == .newline || t.kind == .semicolon) && depth == 0 then
      { m with defParams := none }
    else m.bindName? (m.paramName? t)

/-- Takes note of the names that a token binds: block parameters, method parameters and the target
of an assignment. -/
def noteBindings (m : Memory) (t : Token) : Memory :=
  if m.inBlockParams then
    if t.isPunct "|" then { m with inBlockParams := false } else m.bindName? (m.paramName? t)
  else if m.opensBlock && t.isPunct "|" then { m with inBlockParams := true }
  else
    let m := m.noteDefHeader t
    let m := if t.kind == .methodName then { m with defParams := some 0 } else m
    if t.isPunctOf assignments then m.bindName? m.bareName else m

/-- Whether a token ends a value. -/
def endsValue (t : Token) : Bool :=
  match t.kind with
  | .keyword k => k.isValue
  | .ident | .methodName | .const | .var | .number | .literal => true
  | .punct => t.isPunctOf [")", "]", rightBrace]
  | _ => false

/-- Takes one token into account. Comments leave no trace. -/
def note (m : Memory) (t : Token) : Memory :=
  if t.kind == .comment then m
  else
    let bare := t.kind == .ident && !m.afterDot
    let m := m.noteBindings t
    { m with
      afterLocal := bare && m.locals.contains t.text
      bareName := if bare then some t.text else none
      lastKeyword := t.keyword?
      opensBlock := t.kind == .keyword .doWord || t.isPunct leftBrace
      afterValue := endsValue t
      afterName := t.kind == .ident || t.kind == .methodName
      afterDot := t.isPunctOf [".", "&.", "::"]
      namesMethod := m.namesMethod || t.kind == .keyword .defWord }

/-- At the start of an interpolation no value precedes. -/
def enterInterpolation (m : Memory) : Memory :=
  { m with afterValue := false, afterName := false, afterDot := false }

/-- Whether a character that may be an operator or start a literal starts a literal. After a value
it does so only as the argument of a method called without parentheses: `x /2` divides where `x` is
a local variable, and `puts /2/` does not. -/
def literalPosition (m : Memory) (spaced : Bool) (next : Option Char) : Bool :=
  !m.afterValue ||
    (!m.afterLocal && m.afterName && spaced &&
      match next with
      | some c => !Text.isAsciiBlank c && c != '='
      | none => false)

end Memory

end Marginalia.Source
