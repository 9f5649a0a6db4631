import Marginalia.Source.Keyword

/-!
# Tokens

What the tokenizer cuts a program into. A token knows its characters, where they stand, and what
follows them, because the end of a statement can depend on the next line.
-/

namespace Marginalia.Source

/-- The kinds of tokens. -/
inductive TokenKind where
  /-- A name that starts with a small letter. -/
  | ident
  /-- A reserved word. -/
  | keyword (k : Keyword)
  /-- The name of the method in a `def` header. -/
  | methodName
  /-- A name that starts with a capital letter. -/
  | const
  /-- An instance, class or global variable. -/
  | var
  | number
  /-- A string, symbol, regexp, character, list of words or opener of a here-document. -/
  | literal
  /-- A name with the colon of a key. -/
  | label
  /-- An operator, a bracket, a comma. -/
  | punct
  /-- The end of a line, with the bodies of the here-documents that start after it. -/
  | newline
  | semicolon
  | comment
  /-- The end of the program. -/
  | eof
  deriving DecidableEq, Repr

/-- A piece of a program. Positions count characters from the start of the program, lines from 1. -/
structure Token where
  kind : TokenKind
  /-- The characters of the token; of a line end only the line feed. -/
  text : Text
  start : Nat
  stop : Nat
  /-- The line on which it starts. -/
  line : Nat
  /-- The line on which it ends. -/
  endLine : Nat
  /-- What follows it in the program. -/
  after : Text
  deriving DecidableEq, Repr

/-- The text of the brace that opens a block, a table or code in a literal. -/
abbrev leftBrace : String := "\x7b"

/-- The text of the brace that closes one. -/
abbrev rightBrace : String := "\x7d"

namespace Token

/-- The reserved word that a token is. -/
def keyword? (t : Token) : Option Keyword :=
  match t.kind with
  | .keyword k => some k
  | _ => none

/-- Whether a token is this punctuation. -/
def isPunct (t : Token) (s : String) : Bool := t.kind == .punct && t.text == s.toList

/-- Whether a token is one of these punctuations. -/
def isPunctOf (t : Token) (ss : List String) : Bool :=
  t.kind == .punct && ss.any fun s => t.text == s.toList

end Token

/-- Longest operators first, so that the first that fits is taken. -/
def operators : List String :=
  ["**=", "<=>", "===", "...", "<<=", ">>=", "&&=", "||=", "&.", "**", "==", "!=", ">=", "<=",
    "&&", "||", "<<", ">>", "=~", "!~", "..", "::", "->", "=>", "+=", "-=", "*=", "/=", "%=", "|=",
    "&=", "^="]

/-- Operators that assign to the name on their left. -/
def assignments : List String :=
  ["=", "+=", "-=", "*=", "/=", "%=", "**=", "|=", "&=", "^=", "<<=", ">>=", "&&=", "||="]

/-- Operators that may name a method. -/
def methodOperators : List String :=
  ["[]=", "[]", "<=>", "===", "==", "=~", "!=", "!~", "+@", "-@", "**", "<<", ">>", "<=", ">=",
    "+", "-", "*", "/", "%", "<", ">", "!", "~", "&", "|", "^"]

/-- Punctuation at the end of a line that needs an operand from the next. -/
def continuationOperators : List String :=
  [",", ".", "&.", "::", "+", "-", "*", "/", "%", "**", "=", "==", "!=", "<", ">", "<=", ">=",
    "<=>", "===", "=~", "!~", "&&", "||", "&", "|", "^", "<<", ">>", "+=", "-=", "*=", "/=", "%=",
    "**=", "|=", "&=", "^=", "<<=", ">>=", "&&=", "||=", "?", ":", "=>", "->", "!", "~",
      "..", "..."]

end Marginalia.Source
