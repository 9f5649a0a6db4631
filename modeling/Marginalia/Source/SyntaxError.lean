import Marginalia.Text

/-!
# Syntax errors

Why a program is refused before it runs. A refusal is a cause with a line; its wording is made from
the cause in one place.
-/

namespace Marginalia.Source

/-- The bracket pairs. -/
inductive Bracket where
  | paren | square | brace
  deriving DecidableEq, Repr

/-- How the opening bracket is written. -/
def Bracket.opening : Bracket → Text
  | .paren => ['(']
  | .square => ['[']
  | .brace => ['{']

/-- What opens a body of statements. -/
inductive BlockKind where
  | program | methodDef | classBody | moduleBody | beginBody | doBlock | braceBlock
  | ifBody | unlessBody | whileLoop | untilLoop | forLoop | caseBody
  deriving DecidableEq, Repr

/-- The word or bracket by which a message names a block. -/
def BlockKind.name : BlockKind → Text
  | .program => "program".toList
  | .methodDef => "def".toList
  | .classBody => "class".toList
  | .moduleBody => "module".toList
  | .beginBody => "begin".toList
  | .doBlock => "do".toList
  | .braceBlock => ['{']
  | .ifBody => "if".toList
  | .unlessBody => "unless".toList
  | .whileLoop => "while".toList
  | .untilLoop => "until".toList
  | .forLoop => "for".toList
  | .caseBody => "case".toList

/-- Why a program is refused. -/
inductive SyntaxFault where
  | unterminatedLiteral
  | unterminatedInterpolation
  /-- No line ends the here-document with this name. -/
  | unterminatedHeredoc (id : Text)
  /-- The quoted name of a here-document has no closing quote on its line. -/
  | unterminatedHeredocName
  /-- A `=begin` without its `=end`. -/
  | unterminatedDocument
  /-- A word or bracket that nothing open allows. -/
  | unexpected (text : Text)
  /-- A closer while a bracket opened on `line` is open. -/
  | unclosedBracket (text : Text) (bracket : Bracket) (line : Nat)
  /-- A closing bracket while a block opened on `line` is open. -/
  | unclosedBlock (text : Text) (block : BlockKind) (line : Nat)
  | endInBracket (bracket : Bracket)
  | endInBlock (block : BlockKind)
  /-- The program ends where an operand is due. -/
  | unexpectedEnd
  deriving DecidableEq, Repr

/-- The wording of a cause. -/
def SyntaxFault.explanation : SyntaxFault → Text
  | .unterminatedLiteral => "unterminated literal meets end of file".toList
  | .unterminatedInterpolation => "unterminated string interpolation".toList
  | .unterminatedHeredoc id => "unterminated heredoc ".toList ++ Text.quoted id
  | .unterminatedHeredocName => "unterminated heredoc identifier".toList
  | .unterminatedDocument => "embedded document meets end of file".toList
  | .unexpected text => "unexpected ".toList ++ Text.quoted text
  | .unclosedBracket text bracket line =>
    "unexpected ".toList ++ Text.quoted text ++ ", expecting closing for ".toList ++
      Text.quoted bracket.opening ++ " opened on line ".toList ++ Text.ofNat line
  | .unclosedBlock text block line =>
    "unexpected ".toList ++ Text.quoted text ++ ", expecting 'end' for ".toList ++
      Text.quoted block.name ++ " opened on line ".toList ++ Text.ofNat line
  | .endInBracket bracket =>
    "unexpected end-of-input, unclosed ".toList ++ Text.quoted bracket.opening
  | .endInBlock block =>
    "unexpected end-of-input, missing 'end' for ".toList ++ Text.quoted block.name
  | .unexpectedEnd => "unexpected end-of-input".toList

/-- A refusal: its cause, the line it is reported on, and the file if one is known. -/
structure SyntaxError where
  line : Nat
  fault : SyntaxFault
  fileName : Option Text := none
  deriving DecidableEq, Repr

/-- The refusal as one line of text. -/
def SyntaxError.message (e : SyntaxError) : Text :=
  (match e.fileName with
    | some name => name ++ [':']
    | none => "line ".toList) ++ Text.ofNat e.line ++ ": ".toList ++ e.fault.explanation

/-- Inputs on which the rules for texts break down, so that there is no answer at all. -/
inductive Fault where
  /-- A token would end inside the bytes of the character after `position`. -/
  | splitCharacter (position : Nat)
  /-- A comment recorded for a line stands outside of it. -/
  | strayComment (line : Nat)
  deriving DecidableEq, Repr

end Marginalia.Source
