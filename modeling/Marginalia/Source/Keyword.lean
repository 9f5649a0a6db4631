import Marginalia.Text

/-!
# Keywords

The reserved words of Ruby, and the classes of them that tokens and statements depend on.
-/

namespace Marginalia.Source

/-- A reserved word. -/
inductive Keyword where
  | aliasWord | andWord | beginWord | programBegin | breakWord | caseWord | classWord | defWord
  | definedWord | doWord | elseWord | elsifWord | endWord | programEnd | ensureWord | falseWord
  | forWord | ifWord | inWord | moduleWord | nextWord | nilWord | notWord | orWord | redoWord
  | rescueWord | retryWord | returnWord | selfWord | superWord | thenWord | trueWord | undefWord
  | unlessWord | untilWord | whenWord | whileWord | yieldWord | fileName | lineNumber
  | encodingName
  deriving DecidableEq, Repr

namespace Keyword

/-- Every reserved word. -/
def all : List Keyword :=
  [.aliasWord, .andWord, .beginWord, .programBegin, .breakWord, .caseWord, .classWord, .defWord,
    .definedWord, .doWord, .elseWord, .elsifWord, .endWord, .programEnd, .ensureWord, .falseWord,
    .forWord, .ifWord, .inWord, .moduleWord, .nextWord, .nilWord, .notWord, .orWord, .redoWord,
    .rescueWord, .retryWord, .returnWord, .selfWord, .superWord, .thenWord, .trueWord, .undefWord,
    .unlessWord, .untilWord, .whenWord, .whileWord, .yieldWord, .fileName, .lineNumber,
    .encodingName]

/-- How a reserved word is written. -/
def spelling : Keyword → String
  | .aliasWord => "alias"
  | .andWord => "and"
  | .beginWord => "begin"
  | .programBegin => "BEGIN"
  | .breakWord => "break"
  | .caseWord => "case"
  | .classWord => "class"
  | .defWord => "def"
  | .definedWord => "defined?"
  | .doWord => "do"
  | .elseWord => "else"
  | .elsifWord => "elsif"
  | .endWord => "end"
  | .programEnd => "END"
  | .ensureWord => "ensure"
  | .falseWord => "false"
  | .forWord => "for"
  | .ifWord => "if"
  | .inWord => "in"
  | .moduleWord => "module"
  | .nextWord => "next"
  | .nilWord => "nil"
  | .notWord => "not"
  | .orWord => "or"
  | .redoWord => "redo"
  | .rescueWord => "rescue"
  | .retryWord => "retry"
  | .returnWord => "return"
  | .selfWord => "self"
  | .superWord => "super"
  | .thenWord => "then"
  | .trueWord => "true"
  | .undefWord => "undef"
  | .unlessWord => "unless"
  | .untilWord => "until"
  | .whenWord => "when"
  | .whileWord => "while"
  | .yieldWord => "yield"
  | .fileName => "__FILE__"
  | .lineNumber => "__LINE__"
  | .encodingName => "__ENCODING__"

/-- The reserved word with a given spelling. -/
def ofText? (t : Text) : Option Keyword := all.find? fun k => k.spelling.toList == t

/-- Words that stand for a value, so that an operator may follow. -/
def isValue : Keyword → Bool
  | .endWord | .selfWord | .nilWord | .trueWord | .falseWord | .fileName | .lineNumber
  | .encodingName => true
  | _ => false

/-- Words with which a statement must not be wrapped: they jump, or they are no expressions. -/
def forbidsWrapping : Keyword → Bool
  | .returnWord | .breakWord | .nextWord | .redoWord | .retryWord | .aliasWord | .undefWord
  | .programBegin | .programEnd => true
  | _ => false

/-- Words after which `if`, `while` and their like modify what stands before them. -/
def allowsModifier : Keyword → Bool
  | .endWord | .selfWord | .nilWord | .trueWord | .falseWord | .returnWord | .breakWord
  | .nextWord | .redoWord | .retryWord | .superWord | .yieldWord | .fileName | .lineNumber
  | .encodingName => true
  | _ => false

/-- Words that take a condition or a fallback on their right when they modify a statement. -/
def isModifier : Keyword → Bool
  | .ifWord | .unlessWord | .whileWord | .untilWord | .rescueWord => true
  | _ => false

/-- Words at the end of a line that need an operand from the next. -/
def continuesLine : Keyword → Bool
  | .andWord | .orWord | .notWord => true
  | _ => false

theorem mem_all (k : Keyword) : k ∈ all := by cases k <;> decide

end Keyword

end Marginalia.Source
