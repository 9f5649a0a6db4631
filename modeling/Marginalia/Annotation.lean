import Marginalia.Annotation.Alignment
import Marginalia.Markers
import Marginalia.Result
import Marginalia.Source.Scanner

/-!
# Annotated programs

A program with the recorded values written behind its lines as comments, and with its output and the
exception that ended it appended as blocks of comments. A line is annotated if something was
recorded for it, if it ends in code, and if it has no comment; all other lines stay as they are.
-/

namespace Marginalia

open Source

/-- How annotations are written. -/
structure AnnotateOptions where
  alignment : Alignment := .chunk
  /-- The greatest length of an annotation, if there is one. -/
  maxLength : Option Nat := none
  markers : Markers := {}
  deriving DecidableEq, Repr

/-! ## The text of an annotation -/

/-- A text on one line: line feeds and carriage returns are written as escapes. -/
def singleLine (t : Text) : Text :=
  t.flatMap fun c => if c == '\r' then ['\\', 'r'] else if c == '\n' then ['\\', 'n'] else [c]

/-- What stands for the part of an annotation that is cut off. -/
def ellipsis : Text := "...".toList

/-- Cuts a text that is longer than it may be. -/
def truncate (max : Nat) (t : Text) : Text :=
  if t.length ≤ max then t else t.take (max - ellipsis.length) ++ ellipsis

/-- The annotation for some captures: the values, then the exceptions. -/
def renderCaptures (o : AnnotateOptions) (cs : List Capture) : Text :=
  let values := cs.filterMap Capture.value?
  let exceptions := cs.filterMap Capture.exception?
  let valuePart :=
    if values.isEmpty then [] else o.markers.value ++ singleLine (", ".toList.intercalate values)
  let exceptionPart :=
    if exceptions.isEmpty then []
    else
      (if valuePart.isEmpty then [] else [' ']) ++ o.markers.exception ++
        singleLine (", ".toList.intercalate exceptions)
  let all := valuePart ++ exceptionPart
  match o.maxLength with
  | some max => truncate max all
  | none => all

/-! ## Lines -/

/-- A line may be annotated if it ends in code and has no comment. -/
def isAnnotatable (l : Layout) (line : Nat) : Bool :=
  l.endsInCode line && (l.commentOn line).isNone

/-- What was recorded for a line, if that is anything. -/
def recorded (r : EvalResult) (line : Nat) : Option (List Capture) :=
  (r.line? line).filter fun cs => !cs.isEmpty

/-- The code of a line: the line without its end and the blanks before it. -/
def codeOf (piece : Text) : Text := Text.trimEnd (Text.lineText piece)

/-- What alignment needs to know about a line of a program. -/
def lineInfo (l : Layout) (piece : Text) (line : Nat) : Alignment.Line :=
  ⟨(codeOf piece).length, Text.isBlankText piece, isAnnotatable l line⟩

/-- A line with its annotation, which starts in the given column, or two columns behind the code if
that is further right. -/
def annotateLine (o : AnnotateOptions) (cs : List Capture) (column : Nat) (piece : Text) : Text :=
  let code := codeOf piece
  -- a line that is longer than its column still gets two blanks
  code ++ List.replicate (max column (code.length + 2) - code.length) ' ' ++ renderCaptures o cs ++
    Text.terminator piece

/-- A line of the annotated program. -/
def renderLine (l : Layout) (r : EvalResult) (o : AnnotateOptions) (column line : Nat)
    (piece : Text) : Text :=
  match recorded r line with
  | some cs => if isAnnotatable l line then annotateLine o cs column piece else piece
  | none => piece

/-! ## Blocks -/

/-- A line of a block of comments. -/
def blockLine (marker line : Text) : Text :=
  (if line.isEmpty then Text.trimEnd marker else marker ++ line) ++ ['\n']

/-- A block of comments below the program, set off by an empty line. -/
def block (marker : Text) (lines : List Text) : Text := '\n' :: lines.flatMap (blockLine marker)

/-- The lines that describe an exception. -/
def exceptionLines (e : ExceptionRecord) : List Text :=
  e.className :: Text.lines e.message ++ if e.backtrace.isEmpty then [] else [] :: e.backtrace

/-- The output of the program as a block, if there is any. -/
def stdoutBlock (m : Markers) (r : EvalResult) : Text :=
  if r.stdout.isEmpty then [] else block m.stdout (Text.lines r.stdout)

/-- The last exception that left the program as a block, if there is one. -/
def exceptionBlock (m : Markers) (r : EvalResult) : Text :=
  match r.lastException with
  | some e => block m.exception (exceptionLines e)
  | none => []

/-! ## Whole programs -/

/-- The lines of a program, each with its number. -/
def numberedPieces (body : Text) : List (Text × Nat) := (Text.pieces body).zipIdx 1

/-- The lines of the annotated program. -/
def annotatedLines (l : Layout) (body : Text) (r : EvalResult) (o : AnnotateOptions) : List Text :=
  let pieces := numberedPieces body
  let columns := o.alignment.columns (pieces.map fun (piece, line) => lineInfo l piece line)
  (pieces.zip columns).map fun ((piece, line), column) => renderLine l r o column line piece

/-- The annotated program, given its layout. -/
def annotateWith (l : Layout) (body : Text) (r : EvalResult) (o : AnnotateOptions) : Text :=
  (annotatedLines l body r o).flatten ++ stdoutBlock o.markers r ++ exceptionBlock o.markers r

/-- The annotated program. Where the program is refused, no line of it is annotated. -/
def annotate (body : Text) (r : EvalResult) (o : AnnotateOptions) : Except Fault Text :=
  (layoutOf body).map fun l => annotateWith l body r o

/-- The lines for which something was recorded that the annotated program does not show. -/
def hiddenLines (body : Text) (r : EvalResult) : Except Fault (List Nat) :=
  (layoutOf body).map fun l =>
    ((numberedPieces body).map Prod.snd).filter fun line =>
      (recorded r line).isSome && !isAnnotatable l line

end Marginalia
