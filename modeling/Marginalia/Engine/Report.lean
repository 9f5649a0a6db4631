import Marginalia.Engine
import Marginalia.Json

/-!
# Reports

An outcome and the program that belongs to it, as one JSON value.
-/

namespace Marginalia

namespace Report

/-- An object whose keys are known words. -/
def record (fields : List (String × JsonValue)) : JsonValue :=
  .object (fields.map fun (k, v) => (k.toList, v))

/-- A value, or null where there is none. -/
def optional {α : Type} (f : α → JsonValue) : Option α → JsonValue
  | some a => f a
  | none => .null

/-- Something recorded for a line. -/
def ofCapture : Capture → JsonValue
  | .value text => record [("type", .string "value".toList), ("text", .string text)]
  | .exception className message =>
    record [("type", .string "exception".toList), ("class_name", .string className),
      ("message", .string message)]

/-- An exception that left the program. -/
def ofException (e : ExceptionRecord) : JsonValue :=
  record [("line", .integer e.line), ("class_name", .string e.className),
    ("message", .string e.message), ("backtrace", .array (e.backtrace.map .string))]

/-- The captures of all lines, by line number. -/
def ofLines (t : LineTable) : JsonValue :=
  .object (t.map fun (line, cs) =>
    (Text.ofNat line, record [("captures", .array (cs.map ofCapture))]))

/-- A result. -/
def ofResult (r : EvalResult) : JsonValue :=
  record [("lines", ofLines r.lines), ("stdout", .string r.stdout),
    ("exceptions", .array (r.exceptions.map ofException)), ("finished", .bool r.finished),
    ("exit_status", optional .integer r.exitStatus),
    ("dropped_captures", .integer r.droppedCaptures)]

/-- An unexpected exit. -/
def ofExit (e : UnexpectedExit) : JsonValue :=
  record [("status", optional .integer e.status), ("stderr", .string e.stderr),
    ("reason", .string e.reason)]

/-- A syntax error. -/
def ofSyntaxError (e : Source.SyntaxError) : JsonValue :=
  record [("line_number", .integer e.line), ("explanation", .string e.fault.explanation),
    ("filename", optional .string e.fileName)]

/-- The word that names an outcome. -/
def outcomeName : Outcome → String
  | .success _ => "success"
  | .timedOut => "timed_out"
  | .unexpectedException _ => "unexpected_exception"
  | .syntaxError _ => "syntax_error"

/-- The fields that follow the name of an outcome. -/
def fields (body : Text) : Outcome → List (String × JsonValue)
  | .success result => [("annotated_body", .string body), ("result", ofResult result)]
  | .timedOut => [("body", .string body)]
  | .unexpectedException exit => [("body", .string body), ("exit", ofExit exit)]
  | .syntaxError error => [("body", .string body), ("error", ofSyntaxError error)]

/-- An outcome, with the program that belongs to it. -/
def ofOutcome (body : Text) (o : Outcome) : JsonValue :=
  record (("outcome", .string (outcomeName o).toList) :: fields body o)

end Report

/-- The report on an evaluation, over several lines. -/
def Engine.report (e : Engine) : Except Failure Text :=
  e.ask .annotatedBody fun o => (Report.ofOutcome (e.bodyFor o) o).pretty 0

end Marginalia
