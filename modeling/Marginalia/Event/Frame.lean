import Marginalia.Event
import Marginalia.Json.Parser
import Marginalia.Text.Utf8

/-!
# Frames

An event is sent as a frame, one JSON value on a line of its own. `Event.frame` writes the one form
that is sent: an object whose member `event` names the kind and comes first. `Event.ofFrame?` also
reads other forms: members in any order, members that play no role, and an array with the kind and
the fields in order.
-/

namespace Marginalia.Event

/-! ## Writing -/

/-- The fields of an event besides its kind, in order. -/
def fields : Event → List (String × JsonValue)
  | .value line text => [("line", .integer line), ("text", .string text)]
  | .exception line className message backtrace =>
    [("line", .integer line), ("class_name", .string className), ("message", .string message),
      ("backtrace", .array (backtrace.map .string))]
  | .stdout text => [("text", .string text)]
  | .finished status => [("exit_status", .integer status)]
  | .debug text => [("text", .string text)]

/-- An event as a JSON object. -/
def toJson (e : Event) : JsonValue :=
  .object ((("event", .string e.kind.toList) :: e.fields).map fun (k, v) => (k.toList, v))

/-- An event as a line of text, with its end. -/
def frameText (e : Event) : Text := e.toJson.compact ++ ['\n']

/-- An event as it is sent. -/
def frame (e : Event) : Utf8.Bytes := Utf8.encode e.frameText

/-! ## Reading -/

/-- The member of an object with a given key; the outer `none` means that it occurs twice. -/
def member? (members : List (Text × JsonValue)) (key : String) : Option (Option JsonValue) :=
  match members.filter fun m => m.1 == key.toList with
  | [] => some none
  | [m] => some (some m.2)
  | _ => none

/-- The values for some field names: by name in an object, in order in an array. Values at the end
of an array may be missing, but there may be no further ones. -/
def arguments? (names : List String) : JsonValue → Option (List (Option JsonValue))
  | .object members => names.mapM (member? members)
  | .array (_ :: vs) =>
    if vs.length ≤ names.length then
      some (vs.map some ++ List.replicate (names.length - vs.length) none)
    else none
  | _ => none

/-- The word that names the kind of an event. -/
def tag? : JsonValue → Option Text
  | .object members =>
    match member? members "event" with
    | some (some (.string t)) => some t
    | _ => none
  | .array (.string t :: _) => some t
  | _ => none

/-- A text that has to be there. -/
def text? : Option JsonValue → Option Text
  | some (.string t) => some t
  | _ => none

/-- A line number that has to be there. -/
def line? : Option JsonValue → Option Nat
  | some (.integer (.ofNat n)) => some n
  | _ => none

/-- A status; it is 0 if it is missing. -/
def status? : Option JsonValue → Option Int
  | none => some 0
  | some (.integer n) => if -0x80000000 ≤ n ∧ n < 0x80000000 then some n else none
  | _ => none

/-- The texts of a backtrace; there are none if it is missing. -/
def backtrace? : Option JsonValue → Option (List Text)
  | none => some []
  | some (.array vs) => vs.mapM fun v => text? (some v)
  | _ => none

/-- The event that a JSON value stands for. -/
def ofJson? (v : JsonValue) : Option Event := do
  let tag ← tag? v
  if tag == "value".toList then
    match ← arguments? ["line", "text"] v with
    | [line, text] => return .value (← line? line) (← text? text)
    | _ => none
  else if tag == "exception".toList then
    match ← arguments? ["line", "class_name", "message", "backtrace"] v with
    | [line, className, message, backtrace] =>
      return .exception (← line? line) (← text? className) (← text? message)
        (← backtrace? backtrace)
    | _ => none
  else if tag == "stdout".toList then
    match ← arguments? ["text"] v with
    | [text] => return .stdout (← text? text)
    | _ => none
  else if tag == "finished".toList then
    match ← arguments? ["exit_status"] v with
    | [status] => return .finished (← status? status)
    | _ => none
  else if tag == "debug".toList then
    match ← arguments? ["text"] v with
    | [text] => return .debug (← text? text)
    | _ => none
  else none

/-- The event that the bytes of a frame stand for, given without the line feed. -/
def ofFrame? (bytes : Utf8.Bytes) : Option Event := do
  let t ← Utf8.decode? bytes
  let v ← JsonValue.parse? t
  ofJson? v

end Marginalia.Event
