import Marginalia.Event

/-!
# Results

What is known about a program after it has run: per line the values and exceptions in order of
arrival, its output, and how it ended. `EvalResult.add` takes one event into account, and a result
is a fold of it over the events.
-/

namespace Marginalia

/-- Something recorded for a line. -/
inductive Capture where
  | value (text : Text)
  | exception (className message : Text)
  deriving DecidableEq, Repr

/-- The text of a recorded value. -/
def Capture.value? : Capture → Option Text
  | .value text => some text
  | .exception .. => none

/-- A recorded exception, as one text. -/
def Capture.exception? : Capture → Option Text
  | .value _ => none
  | .exception className message => some (className ++ ": ".toList ++ message)

/-- An exception that left the program. -/
structure ExceptionRecord where
  line : Nat
  className : Text
  message : Text
  backtrace : List Text
  deriving DecidableEq, Repr

/-- The captures of lines, by line in ascending order. -/
abbrev LineTable := List (Nat × List Capture)

namespace LineTable

/-- The captures of a line that has any entry. -/
def find? (t : LineTable) (line : Nat) : Option (List Capture) :=
  match t with
  | [] => none
  | (n, cs) :: r => if n = line then some cs else find? r line

/-- Changes the captures of a line; a line without an entry gets one. -/
def alter (line : Nat) (f : List Capture → List Capture) : LineTable → LineTable
  | [] => [(line, f [])]
  | (n, cs) :: r =>
    if line < n then (line, f []) :: (n, cs) :: r
    else if n = line then (n, f cs) :: r
    else (n, cs) :: alter line f r

theorem find?_alter_self (line : Nat) (f : List Capture → List Capture) (t : LineTable)
    (sorted : (t.map Prod.fst).Pairwise (· < ·)) :
    (alter line f t).find? line = some (f ((t.find? line).getD [])) := by
  induction t with
  | nil => simp [alter, find?]
  | cons e r ih =>
    obtain ⟨n, cs⟩ := e
    simp only [List.map_cons, List.pairwise_cons] at sorted
    unfold alter
    split
    · next hlt =>
      have absent : ∀ t : LineTable, (∀ m ∈ t.map Prod.fst, line < m) → t.find? line = none := by
        intro t
        induction t with
        | nil => intro _; rfl
        | cons e t iht =>
          intro h
          have : e.1 ≠ line := Nat.ne_of_gt (h e.1 (by simp))
          simp only [find?, this, if_false]
          exact iht fun m hm => h m (by simp [hm])
      have hn : n ≠ line := Nat.ne_of_gt hlt
      have hr := absent r fun m hm => Nat.lt_trans hlt (sorted.1 m hm)
      simp [find?, hn, hr]
    · split
      · next h => simp [find?, h]
      · next h => simp [find?, h, ih sorted.2]

theorem find?_alter_of_ne {line other : Nat} (h : other ≠ line) (f : List Capture → List Capture)
    (t : LineTable) : (alter line f t).find? other = t.find? other := by
  induction t with
  | nil => simp [alter, find?, Ne.symm h]
  | cons e r ih =>
    obtain ⟨n, cs⟩ := e
    unfold alter
    split
    · simp [find?, Ne.symm h]
    · split
      · next hn => subst hn; simp [find?, Ne.symm h]
      · simp [find?, ih]

end LineTable

/-- What is known about a run of a program. -/
structure EvalResult where
  lines : LineTable := []
  stdout : Text := []
  /-- Every exception that left the program, in order. -/
  exceptions : List ExceptionRecord := []
  /-- Whether the program reported its end. -/
  finished : Bool := false
  exitStatus : Option Int := none
  /-- How many captures were left out because their line had as many as it may have. -/
  droppedCaptures : Nat := 0
  deriving DecidableEq, Repr

namespace EvalResult

/-- The captures of a line, if anything was recorded for it. -/
def line? (r : EvalResult) (line : Nat) : Option (List Capture) := r.lines.find? line

/-- The values of a line. -/
def valuesAt (r : EvalResult) (line : Nat) : List Text :=
  ((r.line? line).getD []).filterMap Capture.value?

/-- The last exception that left the program. -/
def lastException (r : EvalResult) : Option ExceptionRecord := r.exceptions.getLast?

/-- Whether a line holds as many captures as it may. -/
def isFull (cap : Option Nat) (cs : List Capture) : Bool := cap.any fun max => max ≤ cs.length

/-- Records something for a line, unless the line is full. -/
def capture (cap : Option Nat) (line : Nat) (c : Capture) (r : EvalResult) : EvalResult :=
  let full := isFull cap ((r.line? line).getD [])
  { r with
    lines := r.lines.alter line fun cs => if full then cs else cs ++ [c]
    droppedCaptures := r.droppedCaptures + if full then 1 else 0 }

/-- Takes one event into account; a line holds at most `cap` captures. -/
def add (cap : Option Nat) (r : EvalResult) : Event → EvalResult
  | .value line text => r.capture cap line (.value text)
  | .exception line className message backtrace =>
    let r := r.capture cap line (.exception className message)
    { r with exceptions := r.exceptions ++ [⟨line, className, message, backtrace⟩] }
  | .stdout text => { r with stdout := r.stdout ++ text }
  | .finished status => { r with finished := true, exitStatus := some status }
  | .debug _ => r

/-- The result of some events. -/
def ofEvents (cap : Option Nat) (events : List Event) : EvalResult := events.foldl (add cap) {}

end EvalResult

end Marginalia
