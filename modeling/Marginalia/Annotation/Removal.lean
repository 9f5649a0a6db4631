import Marginalia.Markers
import Marginalia.Source.Scanner

/-!
# Removing annotations

Takes the annotations of an earlier run out of a program. A comment is an annotation if it starts
with a marker. An annotation behind code is cut off with the blanks before it; a line that holds an
annotation only is dropped. Blank lines at the end of the program are dropped with the annotations
among them, because an appended block starts with a blank line.
-/

namespace Marginalia

open Source

/-- What becomes of a line. -/
inductive Kept where
  /-- It stays as it is. -/
  | whole (piece : Text)
  /-- Only its code and its end stay. -/
  | trimmed (code terminator : Text)
  /-- It holds nothing but an annotation. -/
  | dropped
  deriving DecidableEq, Repr

namespace Kept

/-- What is left of a line. -/
def text : Kept → Text
  | .whole piece => piece
  | .trimmed code terminator => code ++ terminator
  | .dropped => []

/-- Whether a line is empty or holds an annotation only. -/
def isTail : Kept → Bool
  | .whole piece => piece == ['\n'] || piece == ['\r', '\n']
  | .trimmed .. => false
  | .dropped => true

end Kept

/-- What becomes of a line that starts at a position. There is no answer if the comment recorded for
it stands on another line. -/
def keepLine (body : Text) (l : Layout) (m : Markers) (start line : Nat) (piece : Text) :
    Except Fault Kept :=
  match l.commentOn line with
  | none => .ok (.whole piece)
  | some c =>
    if m.isAnnotation ((body.drop c.start).take (c.stop - c.start)) then
      let content := Text.lineText piece
      -- the comment has to stand on the line for which it is recorded
      if start ≤ c.start ∧ c.start ≤ start + content.length then
        let code := content.take (c.start - start)
        .ok (if Text.isBlankText code then .dropped
          else .trimmed (Text.trimEnd code) (Text.terminator piece))
      else .error (.strayComment line)
    else .ok (.whole piece)

/-- What becomes of the lines from one that starts at a position. -/
def keepLines (body : Text) (l : Layout) (m : Markers) :
    Nat → Nat → List Text → Except Fault (List Kept)
  | _, _, [] => .ok []
  | start, line, p :: ps => do
    let k ← keepLine body l m start line p
    let ks ← keepLines body l m (start + p.length) (line + 1) ps
    return k :: ks

/-- Drops the empty lines and annotations at the end, if there are annotations among them. -/
def dropTail (ks : List Kept) : List Kept :=
  let front := Text.dropEndWhile Kept.isTail ks
  if (ks.drop front.length).any (· == .dropped) then front else ks

/-- The program without its annotations, given its layout. -/
def removeWith (body : Text) (l : Layout) (m : Markers) : Except Fault Text :=
  (keepLines body l m 0 1 (Text.pieces body)).map fun ks => (dropTail ks).flatMap Kept.text

/-- The program without its annotations. A program that is refused stays as it is. -/
def removeAnnotations (body : Text) (m : Markers) : Except Fault Text := do
  match ← scan body with
  | .ok s => removeWith body s.layout m
  | .error _ => return body

theorem removeAnnotations_of_scan {body : Text} {s : Scan} (m : Markers)
    (h : scan body = .ok (.ok s)) : removeAnnotations body m = removeWith body s.layout m := by
  rw [removeAnnotations, h]
  rfl

/-- A program that is refused is left as it is. -/
theorem removeAnnotations_eq_ok {body cleaned : Text} {m : Markers}
    (h : removeAnnotations body m = .ok cleaned) :
    (∃ e, scan body = .ok (.error e) ∧ cleaned = body) ∨
      ∃ s, scan body = .ok (.ok s) ∧ removeWith body s.layout m = .ok cleaned := by
  cases hscan : scan body with
  | error f =>
    rw [removeAnnotations, hscan] at h
    cases h
  | ok answer =>
    cases answer with
    | error e =>
      rw [removeAnnotations, hscan] at h
      exact .inl ⟨e, rfl, (Except.ok.inj h).symm⟩
    | ok s =>
      rw [removeAnnotations_of_scan m hscan] at h
      exact .inr ⟨s, rfl, h⟩

end Marginalia
