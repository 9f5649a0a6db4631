import Marginalia.Proofs.Source.Heredocs
import Marginalia.Proofs.Source.Walk

/-!
# Programs that start further down

Lines are counted and never read: a program that starts some lines further down is read by the same
steps, and all that is found in it is found as many lines further down (`run_down`).
-/

namespace Marginalia.Source

variable (k : Nat)

/-! ## The same things further down -/

def Cursor.down (c : Cursor) : Cursor := { c with line := c.line + k }

def LineRange.down (r : LineRange) : LineRange := ⟨r.first + k, r.last + k⟩

def Heredoc.down (h : Heredoc) : Heredoc := { h with line := h.line + k }

def OpenLiteral.down (l : OpenLiteral) : OpenLiteral :=
  { l with line := l.line + k, pending := l.pending.map (Heredoc.down k) }

def Token.down (t : Token) : Token := { t with line := t.line + k, endLine := t.endLine + k }

def Finding.down : Finding → Finding
  | .token t => .token (t.down k)
  | .sealed lines => .sealed (lines.down k)
  | .heredocOpened h => .heredocOpened (h.down k)
  | .heredocRead h lines => .heredocRead (h.down k) (lines.down k)

def Ending.down : Ending → Ending
  | .complete => .complete
  | .refused e => .refused { e with line := e.line + k }
  | .broken f => .broken f

def Tokenizer.down (s : Tokenizer) : Tokenizer :=
  { s with
    cursor := s.cursor.down k
    heredocs := s.heredocs.map (Heredoc.down k)
    suspended := s.suspended.map (OpenLiteral.down k)
    lineCount := s.lineCount + k }

def Step.down : Step → Step
  | .next found s => .next (found.map (Finding.down k)) (s.down k)
  | .stop found ending => .stop (found.map (Finding.down k)) (ending.down k)

@[simp] theorem Cursor.rest_down (c : Cursor) : (c.down k).rest = c.rest := rfl

@[simp] theorem Cursor.atLineStart_down (c : Cursor) : (c.down k).atLineStart = c.atLineStart := rfl

@[simp] theorem Cursor.line_down (c : Cursor) : (c.down k).line = c.line + k := rfl

@[simp] theorem OpenLiteral.flags_down (l : OpenLiteral) : (l.down k).flags = l.flags := rfl

@[simp] theorem OpenLiteral.braces_down (l : OpenLiteral) : (l.down k).braces = l.braces := rfl

@[simp] theorem Token.isPunct_down (t : Token) (w : String) :
    (t.down k).isPunct w = t.isPunct w := rfl

@[simp] theorem Heredoc.body?_down (h : Heredoc) (t : Text) : (h.down k).body? t = h.body? t := rfl

namespace Tokenizer

variable (s : Tokenizer)

@[simp] theorem cursor_down : (s.down k).cursor = s.cursor.down k := rfl

@[simp] theorem memory_down : (s.down k).memory = s.memory := rfl

@[simp] theorem spaced_down : (s.down k).spaced = s.spaced := rfl

@[simp] theorem heredocs_down : (s.down k).heredocs = s.heredocs.map (Heredoc.down k) := rfl

@[simp] theorem suspended_down : (s.down k).suspended = s.suspended.map (OpenLiteral.down k) := rfl

@[simp] theorem lineCount_down : (s.down k).lineCount = s.lineCount + k := rfl

end Tokenizer

theorem tokensOf_down (found : List Finding) :
    tokensOf (found.map (Finding.down k)) = (tokensOf found).map (Token.down k) := by
  induction found with
  | nil => rfl
  | cons f found ih => cases f <;> simp [Finding.down, ih]

theorem Step.prepend_down (found : List Finding) (a : Step) :
    (a.down k).prepend (found.map (Finding.down k)) = (a.prepend found).down k := by
  cases a <;> simp [Step.prepend, Step.down]

/-! ## Steps -/

theorem Cursor.advance_down (n : Nat) (c : Cursor) :
    (c.down k).advance n = (c.advance n).down k := by
  induction n generalizing c with
  | zero => rfl
  | succ n ih =>
    obtain ⟨rest, position, line, start⟩ := c
    cases rest with
    | nil => rfl
    | cons x r =>
      refine Eq.trans ?_ (ih _)
      show advance n ⟨r, position + 1, if x == '\n' then line + k + 1 else line + k, x == '\n'⟩ =
        advance n ⟨r, position + 1, (if x == '\n' then line + 1 else line) + k, x == '\n'⟩
      split <;> simp [Nat.add_right_comm]

/-- The letters behind a literal are passed over alike. -/
theorem Cursor.flags_down (flags : Bool) (c : Cursor) :
    (if flags then (c.down k).advance (run Char.isAlpha (c.down k).rest) else c.down k) =
      (if flags then c.advance (run Char.isAlpha c.rest) else c).down k := by
  cases flags with
  | false => rfl
  | true => exact c.advance_down k _

namespace Tokenizer

variable (s : Tokenizer)

theorem note_down (m : Memory) (t : Token) : m.note (t.down k) = m.note t := rfl

theorem record_down (t : Token) : (s.down k).record (t.down k) = (s.record t).down k := by
  unfold record
  rw [note_down, memory_down, suspended_down, List.isEmpty_map]
  split <;> rfl

theorem readLiteral_down (l : OpenLiteral) :
    (s.down k).readLiteral (l.down k) = (s.readLiteral l).down k := by
  have same : (l.down k).delimiters.read (l.down k).depth (l.down k).inClass
    (s.down k).cursor.rest =
      l.delimiters.read l.depth l.inClass s.cursor.rest := rfl
  unfold readLiteral
  rw [same]
  cases l.delimiters.read l.depth l.inClass s.cursor.rest with
  | closed n =>
    dsimp only
    rw [cursor_down, Cursor.advance_down, OpenLiteral.flags_down, Cursor.flags_down, ← record_down]
    rfl
  | interpolation n depth inClass =>
    dsimp only
    rw [cursor_down, Cursor.advance_down]
    rfl
  | unterminated => rfl
  | split => rfl

theorem settle_down (t : Token) : (s.down k).settle (t.down k) = (s.settle t).down k := by
  unfold settle
  rw [suspended_down]
  cases s.suspended with
  | nil => exact record_down k s t
  | cons l outer =>
    rw [List.map_cons]
    dsimp only
    rw [Token.isPunct_down, Token.isPunct_down, OpenLiteral.braces_down]
    split
    · exact record_down k { s with suspended := { l with braces := l.braces + 1 } :: outer } t
    split
    · split
      · exact readLiteral_down k { s with suspended := outer, heredocs := l.pending, memory := _ } l
      · next n _ => exact record_down k { s with suspended := { l with braces := n } :: outer } t
    · exact record_down k s t

theorem behind_down (kind : TokenKind) (more : Nat) :
    (s.down k).behind kind more = (s.behind kind more).down k := by
  unfold behind
  dsimp only
  rw [cursor_down, Cursor.advance_down]
  split <;> rfl

theorem cut_down (kind : TokenKind) (text : Text) (c : Cursor) :
    (s.down k).cut kind text (c.down k) = (s.cut kind text c).down k := rfl

theorem take_down (kind : TokenKind) (more : Nat) :
    (s.down k).take kind more = (s.take kind more).down k := by
  unfold take
  dsimp only
  rw [behind_down, cut_down]
  exact settle_down k { s with cursor := s.behind kind more } _

theorem readBodies_down (hs : List Heredoc) (line : Nat) (t : Text) :
    readBodies (hs.map (Heredoc.down k)) (line + k) t =
      ((readBodies hs line t).1.map (Finding.down k),
        (readBodies hs line t).2.mapError (Heredoc.down k)) := by
  induction hs generalizing line t with
  | nil => rfl
  | cons h hs ih =>
    rw [List.map_cons, readBodies, readBodies, Heredoc.body?_down]
    cases hbody : h.body? t with
    | none => rfl
    | some body =>
      obtain ⟨length, lines⟩ := body
      obtain ⟨j, -, -, rfl⟩ := body?_eq_some hbody
      have last : line + k + (j + 1) - 1 = line + (j + 1) - 1 + k := by omega
      dsimp only
      rw [last, Nat.add_right_comm, ih]
      cases (readBodies hs (line + (j + 1)) (t.drop length)).2 <;> rfl

theorem takeNewline_down : (s.down k).takeNewline = s.takeNewline.down k := by
  unfold takeNewline
  dsimp only
  rw [cursor_down, Cursor.advance_down, heredocs_down, Cursor.line_down, Cursor.rest_down,
    readBodies_down]
  cases readBodies s.heredocs (s.cursor.advance 1).line (s.cursor.advance 1).rest with
  | mk found taken =>
    cases taken with
    | error h => rfl
    | ok more =>
      obtain ⟨length, lines⟩ := more
      dsimp only [Except.mapError]
      rw [Cursor.advance_down, ← Step.prepend_down, ← record_down, Nat.add_right_comm]
      rfl

theorem readLexeme_down (c : Char) (r : Text) :
    (s.down k).readLexeme c r = (s.readLexeme c r).down k := by
  unfold readLexeme
  rw [memory_down, spaced_down]
  cases Lexeme.read s.memory s.spaced c r with
  | token kind more => exact take_down k s kind more
  | newline => exact takeNewline_down k s
  | delimited more delimiters flags =>
    dsimp only
    rw [cursor_down, Cursor.advance_down]
    exact readLiteral_down k { s with cursor := _ } ⟨_, _, _, _, _, 0, false, 0, []⟩
  | heredoc more id indented =>
    dsimp only
    have opened := take_down k { s with heredocs := s.heredocs ++ [⟨id, indented, s.cursor.line⟩] }
      .literal more
    rw [← Step.prepend_down, ← opened]
    simp [down, Heredoc.down, Cursor.down, Finding.down]
  | brokenHeredoc => rfl
  | split => rfl

theorem readToken_down (c : Char) (r : Text) :
    (s.down k).readToken c r = (s.readToken c r).down k := by
  unfold readToken
  rw [memory_down]
  split
  · split
    · rw [← take_down]
      rfl
    · rw [← readLexeme_down]
      rfl
  · exact readLexeme_down k s c r

theorem finish_down (found : List Finding) :
    (s.down k).finish (found.map (Finding.down k)) = (s.finish found).down k := by
  unfold finish
  rw [suspended_down]
  cases s.suspended with
  | nil =>
    rw [Step.down, List.map_append]
    rfl
  | cons l outer => rfl

theorem skip_down (n : Nat) : (s.down k).skip n = (s.skip n).down k := by
  unfold skip
  rw [cursor_down, Cursor.advance_down]
  rfl

/-- A step does not depend on the number of its line. -/
theorem step_down : (s.down k).step = s.step.down k := by
  have skipped (n : Nat) (found : List Finding) : Step.next (found.map (Finding.down k))
      ((s.down k).skip n) = (Step.next found (s.skip n)).down k := by
    rw [skip_down]
    rfl
  unfold step
  rw [cursor_down, Cursor.rest_down]
  cases s.cursor.rest with
  | nil =>
    dsimp only
    rw [heredocs_down]
    cases s.heredocs with
    | nil => exact finish_down k s []
    | cons h hs => rfl
  | cons c r =>
    dsimp only
    rw [Cursor.atLineStart_down, Cursor.line_down, lineCount_down, Nat.add_max_add_right]
    split
    -- an embedded document
    · split
      · rw [Cursor.advance_down, Nat.add_right_comm]
        rfl
      · rfl
    split
    -- the end of the program
    · rw [← finish_down]
      rfl
    -- what separates tokens
    split
    · exact skipped 1 []
    split
    · exact skipped 2 [.sealed ⟨s.cursor.line, s.cursor.line⟩]
    split
    · exact skipped 3 [.sealed ⟨s.cursor.line, s.cursor.line⟩]
    · exact readToken_down k s c r

/-- A program that starts some lines further down is read by the same steps. -/
theorem run_down : (s.down k).run = ⟨s.run.found.map (Finding.down k), s.run.ending.down k⟩ := by
  have hdown := step_down k s
  induction s using walk_induction with
  | stop s found ending h =>
    rw [h] at hdown
    rw [run_of_stop h, run_of_stop hdown]
  | next s found t h ih =>
    rw [h] at hdown
    rw [run_of_next h, run_of_next hdown, ih (step_down k t), List.map_append]

end Tokenizer

end Marginalia.Source
