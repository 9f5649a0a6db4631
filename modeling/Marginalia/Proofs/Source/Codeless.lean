import Marginalia.Proofs.Source.Insertion

/-!
# Lines without code

A walk over lines that are empty or comments finds a comment for each line that is one, the ends of
the lines, and the end of the program (`run_of_codeless`).
-/

namespace Marginalia.Source

/-! ## Comments by line -/

/-- Among some tokens there is a comment with these characters on a line. -/
def HasComment (ts : List Token) (line : Nat) (text : Text) : Prop :=
  ∃ k ∈ ts, k.kind = .comment ∧ k.line = line ∧ k.text = text

variable {ts us : List Token} {k : Token} {line : Nat} {text : Text}

theorem hasComment_append :
    HasComment (ts ++ us) line text ↔ HasComment ts line text ∨ HasComment us line text := by
  unfold HasComment
  simp only [List.mem_append, or_and_right, exists_or]

/-- Without a token of that kind there is no comment. -/
theorem not_hasComment_of_kind (kinds : ∀ k ∈ ts, k.kind ≠ .comment) : ¬ HasComment ts line text :=
  fun ⟨k, hk, comment, _⟩ => kinds k hk comment

/-- The comments are told by how the tokens look. -/
theorem hasComment_iff_view : HasComment ts line text ↔
    ∃ v ∈ ts.map Token.view, v.kind = .comment ∧ v.line = line ∧ v.text = text := by
  unfold HasComment
  constructor
  · rintro ⟨k, hk, comment⟩
    exact ⟨k.view, List.mem_map_of_mem hk, comment⟩
  · rintro ⟨v, hv, comment⟩
    obtain ⟨k, hk, rfl⟩ := List.mem_map.1 hv
    exact ⟨k, hk, comment⟩

/-- The comments of the second walk are those of the first, and those before the ends of lines. -/
theorem hasComment_of_woven {m : Margins} {f g : List Finding} (woven : Tokenizer.Woven m f g) :
    HasComment (tokensOf g) line text ↔ HasComment (tokensOf f) line text ∨
      (∃ k ∈ tokensOf f, k.kind = .newline ∧ k.line = line) ∧ m.comment line = some text := by
  rw [hasComment_iff_view, Tokenizer.views_of_woven woven, hasComment_iff_view]
  constructor
  · rintro ⟨v, hv, comment, rfl, rfl⟩
    rcases mem_withComments.1 hv with hv | ⟨w, hw, newline, c, hc, rfl⟩
    · exact .inl ⟨v, hv, comment, rfl, rfl⟩
    · obtain ⟨k, hk, rfl⟩ := List.mem_map.1 hw
      exact .inr ⟨⟨k, hk, newline, rfl⟩, hc⟩
  · rintro (⟨v, hv, comment⟩ | ⟨⟨k, hk, newline, rfl⟩, hc⟩)
    · exact ⟨v, mem_withComments.2 (.inl hv), comment⟩
    · exact ⟨_, mem_withComments.2 (.inr ⟨k.view, List.mem_map_of_mem hk, newline, text, hc, rfl⟩),
        rfl, rfl, rfl⟩

namespace Tokenizer

variable {t : Tokenizer} {l : Text} {ls : List Text}

/-- A line that is empty or a comment. -/
def Codeless (l : Text) : Prop := '\n' ∉ l ∧ (l = [] ∨ ∃ r, l = '#' :: r)

/-- Where no here-document waits, a line feed leads to the next line. -/
theorem step_of_bare_lineFeed {b : Text} (hr : t.cursor.rest = '\n' :: b)
    (outside : t.suspended = [])
    (heredocs : t.heredocs = []) :
    ∃ k u, t.step = .next [.token k] u ∧ k.kind = .newline ∧ u.cursor.rest = b ∧
      u.cursor.line = t.cursor.line + 1 ∧ u.suspended = [] ∧ u.heredocs = [] := by
  have below : t.cursor.advance 1 = ⟨b, t.cursor.position + 1, t.cursor.line + 1, true⟩ := by
    unfold Cursor.advance
    rw [hr]
    rfl
  have hstep := step_of_lineFeed hr
  unfold takeNewline at hstep
  rw [show t.unnamed.cursor = t.cursor from rfl, show t.unnamed.heredocs = [] from heredocs, below]
    at hstep
  dsimp only [readBodies, record] at hstep
  rw [show t.unnamed.suspended.isEmpty = true from List.isEmpty_iff.2 outside, if_pos rfl] at hstep
  exact ⟨_, _, hstep, rfl, rfl, rfl, outside, rfl⟩

/-- What a walk finds on lines from the given one on: ends of lines and comments, each of which
stands on the line that it is numbered with. -/
structure LineNotes (ts : List Token) (first last : Nat) (ls : List Text) : Prop where
  kinds : ∀ k ∈ ts, k.kind = .comment ∨ k.kind = .newline
  comments : ∀ n x, HasComment ts n x ↔ ∃ i, n = first + i ∧ ls[i]? = some x ∧ x ≠ []
  stands : ∀ k ∈ ts, k.kind = .comment → k.line + Text.lineFeeds k.after = last

/-- The notes of some lines are those of the first, and of the rest. -/
theorem LineNotes.cons {first last : Nat} (line : LineNotes ts first last [l])
    (rest : LineNotes us (first + 1) last ls) :
    LineNotes (ts ++ us) first last (l :: ls) where
  kinds k hk := (List.mem_append.1 hk).elim (line.kinds k) (rest.kinds k)
  stands k hk := (List.mem_append.1 hk).elim (line.stands k) (rest.stands k)
  comments n x := by
    rw [hasComment_append, line.comments, rest.comments]
    constructor
    · rintro (⟨i, rfl, hi, some⟩ | ⟨i, rfl, hi, some⟩)
      · cases i with
        | zero => exact ⟨0, rfl, hi, some⟩
        | succ i => cases hi
      · exact ⟨i + 1, by rw [Nat.add_assoc, Nat.add_comm 1], hi, some⟩
    · rintro ⟨i, rfl, hi, some⟩
      cases i with
      | zero => exact .inl ⟨0, rfl, hi, some⟩
      | succ i => exact .inr ⟨i, by rw [Nat.add_assoc, Nat.add_comm 1], hi, some⟩

/-- The walk over one line without code. -/
theorem finds_codeless {b : Text} (codeless : Codeless l) (hr : t.cursor.rest = l ++ '\n' :: b)
    (outside : t.suspended = []) (heredocs : t.heredocs = []) :
    ∃ f v, Finds t f v ∧ v.cursor.rest = b ∧
      v.cursor.line = t.cursor.line + 1 ∧ v.suspended = [] ∧ v.heredocs = [] ∧
      LineNotes (tokensOf f) t.cursor.line (t.cursor.line + 1 + Text.lineFeeds b) [l] := by
  obtain ⟨noLineFeed, rfl | ⟨r, rfl⟩⟩ := codeless
  · obtain ⟨k, v, hstep, newline, rest, line, outside', heredocs'⟩ :=
      step_of_bare_lineFeed hr outside heredocs
    have other : k.kind ≠ .comment := by rw [newline]; nofun
    refine ⟨_, v, .one hstep, rest, line, outside', heredocs', ⟨?_, fun n x => ?_, ?_⟩⟩
    · exact List.forall_mem_singleton.2 (.inr newline)
    · refine iff_of_false (not_hasComment_of_kind (List.forall_mem_singleton.2 other)) ?_
      rintro ⟨i, -, hi, some⟩
      cases i with
      | zero => exact some (Option.some.inj hi).symm
      | succ i => cases hi
    · exact List.forall_mem_singleton.2 fun comment => absurd comment other
  · have hr' : '\n' ∉ r := fun h => noLineFeed (List.mem_cons_of_mem _ h)
    -- a comment, and then the end of the line
    obtain ⟨c, comment, text, here, -, after, first⟩ := step_of_comment hr hr'
    rw [show t.suspended.isEmpty = true from List.isEmpty_iff.2 outside, if_pos rfl] at first
    have place : (t.cursor.advance (r.length + 1)).rest = '\n' :: b := by
      rw [Cursor.rest_advance, hr, List.cons_append, List.drop_succ_cons, List.drop_left]
    have same : (t.cursor.advance (r.length + 1)).line = t.cursor.line := by
      apply Cursor.line_advance_of_notMem
      rw [hr, List.cons_append, List.take_succ_cons, List.take_left]
      exact noLineFeed
    obtain ⟨k, v, hstep, newline, rest, line, outside', heredocs'⟩ := step_of_bare_lineFeed
      (t := { t.unnamed with cursor := t.cursor.advance (r.length + 1) }) place outside heredocs
    have other : k.kind ≠ .comment := by rw [newline]; nofun
    refine ⟨_, v, (Finds.one first).step hstep, rest, line.trans (congrArg (· + 1) same), outside',
      heredocs', ⟨?_, fun n x => ⟨?_, ?_⟩, ?_⟩⟩
    · rintro l (_ | ⟨_, _ | ⟨_, h⟩⟩)
      · exact .inl comment
      · exact .inr newline
      · cases h
    · rintro ⟨l, _ | ⟨_, _ | ⟨_, h⟩⟩, kind, rfl, rfl⟩
      · exact ⟨0, here, by rw [text]; rfl, by rw [text]; exact List.cons_ne_nil _ _⟩
      · exact absurd kind other
      · cases h
    · rintro ⟨i, rfl, hi, -⟩
      cases i with
      | zero => exact ⟨c, List.mem_cons_self, comment, here, text.trans (Option.some.inj hi)⟩
      | succ i => cases hi
    · rintro l (_ | ⟨_, _ | ⟨_, h⟩⟩) kind
      · rw [here, after, Text.lineFeeds_lineFeed]
        omega
      · exact absurd kind other
      · cases h

/-- The walk over lines without code, up to the end of the program. -/
theorem run_of_codeless (codeless : ∀ l ∈ ls, Codeless l)
    (hr : t.cursor.rest = (ls.map (· ++ ['\n'])).flatten) (outside : t.suspended = [])
    (heredocs : t.heredocs = []) : t.run.ending = .complete ∧ ∃ ts eof,
      t.run.tokens = ts ++ [eof] ∧ eof.kind = .eof ∧
      LineNotes ts t.cursor.line (t.cursor.line + ls.length) ls := by
  -- line by line, each found by its own walk
  induction ls generalizing t with
  | nil =>
    have hstep : t.step = .stop [.token (t.cut .eof [] t.cursor)] .complete :=
      (step_of_end hr heredocs).trans (finish_of_outside outside)
    rw [run_of_stop hstep]
    refine ⟨rfl, [], _, rfl, rfl, ⟨nofun, fun n x => ?_, nofun⟩⟩
    exact iff_of_false (fun ⟨_, hk, _⟩ => nomatch hk) fun ⟨_, _, hi, _⟩ => nomatch hi
  | cons l ls ih =>
    rw [List.forall_mem_cons] at codeless
    rw [List.map_cons, List.flatten_cons, List.append_assoc, List.singleton_append] at hr
    obtain ⟨f, v, walk, rest, line, outside', heredocs', first⟩ :=
      finds_codeless codeless.1 hr outside heredocs
    obtain ⟨complete, ts, eof, tokens, kind, others⟩ := ih codeless.2 rest outside' heredocs'
    have count : Text.lineFeeds (ls.map (· ++ ['\n'])).flatten = ls.length := by
      rw [Text.lineFeeds_flatten, List.length_map]
      rintro p hp
      obtain ⟨l, hl, rfl⟩ := List.mem_map.1 hp
      exact ⟨l, (codeless.2 l hl).1, rfl⟩
    rw [Tokenization.tokens_eq] at tokens ⊢
    rw [walk.run_eq]
    refine ⟨complete, tokensOf f ++ ts, eof, ?_, kind, ?_⟩
    · rw [tokensOf_append, tokens, List.append_assoc]
    · rw [count] at first
      rw [line, Nat.add_assoc, Nat.add_comm 1] at others
      rw [Nat.add_assoc, Nat.add_comm 1] at first
      exact first.cons others

end Tokenizer

end Marginalia.Source
