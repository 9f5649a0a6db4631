import Marginalia.Proofs.Source.Accepted
import Marginalia.Proofs.Source.Moves

/-!
# Comments of a program

Of all tokens, the scanner keeps only comments in the layout, and it keeps all of them
(`comments_of_scan`).
-/

namespace Marginalia.Source

namespace Scanner

variable {s s' : Scanner} {t : Token}

/-! ## One token -/

theorem comments_endStatement (s : Scanner) : s.endStatement.comments = s.comments := by
  unfold endStatement
  split <;> rfl

theorem comments_touch (s : Scanner) (t : Token) : (s.touch t).comments = s.comments := by
  unfold touch
  split <;> rfl

theorem comments_dropFrame (s : Scanner) : s.dropFrame.comments = s.comments := by
  unfold dropFrame
  split <;> rfl

/-- Only a comment is kept as one. -/
theorem comments_of_move (other : t.kind ≠ .comment) (h : Move t s s') :
    s'.comments = s.comments := by
  cases h with
  | touch => exact comments_touch s t
  | endStatement => exact comments_endStatement s
  | leave => exact (comments_touch _ t).trans (comments_dropFrame s)
  | comment kind => exact absurd kind other
  | setHeader | enter | openBracket | dropBracket | remember => rfl

/-- A comment is kept, and no other token is. -/
theorem comments_feed (h : s.feed t = .ok s') : s'.comments =
    s.comments ++ if t.kind = .comment then [⟨t.line, t.start, t.stop⟩] else [] := by
  by_cases kind : t.kind = .comment
  · unfold feed at h
    rw [kind] at h
    rw [← Except.ok.inj h, if_pos kind]
  · rw [if_neg kind, List.append_nil]
    exact invariant_feed (P := fun r => r.comments = s.comments)
      (fun _ _ move same => (comments_of_move kind move).trans same) rfl h

/-! ## All tokens -/

/-- The comments among some tokens, as they stand in a layout. -/
def commentsOf (ts : List Token) : List Comment :=
  (ts.filter fun t => t.kind == .comment).map fun t => ⟨t.line, t.start, t.stop⟩

/-- The comments are those among the tokens. -/
theorem comments_foldlM {ts : List Token} (h : ts.foldlM feed s = .ok s') :
    s'.comments = s.comments ++ commentsOf ts := by
  induction ts generalizing s with
  | nil =>
    rw [← Except.ok.inj h]
    exact (List.append_nil _).symm
  | cons t ts ih =>
    obtain ⟨u, hfeed, h⟩ := foldlM_cons_eq_ok.1 h
    rw [ih h, comments_feed hfeed, List.append_assoc]
    congr 1
    unfold commentsOf
    rw [List.filter_cons]
    by_cases kind : t.kind = .comment
    · rw [if_pos kind, if_pos (beq_iff_eq.2 kind)]
      rfl
    · rw [if_neg kind, if_neg (mt beq_iff_eq.1 kind)]
      rfl

end Scanner

/-- The comments of an accepted program are its tokens of that kind. -/
theorem comments_of_scan {source : Text} {s : Scan} (h : scan source = .ok (.ok s)) :
    s.layout.comments = Scanner.commentsOf (tokenize source).tokens := by
  obtain ⟨r, fed, -, rfl⟩ := Scan.eq_of_scan h
  exact (Scanner.comments_foldlM fed).trans (List.nil_append _)

end Marginalia.Source
