import Marginalia.Proofs.Annotation.Margins

/-!
# Tokens of annotated programs

What annotating does to the tokens of a program: a comment is added before the end of each annotated
line, and nothing else changes, if and only if no annotated line ends in a hinge
(`tokens_annotate_iff`).
-/

namespace Marginalia

open Source Tokenizer

section Accepted

variable {body : Text} {s : Scan} {r : EvalResult} {alignment : Alignment}

/-- Before the end of an annotated line stand carriage returns only. -/
def Returns (u : Text) : Prop := ∀ c ∈ u, c = '\r'

/-- Returns are blanks. -/
theorem Returns.blanks (u : Text) (h : Returns u) : Blanks u := fun c hc => by
  rw [h c hc]
  decide

/-- Without blanks at their ends, lines end in returns at most. -/
theorem tailsOf_returns {l : Layout} (closed : body.Closed)
    (trimmed : ∀ p ∈ Text.pieces body, codeOf p = Text.lineText p) : TailsOf Returns l body r := by
  intro x hx _
  have hpiece := mem_pieces_of_mem_numberedPieces hx
  obtain ⟨ends, returns⟩ := terminator_eq (closed.isLine _ hpiece)
  refine ⟨_, returns, ?_⟩
  rw [← ends, trimmed _ hpiece, Text.lineText_append_terminator]

/-- Each annotation is set off from the code by a space. -/
theorem spaced_annotatedMargins {l : Layout} (closed : body.Closed) :
    Spaced (annotatedMargins l body r alignment closed Returns Returns.blanks) :=
  fun _ _ h => ⟨h.1, h.2.2⟩

theorem endLine_ofSource (body : Text) :
    (Tokenizer.ofSource body).endLine = Text.lineFeeds body + 1 := Nat.add_comm _ _

end Accepted

/-- Let a program be accepted that ends in a line feed and has no blanks at the end of a line, and
let no `$-` take the end of its line. Then the tokens of the annotated program in the lines of the
program are those of the program, with the annotation of each annotated line as a comment before its
end, if and only if the tokenizer comes to no hinge on an annotated line. -/
theorem tokens_annotate_iff {body annotated : Text} {r : EvalResult} {alignment : Alignment}
    {s : Scan} (closed : body.getLast? = some '\n') (accepted : scan body = .ok (.ok s))
    (trimmed : ∀ p ∈ Text.pieces body, codeOf p = Text.lineText p)
    (annotates : annotate body r (.aligned alignment) = .ok annotated)
    (undashed : ∀ t, Reaches (.ofSource body) t → ∀ a, t.cursor.rest ≠ '$' :: '-' :: '\n' :: a) :
    tokensBefore (Text.lineFeeds body + 1) (tokenize annotated).tokens =
        withComments (writtenComment s.layout body r (.aligned alignment))
          (tokensBefore (Text.lineFeeds body + 1) (tokenize body).tokens) ↔
      ∀ t, Reaches (.ofSource body) t → (written s.layout r t.cursor.line).isSome →
        Lexeme.hinges t.memory t.codeAhead = false := by
  have ends : body.Closed := .inr closed
  obtain rfl : annotateWith s.layout body r (.aligned alignment) = annotated := by
    rw [annotate_of_scan accepted] at annotates
    exact Except.ok.inj annotates
  rw [← endLine_ofSource]
  exact tokens_iff (whole_ofSource ends accepted undashed) (fits_annotatedMargins accepted)
    (spaced_annotatedMargins ends) (along_annotatedMargins (tailsOf_returns ends trimmed))

/-- A program with a here-document and both kinds of line ends. -/
theorem tokens_annotate_heredoc :
    let body := "x = <<A\nhi\nA\ny? + x\r\n".toList
    let annotated := "x = <<A  # => 1\nhi\nA\ny? + x   # => 2\r\n\n# >> hi\n".toList
    let r : EvalResult :=
      .ofEvents none [.value 4 "2".toList, .value 1 "1".toList, .stdout "hi\n".toList]
    ∃ s : Scan, body.getLast? = some '\n' ∧ scan body = .ok (.ok s) ∧
      (∀ p ∈ Text.pieces body, codeOf p = Text.lineText p) ∧
      (∀ x ∈ numberedPieces body, (recorded r x.2).isSome → ¬ Text.isBlankText x.1) ∧
      annotate body r (.aligned .file) = .ok annotated ∧
      (∀ t, Reaches (.ofSource body) t → ∀ a, t.cursor.rest ≠ '$' :: '-' :: '\n' :: a) ∧
      tokensBefore (Text.lineFeeds body + 1) (tokenize annotated).tokens =
        withComments (writtenComment s.layout body r (.aligned .file))
          (tokensBefore (Text.lineFeeds body + 1) (tokenize body).tokens) := by
  intro body annotated r
  have checked : ∃ s ∈ scanFor 30 body, annotateWith s.layout body r (.aligned .file) = annotated ∧
      (∀ t ∈ statesFor 30 (.ofSource body), (written s.layout r t.cursor.line).isSome →
        Lexeme.hinges t.memory t.codeAhead = false) ∧
      (∀ t ∈ statesFor 30 (.ofSource body), t.cursor.rest.take 3 ≠ ['$', '-', '\n']) := by
    decide +kernel
  obtain ⟨s, hs, hannotated, clear, undashed⟩ := checked
  have closed : body.getLast? = some '\n' := by decide
  have accepted := scan_of_scanFor hs
  have trimmed : ∀ p ∈ Text.pieces body, codeOf p = Text.lineText p := by decide +kernel
  have shown : ∀ x ∈ numberedPieces body, (recorded r x.2).isSome → ¬ Text.isBlankText x.1 := by
    decide +kernel
  have annotates : annotate body r (.aligned .file) = .ok annotated := by
    rw [annotate_of_scan accepted, hannotated]
  have undashed : ∀ t, Reaches (.ofSource body) t →
      ∀ a, t.cursor.rest ≠ '$' :: '-' :: '\n' :: a := by
    intro t reach a hr
    refine undashed t (mem_statesFor_of_scanFor hs reach) ?_
    rw [hr]
    rfl
  refine ⟨s, closed, accepted, trimmed, shown, annotates, undashed, ?_⟩
  exact (tokens_annotate_iff closed accepted trimmed annotates undashed).2 fun t reach =>
    clear t (mem_statesFor_of_scanFor hs reach)

/-- A colon that ends its line is the operator of a choice; with an annotation behind it, it makes
the name before it a key. -/
theorem tokens_annotate_label :
    let body := "x = foo?:\n 1\n".toList
    let annotated := "x = foo?:  # => 1\n 1\n".toList
    let r : EvalResult := .ofEvents none [.value 1 "1".toList]
    ∃ s : Scan, body.getLast? = some '\n' ∧ scan body = .ok (.ok s) ∧
      (∀ p ∈ Text.pieces body, codeOf p = Text.lineText p) ∧
      (∀ x ∈ numberedPieces body, (recorded r x.2).isSome → ¬ Text.isBlankText x.1) ∧
      annotate body r (.aligned .chunk) = .ok annotated ∧
      tokensBefore (Text.lineFeeds body + 1) (tokenize annotated).tokens ≠
        withComments (writtenComment s.layout body r (.aligned .chunk))
          (tokensBefore (Text.lineFeeds body + 1) (tokenize body).tokens) := by
  intro body annotated r
  have checked : ∃ s ∈ scanFor 30 body, ∃ t ∈ runFor 30 (.ofSource body),
      ∃ u ∈ runFor 40 (.ofSource annotated), annotateWith s.layout body r (.aligned .chunk) =
        annotated ∧
        tokensBefore (Text.lineFeeds body + 1) u.tokens ≠
          withComments (writtenComment s.layout body r (.aligned .chunk))
            (tokensBefore (Text.lineFeeds body + 1) t.tokens) := by
    decide +kernel
  obtain ⟨s, hs, t, ht, u, hu, hannotated, differ⟩ := checked
  have accepted := scan_of_scanFor hs
  refine ⟨s, by decide, accepted, by decide +kernel, by decide +kernel, ?_, ?_⟩
  · rw [annotate_of_scan accepted, hannotated]
  · rw [tokenize, tokenize, run_eq_of_runFor ht, run_eq_of_runFor hu]
    exact differ

end Marginalia
