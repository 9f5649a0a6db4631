import Marginalia.Proofs.Instrumented.Wrapping
import Marginalia.Proofs.Source.Moves

/-!
# How statements lie in a program

The scanner gives the statements of a program in the order in which they end
(`statements_arranged`): of two, the first ends before the other starts, or it is one of the
statements in a body of the other. No two start or end at the same place, and every one reaches from
the start of a token of code to the end of one.

The line that is kept for a statement is the line on which the last of its tokens ends
(`endLine_of_statement`). Only the tokens that touch a statement matter for this, and so it is shown
for the moves of the scanner.
-/

namespace Marginalia.Source

/-! ## Spans -/

/-- A statement that ended before another one did starts elsewhere and ends earlier. -/
theorem Statement.Apart.ends_before {a b : Statement} (h : a.Apart b)
    (nonempty : b.start < b.stop) :
    a.stop < b.stop := by
  rcases h with ahead | ⟨-, inside, -⟩
  · exact Nat.lt_of_le_of_lt ahead nonempty
  · exact inside

/-- Statements that lie apart start at different places. -/
theorem Statement.Apart.start_ne {a b : Statement} (h : a.Apart b) (nonempty : a.start < a.stop) :
    a.start ≠ b.start := by
  rcases h with ahead | ⟨inside, -, -⟩
  · exact Nat.ne_of_lt (Nat.lt_of_lt_of_le nonempty ahead)
  · exact Nat.ne_of_gt inside

/-- Of two statements of an accepted program, the one that is told first ends first and starts
elsewhere: it ends before the other starts, or it lies strictly inside the other and in more bodies.
Each statement has characters, from the start of a token of code to the end of one. -/
theorem statements_arranged {source : Text} {s : Scan} (accepted : scan source = .ok (.ok s)) :
    s.statements.Pairwise (fun a b => a.start ≠ b.start ∧ a.stop < b.stop ∧
      (a.stop ≤ b.start ∨ (b.start < a.start ∧ a.stop < b.stop ∧ b.depth < a.depth))) ∧
    ∀ e ∈ s.statements, e.start < e.stop ∧
      (∃ t ∈ (tokenize source).tokens, Scanner.isCode t.kind ∧ t.start = e.start) ∧
      ∃ t ∈ (tokenize source).tokens, Scanner.isCode t.kind ∧ t.stop = e.stop := by
  obtain ⟨laminar, ends⟩ := statements_of_scan accepted
  refine ⟨laminar.apart.imp_of_mem fun {a b} ha hb apart => ?_, fun e he => ?_⟩
  · exact ⟨apart.start_ne (laminar.nonempty a ha), apart.ends_before (laminar.nonempty b hb), apart⟩
  · obtain ⟨starts, stops, -⟩ := ends e he
    exact ⟨laminar.nonempty e he, starts, stops⟩

/-- A body inside a statement, and a definition without an end beside it. -/
theorem statements_arranged_bodies :
    ∃ s : Scan, scan "x = if a\n  b; c\nend\ndef d = 1\n".toList = .ok (.ok s) ∧
      s.statements.length = 4 ∧
        s.statements.Pairwise (fun a b => a.start ≠ b.start ∧ a.stop < b.stop ∧
        (a.stop ≤ b.start ∨ (b.start < a.start ∧ a.stop < b.stop ∧ b.depth < a.depth))) := by
  have scanned : (scanFor 40 "x = if a\n  b; c\nend\ndef d = 1\n".toList).any
      (·.statements.length == 4) := by decide +kernel
  obtain ⟨s, hs, hlength⟩ := (Option.any_eq_true ..).1 scanned
  exact ⟨s, scan_of_scanFor hs, eq_of_beq hlength, (statements_arranged (scan_of_scanFor hs)).1⟩

/-! ## Lines -/

namespace Scanner

variable {Ends : Nat → Nat → Prop} {s s' : Scanner} {t : Token}

/-- Where the statements that a scanner knows of end, and on which line: it has seen something end
there. -/
structure Lined (Ends : Nat → Nat → Prop) (s : Scanner) : Prop where
  ended : ∀ e ∈ s.statements, Ends e.stop e.line
  opened : ∀ f ∈ s.top :: s.below, ∀ o, f.statement = some o → Ends o.stop o.line

theorem lined_start : ({} : Scanner).Lined Ends where
  ended _ he := nomatch he
  opened f hf o ho := by
    rw [List.mem_singleton.1 hf] at ho
    cases ho

/-- The end of a statement leaves all statements with their last lines. -/
theorem Lined.endStatement (h : s.Lined Ends) : s.endStatement.Lined Ends := by
  unfold Scanner.endStatement
  split
  · exact h
  · next o ho =>
    have ends := h.opened s.top List.mem_cons_self o ho
    have below := fun f hf => h.opened f (List.mem_cons_of_mem s.top hf)
    refine ⟨fun e he => ?_, List.forall_mem_cons.2 ⟨fun _ none => (nomatch none), below⟩⟩
    dsimp only at he
    split at he
    · rcases List.mem_append.1 he with he | he
      · exact h.ended e he
      · rw [List.mem_singleton.1 he]
        exact ends
    · exact h.ended e he

/-- A change of the header leaves all statements with their last lines. -/
theorem Lined.setHeader (h : s.Lined Ends) (header : Header) : (s.setHeader header).Lined Ends :=
  ⟨h.ended, List.forall_mem_cons.2 (List.forall_mem_cons.1 h.opened)⟩

/-- The end of a header or of a statement leaves all statements with their last lines. -/
theorem Lined.endHeaderOrStatement (h : s.Lined Ends) : s.endHeaderOrStatement.Lined Ends := by
  unfold Scanner.endHeaderOrStatement
  split
  · exact h.endStatement
  · exact h.setHeader .body

/-- A token that is added to a statement gives it its last line. -/
theorem Lined.touch (h : s.Lined Ends) (ends : Ends t.stop t.endLine) : (s.touch t).Lined Ends := by
  obtain ⟨same, -⟩ | ⟨w, -, touched⟩ := touch_cases s t
  · rwa [same]
  · rw [touched]
    refine ⟨h.ended, List.forall_mem_cons.2 ⟨fun o ho => ?_, fun f hf => ?_⟩⟩
    · cases ho
      exact ends
    · exact h.opened f (List.mem_cons_of_mem s.top hf)

/-- Dropping a frame leaves all statements with their last lines. -/
theorem Lined.dropFrame (h : s.Lined Ends) : s.dropFrame.Lined Ends := by
  unfold Scanner.dropFrame
  split
  · exact h
  · next f fs hbelow =>
    refine ⟨h.ended, fun g hg => h.opened g (List.mem_cons_of_mem s.top ?_)⟩
    rw [hbelow]
    exact hg

/-- A move leaves all statements with their last lines. -/
theorem lined_move (ends : Ends t.stop t.endLine) (h : s.Lined Ends) (move : Move t s s') :
    s'.Lined Ends := by
  cases move with
  | touch => exact h.touch ends
  | endStatement => exact h.endStatement
  | setHeader => exact h.setHeader _
  | enter => exact ⟨h.ended, List.forall_mem_cons.2 ⟨fun _ none => (nomatch none), h.opened⟩⟩
  | leave => exact (h.dropFrame.setHeader _).touch ends
  | openBracket | dropBracket | remember | comment => exact ⟨h.ended, h.opened⟩

/-- Tokens of code tell where statements end; other tokens only end them. -/
theorem lined_feed (ends : isCode t.kind → Ends t.stop t.endLine) (hs : s.Lined Ends)
    (h : s.feed t = .ok s') : s'.Lined Ends := by
  by_cases code : isCode t.kind
  · exact invariant_feed (P := Lined Ends)
      (fun _ _ move kept => lined_move (ends code) kept move) hs h
  obtain ⟨m, fed, -⟩ := fed_of_feed h
  cases fed with
  | comment => exact ⟨hs.ended, hs.opened⟩
  | pass => exact hs
  | ends => exact ⟨hs.endHeaderOrStatement.ended, hs.endHeaderOrStatement.opened⟩
  | code coded => exact absurd coded code

/-- Whatever tokens are fed, all statements have their last lines. -/
theorem lined_foldlM {ts : List Token} (ends : ∀ t ∈ ts, isCode t.kind → Ends t.stop t.endLine)
    (hs : s.Lined Ends) (h : ts.foldlM feed s = .ok s') : s'.Lined Ends := by
  induction ts generalizing s with
  | nil =>
    cases h
    exact hs
  | cons t ts ih =>
    obtain ⟨r, hr, h⟩ := foldlM_cons_eq_ok.1 h
    exact ih (fun k hk => ends k (List.mem_cons_of_mem t hk))
      (lined_feed (ends t List.mem_cons_self) hs hr) h

end Scanner

/-- The line of a statement is the one on which its last token ends. -/
theorem endLine_of_statement {source : Text} {s : Scan} (accepted : scan source = .ok (.ok s)) :
    ∀ e ∈ s.statements, ∃ t ∈ (tokenize source).tokens, Scanner.isCode t.kind ∧ t.stop = e.stop ∧
      t.endLine = e.line := by
  obtain ⟨r, fed, -, rfl⟩ := Scan.eq_of_scan accepted
  have lined : r.Lined fun stop line => ∃ t ∈ (tokenize source).tokens, Scanner.isCode t.kind ∧
      t.stop = stop ∧ t.endLine = line :=
    Scanner.lined_foldlM (fun t ht code => ⟨t, ht, code, rfl, rfl⟩) Scanner.lined_start fed
  exact lined.ended

end Marginalia.Source
