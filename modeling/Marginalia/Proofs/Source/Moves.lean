import Mathlib.Logic.Relation
import Marginalia.Proofs.Source.Spans

/-!
# The moves of the scanner

Whatever the scanner does with a token, it does by a few moves (`moves_feed`): it touches or ends
the statement of the innermost body, reads on in a header, enters or leaves a body, opens or closes
a bracket, or takes a note. A fact that every move keeps is therefore kept by every token, and has
to be looked into for these moves rather than for all words and brackets.
-/

namespace Marginalia.Source

namespace Scanner

/-- One move of the scanner, made for a token. -/
inductive Move (t : Token) : Scanner → Scanner → Prop where
  | touch (s : Scanner) : Move t s (s.touch t)
  | endStatement (s : Scanner) : Move t s s.endStatement
  /-- Only the header of a `def` is read on to another part of such a header, and a header starts
  anew only where no statement is open. -/
  | setHeader (s : Scanner) {h : Header} (method : h.isMethod → s.top.header.isMethod)
      (quiet : h = .body ∨ s.top.header ≠ .body ∨ s.top.statement = none) :
      Move t s (s.setHeader h)
  | enter (s : Scanner) {kind : BlockKind} {header : Header} (inner : kind ≠ .program)
      (method : header.isMethod → kind = .methodDef) :
      Move t s
        { s with
          top := ⟨kind, t.line, s.brackets.length, header, none⟩
          below := s.top :: s.below }
  /-- A body is left if it is not that of the program, as its kind or its header tells. What closes
  it touches the statement around it, whose header may be over by that. -/
  | leave (s : Scanner) {h : Header}
      (inner : s.top.kind ≠ .program ∧ s.top.statement = none ∨ s.top.header.isMethod)
      (ended : h = .body ∨ h = s.dropFrame.top.header) :
      Move t s ((s.dropFrame.setHeader h).touch t)
  | openBracket (s : Scanner) (b : Bracket) : Move t s (s.openBracket b t)
  | dropBracket (s : Scanner) : Move t s s.dropBracket
  | remember (s : Scanner) (last : Option LastCode) : Move t s { s with last := last }
  | comment (s : Scanner) (kind : t.kind = .comment) :
      Move t s { s with comments := s.comments ++ [⟨t.line, t.start, t.stop⟩] }

/-- Moves made one after the other, all for one token. -/
abbrev Moves (t : Token) : Scanner → Scanner → Prop := Relation.ReflTransGen (Move t)

variable {s s' : Scanner} {t : Token}

theorem Moves.one (h : Move t s s') : Moves t s s' := .single h

/-- A change of the header is a move. -/
theorem moves_setHeader {h : Header} (free : h.isMethod = false)
    (quiet : h = .body ∨ s.top.header ≠ .body ∨ s.top.statement = none) :
    Moves t s (s.setHeader h) :=
  .one (.setHeader s (fun hm => by rw [free] at hm; cases hm) quiet)

/-- A header may be over at any time. -/
theorem moves_setHeader_body : Moves t s (s.setHeader .body) := moves_setHeader rfl (.inl rfl)

/-- A token that is added to a statement is a move. -/
theorem moves_touch : Moves t s (s.touch t) := .one (.touch s)

/-- The end of a header or of a statement is a move. -/
theorem moves_endHeaderOrStatement : Moves t s s.endHeaderOrStatement := by
  unfold endHeaderOrStatement
  split
  · exact .one (.endStatement s)
  · exact moves_setHeader_body

/-- The body whose statement has just ended is left. -/
theorem moves_leave (inner : s.top.kind ≠ .program) :
    Moves t s (s.endStatement.dropFrame.touch t) := by
  refine (Moves.one (.endStatement s)).tail
    (.leave _ (.inl ⟨?_, statement_endStatement s⟩) (.inr rfl))
  rw [kind_endStatement]
  exact inner

/-- Opening a frame is a move. -/
theorem moves_openFrame {kind : BlockKind} {header : Header} (inner : kind ≠ .program)
    (method : header.isMethod → kind = .methodDef) : Moves t s (s.openFrame kind t header) :=
  moves_touch.tail (.enter (s.touch t) inner method)

/-- Frames and brackets may be dropped in any order. -/
theorem dropBracket_dropFrame (s : Scanner) :
    s.dropBracket.dropFrame = s.dropFrame.dropBracket := by
  unfold dropFrame dropBracket
  dsimp only
  split <;> rfl

/-- A bracket may be dropped before or behind the end of a statement. -/
theorem endStatement_dropBracket (s : Scanner) :
    s.dropBracket.endStatement = s.endStatement.dropBracket := by
  unfold endStatement dropBracket
  dsimp only
  split <;> rfl

/-- One part of the header of a method leads to the next. -/
theorem moves_setHeader_method {h : Header} (method : s.top.header.isMethod) :
    Moves t s (s.setHeader h) :=
  .one (.setHeader s (fun _ => method) (.inr (.inl (Header.ne_body_of_isMethod method))))

/-- Each effect of a token is made of moves. -/
theorem moves_effect {m : Option Mark} (effect : Effect t m s s') : Moves t s s' := by
  induction effect with
  | pass => exact .refl
  | touch => exact moves_touch
  | setHeader s free left =>
    exact moves_setHeader (Header.isMethod_of_isFree free) (left.imp_right .inl)
  | readName s header => exact moves_setHeader_method (by rw [header]; rfl)
  | clause s free =>
    exact (Moves.one (.endStatement s)).trans
      (moves_setHeader (Header.isMethod_of_isFree free) (.inr (.inr (statement_endStatement s))))
  | openFrame s _ word fits =>
    refine moves_openFrame word.1 fun method => ?_
    rcases fits with free | ⟨kind, -⟩
    · rw [Header.isMethod_of_isFree free] at method
      cases method
    · exact kind
  | openBrace s =>
    have opened : Moves t s ((s.touch t).openBracket .brace t) :=
      moves_touch.tail (.openBracket _ _)
    unfold openBrace
    split
    · exact opened.tail (.enter _ (by nofun) (by nofun))
    · exact opened
  | openBracket s b => exact moves_touch.tail (.openBracket _ b)
  | openParams s header =>
    have method : (s.openBracket .paren t).top.header.isMethod = true := by
      show s.top.header.isMethod = true
      rw [header]
      rfl
    exact (Moves.one (.openBracket s .paren)).trans (moves_setHeader_method method)
  | closeFrame s _ _ inner => exact moves_leave inner
  -- the brace and the frame are dropped in the other order than the scanner does it
  | closeBraceBlock s brace =>
    rw [← dropBracket_dropFrame, ← endStatement_dropBracket]
    refine (Moves.one (.dropBracket s)).trans (moves_leave ?_)
    show s.top.kind ≠ .program
    rw [brace]
    nofun
  | closeBracket s => exact (Moves.one (.dropBracket s)).tail (.touch _)
  | closeParams s header =>
    have method : s.dropBracket.top.header.isMethod = true := by
      show s.top.header.isMethod = true
      rw [header]
      rfl
    exact (Moves.one (.dropBracket s)).trans (moves_setHeader_method method)
  | assign s named ended =>
    exact .one (.leave s (.inr (Header.isMethod_of_isBare (Header.isBare_of_named named))) ended)
  | readOn free left _ ih =>
    exact (moves_setHeader (Header.isMethod_of_isFree free) (.inr (.inl left))).trans ih

/-- All that a scanner does with a token is a row of moves. -/
theorem moves_feed (h : s.feed t = .ok s') : Moves t s s' := by
  obtain ⟨m, fed, -⟩ := fed_of_feed h
  cases fed with
  | comment _ kind => exact .one (.comment s kind)
  | pass => exact .refl
  | ends _ _ last => exact moves_endHeaderOrStatement.tail (.remember _ last)
  | code _ effect last => exact (moves_effect effect).tail (.remember _ last)

/-- What every move keeps, every token keeps. -/
theorem invariant_feed {P : Scanner → Prop} (keeps : ∀ r r', Move t r r' → P r → P r') (hs : P s)
    (h : s.feed t = .ok s') : P s' := by
  have moves := moves_feed h
  clear h
  induction moves with
  | refl => exact hs
  | tail _ move ih => exact keeps _ _ move ih

end Scanner

end Marginalia.Source
