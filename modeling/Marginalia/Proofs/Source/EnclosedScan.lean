import Marginalia.Proofs.Source.Ahead
import Marginalia.Proofs.Source.Enclosed
import Marginalia.Proofs.Source.Nesting
import Marginalia.Proofs.Source.Simulation

/-!
# The scanner in brackets

A program keeps its bodies and its brackets where more brackets are open around it
(`Scanner.Enclosed`). A token that is taken in the program is taken in the brackets as well, if it
goes with what precedes (`Token.bindsTo`) in the one if it does in the other
(`Scanner.Enclosed.simulation`).
-/

namespace Marginalia.Source

/-! ## Tokens that go with what precedes -/

/-- Whether a token right behind another goes with what precedes: a word as a modifier, or a brace
as that of a block. -/
def Token.bindsTo (l t : Token) : Bool :=
  match t.kind with
  | .keyword .ifWord | .keyword .unlessWord | .keyword .whileWord | .keyword .untilWord =>
    l.allowsModifier
  | _ => t.isPunct leftBrace && (l.allowsBlock && bodyBelow t.after)

/-- A condition binds to a token that allows a modifier. -/
theorem Token.bindsTo_of_condition {l t : Token} {w : Keyword} (hw : t.kind = .keyword w)
    (condition : w.isCondition) : l.bindsTo t = l.allowsModifier := by
  unfold Token.bindsTo
  rw [hw]
  cases w <;> first | rfl | cases condition

/-- A brace binds to a token that allows a block, if a body follows it. -/
theorem Token.bindsTo_of_brace {l t : Token} (brace : t.isPunct leftBrace) :
    l.bindsTo t = (l.allowsBlock && bodyBelow t.after) := by
  unfold Token.bindsTo
  rw [Scanner.kind_of_isPunct brace, brace]
  rfl

/-- A condition is at the start of an expression unless it binds to the last token. -/
theorem Scanner.atExpressionStart_of_condition (s : Scanner) {t : Token} {w : Keyword}
    (hw : t.kind = .keyword w) (condition : w.isCondition) :
    s.atExpressionStart = !s.last.any fun l => l.token.bindsTo t := by
  unfold Scanner.atExpressionStart
  simp only [Token.bindsTo_of_condition hw condition]

/-- A brace opens a block just if it binds to the last token. -/
theorem Scanner.opensBlock_of_brace (s : Scanner) {t : Token} (brace : t.isPunct leftBrace) :
    (s.last.any (fun l => l.token.allowsBlock) && bodyBelow t.after) =
      s.last.any fun l => l.token.bindsTo t := by
  simp only [Token.bindsTo_of_brace brace]
  cases s.last <;> rfl

/-- The same token to the scanner, which asks for its kind and its characters, and of what follows a
brace or the end of a line. -/
structure Token.Alike (t k : Token) : Prop where
  kind : k.kind = t.kind
  text : k.text = t.text
  below : t.isPunct leftBrace → bodyBelow k.after = bodyBelow t.after
  dot : t.kind = .newline → leadingDot false k.after = leadingDot false t.after

namespace Token.Alike

variable {t k l m : Token} (h : t.Alike k)

include h

/-- Both tokens have the same keyword. -/
theorem keyword?_eq : k.keyword? = t.keyword? := by
  unfold Token.keyword?
  rw [h.kind]

/-- Both tokens are the same punctuation mark. -/
theorem isPunct_eq (w : String) : k.isPunct w = t.isPunct w := Tokenizer.isPunct_eq h.kind h.text w

/-- What a token allows and demands behind it depends on its kind and its characters only. -/
theorem allows_eq : k.allowsModifier = t.allowsModifier ∧ k.allowsBlock = t.allowsBlock ∧
    k.continuesLine = t.continuesLine := by
  unfold Token.allowsModifier Token.allowsBlock Token.continuesLine Token.isPunctOf
  rw [h.kind, h.text]
  exact ⟨rfl, rfl, rfl⟩

/-- Both tokens bind to the last one, or none does. -/
theorem bindsTo_eq (hl : l.Alike m) : m.bindsTo k = l.bindsTo t := by
  obtain ⟨modifier, block, -⟩ := hl.allows_eq
  have brace : (k.isPunct leftBrace && (m.allowsBlock && bodyBelow k.after)) =
      (t.isPunct leftBrace && (l.allowsBlock && bodyBelow t.after)) := by
    rw [h.isPunct_eq, block]
    cases hbrace : t.isPunct leftBrace with
    | false => rfl
    | true => rw [h.below hbrace]
  unfold Token.bindsTo
  rw [h.kind, modifier, brace]

end Token.Alike

/-- A token is the same in parentheses, where a closing line follows the program. -/
theorem Token.Enclosed.alike {t k : Token} (h : t.Enclosed k) : t.Alike k where
  kind := h.kind
  text := h.text
  below brace := by rw [h.after, bodyBelow_append (h.goesOn brace)]
  dot _ := by rw [h.after, leadingDot_closing]

/-! ## States -/

/-- The same body where `extra` brackets more are open around the program, which itself starts
outside of them. -/
structure Frame.Enclosed (extra : Nat) (f g : Frame) : Prop where
  kind : g.kind = f.kind
  header : g.header = f.header.within extra
  inner : f.kind ≠ .program →
    g.bracketBase = f.bracketBase + extra ∧ g.statement.isNone = f.statement.isNone
  outer : f.kind = .program → f.bracketBase = 0 ∧ g.bracketBase = 0 ∧ f.header = .body
  /-- The parentheses of parameters are brackets. -/
  params : ∀ depth, f.header = .params depth → 0 < depth
  /-- The brace of a block is a bracket. -/
  brace : f.kind = .braceBlock → 0 < f.bracketBase

/-- A frame stays the same to the scanner with a statement on both sides, or on none. -/
theorem Frame.Enclosed.withStatement {extra : Nat} {f g : Frame} (h : f.Enclosed extra g)
    (o p : Option OpenStatement) (same : f.kind ≠ .program → p.isNone = o.isNone) :
    Frame.Enclosed extra { f with statement := o } { g with statement := p } where
  kind := h.kind
  header := h.header
  inner hf := ⟨(h.inner hf).1, same hf⟩
  outer := h.outer
  params := h.params
  brace := h.brace

/-- A frame stays the same to the scanner with its header changed on both sides. -/
theorem Frame.Enclosed.withHeader {extra : Nat} {f g : Frame} (h : f.Enclosed extra g)
    {header : Header}
    (inner : f.kind ≠ .program ∨ header = .body)
    (params : ∀ depth, header = .params depth → 0 < depth) :
    Frame.Enclosed extra { f with header := header } { g with header := header.within extra } where
  kind := h.kind
  header := rfl
  inner := h.inner
  outer hf := ⟨(h.outer hf).1, (h.outer hf).2.1, inner.resolve_left fun hn => hn hf⟩
  params := params
  brace := h.brace

namespace Scanner

variable {outer : List Bracket}

/-- The same bodies and brackets inside the brackets `outer`. -/
structure Enclosed (outer : List Bracket) (a b : Scanner) : Prop where
  top : a.top.Enclosed outer.length b.top
  below : List.Forall₂ (Frame.Enclosed outer.length) a.below b.below
  brackets : b.brackets.map Prod.fst = a.brackets.map Prod.fst ++ outer

/-- What the one scanner takes the other takes as well. -/
inductive Admits (outer : List Bracket) :
    Except SyntaxError Scanner → Except SyntaxError Scanner → Prop where
  | ok {a b : Scanner} (h : a.Enclosed outer b) : Admits outer (.ok a) (.ok b)
  | error (e : SyntaxError) (y : Except SyntaxError Scanner) : Admits outer (.error e) y

/-- The kinds of the open bodies, innermost first. -/
def bodies (s : Scanner) : List BlockKind := (s.top :: s.below).map Frame.kind

variable {a b a' b' : Scanner} {t k : Token}

namespace Enclosed

section Tests

variable (h : a.Enclosed outer b)

include h

/-- The innermost frames are of the same kind. -/
theorem kind_eq : b.top.kind = a.top.kind := h.top.kind

/-- The same bodies are open. -/
theorem bodies_eq : b.bodies = a.bodies := by
  have below := h.below
  unfold bodies
  rw [List.map_cons, List.map_cons, h.kind_eq]
  congr 1
  generalize a.below = fs, b.below = gs at below
  induction below with
  | nil => rfl
  | cons same _ ih => rw [List.map_cons, List.map_cons, same.kind, ih]

/-- The innermost frames are in the same part of their headers. -/
theorem header_beq (header : Header) (free : ∀ depth, header ≠ .params depth) :
    (b.top.header == header) = (a.top.header == header) := by
  rw [h.top.header, Header.within_beq _ free]

theorem length_brackets : b.brackets.length = a.brackets.length + outer.length := by
  have lengths := congrArg List.length h.brackets
  rwa [List.length_map, List.length_append, List.length_map] at lengths

/-- What has a header is a body of its own. -/
theorem inner_of_header (header : a.top.header ≠ .body) : a.top.kind ≠ .program :=
  fun program => header (h.top.outer program).2.2

/-- Inside a block no bracket is open on one side just if none is on the other. -/
theorem atFrameLevel_eq (inner : a.top.kind ≠ .program) : b.atFrameLevel = a.atFrameLevel := by
  unfold atFrameLevel
  rw [h.length_brackets, (h.top.inner inner).1, Bool.eq_iff_iff, beq_iff_eq, beq_iff_eq]
  exact Nat.add_right_cancel_iff

/-- Inside a block both scanners are in a bracket, or none is. -/
theorem inBracket_eq (inner : a.top.kind ≠ .program) : b.inBracket = a.inBracket := by
  unfold inBracket
  rw [h.length_brackets, (h.top.inner inner).1, Bool.eq_iff_iff, decide_eq_true_iff,
    decide_eq_true_iff]
  exact Nat.add_lt_add_iff_right

/-- What is in a bracket is in one where there are more of them. -/
theorem inBracket_of_inBracket (inside : a.inBracket = true) : b.inBracket = true := by
  by_cases program : a.top.kind = .program
  · unfold inBracket at inside ⊢
    rw [decide_eq_true_iff] at inside ⊢
    rw [h.length_brackets, (h.top.outer program).2.1]
    omega
  · rw [h.inBracket_eq program, inside]

/-- The program itself is in the brackets around it. -/
theorem inBracket_of_program (some : outer ≠ []) (program : a.top.kind = .program) :
    b.inBracket = true ∧ b.atFrameLevel = false := by
  have open_ : 0 < b.brackets.length := by
    rw [h.length_brackets]
    exact Nat.add_pos_right _ (List.length_pos_iff.2 some)
  unfold inBracket atFrameLevel
  rw [(h.top.outer program).2.1]
  exact ⟨decide_eq_true open_, beq_eq_false_iff_ne.2 (Nat.ne_of_gt open_)⟩

/-- A clause starts between the statements of a body that may have such a clause. -/
theorem clauseHere_eq (p : BlockKind → Bool) (program : p .program = false) :
    (p b.top.kind && b.betweenStatements) = (p a.top.kind && a.betweenStatements) := by
  rw [h.kind_eq]
  by_cases hk : a.top.kind = .program
  · rw [hk, program, Bool.false_and, Bool.false_and]
  · unfold betweenStatements
    rw [h.atFrameLevel_eq hk, (h.top.inner hk).2, h.header_beq .body nofun]

/-- An end of a line ends a header on both sides, or on none. -/
theorem headerEnds_eq : (b.top.header == .line && b.atFrameLevel) =
    (a.top.header == .line && a.atFrameLevel) := by
  rw [h.header_beq .line nofun]
  cases header : a.top.header == .line with
  | false => rfl
  | true =>
    have line := beq_iff_eq.1 header
    rw [h.atFrameLevel_eq (h.inner_of_header (by rw [line]; decide))]

/-- Both scanners wait for a `do`, or none does. -/
theorem awaitsDo_eq : b.awaitsDo = a.awaitsDo := by
  unfold awaitsDo
  rw [Bool.and_assoc, Bool.and_assoc, h.kind_eq, h.headerEnds_eq]

end Tests

/-! ## Single moves -/

variable (h : a.Enclosed outer b)

include h

/-- Statements are started or extended on both sides. -/
theorem touch (t k : Token) : (a.touch t).Enclosed outer (b.touch k) := by
  unfold Scanner.touch
  rw [h.header_beq .body nofun]
  split
  · exact ⟨h.top.withStatement _ _ fun _ => rfl, h.below, h.brackets⟩
  · exact h

/-- Statements end on both sides. -/
theorem endStatement : a.endStatement.Enclosed outer b.endStatement := by
  refine ⟨?_, ?_, ?_⟩
  · rw [top_endStatement, top_endStatement]
    exact h.top.withStatement none none fun _ => rfl
  · rw [below_endStatement, below_endStatement]
    exact h.below
  · rw [brackets_endStatement, brackets_endStatement]
    exact h.brackets

/-- A header may be changed on both sides. -/
theorem setHeader (header : Header) (inner : a.top.kind ≠ .program ∨ header = .body)
    (params : ∀ depth, header = .params depth → 0 < depth) :
    (a.setHeader header).Enclosed outer (b.setHeader (header.within outer.length)) :=
  ⟨h.top.withHeader inner params, h.below, h.brackets⟩

/-- A header without parentheses is the same in both. -/
theorem setFree {header : Header} (free : ∀ depth, header ≠ .params depth)
    (inner : a.top.kind ≠ .program ∨ header = .body) :
    (a.setHeader header).Enclosed outer (b.setHeader header) := by
  have set := h.setHeader header inner fun depth params => absurd params (free depth)
  rwa [Header.within_of_ne _ free] at set

/-- Headers or statements end on both sides. -/
theorem endHeaderOrStatement : a.endHeaderOrStatement.Enclosed outer b.endHeaderOrStatement := by
  unfold Scanner.endHeaderOrStatement
  rw [h.header_beq .body nofun]
  split
  · exact h.endStatement
  · exact h.setFree nofun (.inr rfl)

/-- In brackets the statements of the program itself need not end. -/
theorem endHeaderOrStatement_of_program (program : a.top.kind = .program) :
    a.endHeaderOrStatement.Enclosed outer b := by
  unfold Scanner.endHeaderOrStatement
  rw [(h.top.outer program).2.2, beq_self_eq_true, if_pos rfl]
  refine ⟨?_, ?_, ?_⟩
  · rw [top_endStatement]
    exact h.top.withStatement none b.top.statement fun inner => absurd program inner
  · rw [below_endStatement]
    exact h.below
  · rw [brackets_endStatement]
    exact h.brackets

/-- Frames are dropped on both sides. -/
theorem dropFrame : a.dropFrame.Enclosed outer b.dropFrame := by
  have below := h.below
  unfold Scanner.dropFrame
  generalize a.below = fs, b.below = gs at below
  cases below with
  | nil => exact h
  | cons top rest => exact ⟨top, rest, h.brackets⟩

/-- Brackets are opened on both sides. -/
theorem openBracket (x : Bracket) (t k : Token) :
    (a.openBracket x t).Enclosed outer (b.openBracket x k) := by
  refine ⟨h.top, h.below, ?_⟩
  show (_ :: b.brackets).map Prod.fst = (_ :: a.brackets).map Prod.fst ++ _
  rw [List.map_cons, List.map_cons, h.brackets, List.cons_append]

/-- Brackets are dropped on both sides, if they were opened on both. -/
theorem dropBracket (some : a.brackets ≠ []) : a.dropBracket.Enclosed outer b.dropBracket := by
  refine ⟨h.top, h.below, ?_⟩
  show b.brackets.tail.map Prod.fst = a.brackets.tail.map Prod.fst ++ _
  rw [List.map_tail, List.map_tail, h.brackets, List.tail_append_of_ne_nil]
  exact mt List.map_eq_nil_iff.1 some

/-- A body is entered. -/
theorem enter {kind : BlockKind} {header : Header} (t k : Token) (inner : kind ≠ .program)
    (free : ∀ depth, header ≠ .params depth) (brace : kind = .braceBlock → a.brackets ≠ []) :
    Enclosed outer
      { a with top := ⟨kind, t.line, a.brackets.length, header, none⟩, below := a.top :: a.below }
      { b with top := ⟨kind, k.line, b.brackets.length, header, none⟩, below :=
        b.top :: b.below } where
  top :=
    { kind := rfl
      header := (Header.within_of_ne _ free).symm
      inner := fun _ => ⟨h.length_brackets, rfl⟩
      outer := fun program => absurd program inner
      params := fun depth params => absurd params (free depth)
      brace := fun hk => List.length_pos_iff.2 (brace hk) }
  below := .cons h.top h.below
  brackets := h.brackets

/-! ## Words and brackets -/

/-- Frames are closed on both sides, or refused on one. -/
theorem closeFrame : Admits outer (a.closeFrame t) (b.closeFrame k) := by
  by_cases program : a.top.kind = .program
  · unfold Scanner.closeFrame
    rw [program]
    split
    · exact .error _ _
    · exact .error _ _
  · have closed := (h.endStatement.dropFrame).touch t k
    unfold Scanner.closeFrame
    rw [h.inBracket_eq program, h.kind_eq]
    rcases inBracket_cases a with ⟨x, line, rest, inside, brackets⟩ | outside
    · rw [inside, brackets]
      exact .error _ _
    · rw [outside]
      dsimp only
      rw [if_neg (mt beq_iff_eq.1 program), if_neg (mt beq_iff_eq.1 program)]
      exact .ok closed

/-- Clauses are accepted on both sides, or refused on one. -/
theorem clause {header : Header} (free : ∀ depth, header ≠ .params depth) :
    Admits outer (a.clause t header) (b.clause k header) := by
  by_cases program : a.top.kind = .program
  · unfold Scanner.clause
    rw [program]
    exact .error _ _
  · unfold Scanner.clause
    rw [h.kind_eq, h.atFrameLevel_eq program]
    split
    · exact .error _ _
    · exact .ok (h.endStatement.setFree free (.inl (by rw [kind_endStatement]; exact program)))

/-- Brackets are closed on both sides, or refused on one. -/
theorem closeBracket (x : Bracket) : Admits outer (a.closeBracket x t) (b.closeBracket x k) := by
  rcases inBracket_cases a with ⟨y, line, rest, inside, brackets⟩ | outside
  · obtain ⟨line', rest', brackets'⟩ : ∃ line' rest', b.brackets = (y, line') :: rest' := by
      have same := h.brackets
      rw [brackets, List.map_cons, List.cons_append] at same
      obtain ⟨first, rest', hb, rfl, -⟩ := List.map_eq_cons_iff.1 same
      exact ⟨first.2, rest', hb⟩
    unfold Scanner.closeBracket
    rw [inside, brackets, h.inBracket_of_inBracket inside, brackets']
    dsimp only
    split
    · refine .ok ((h.dropBracket ?_).touch t k)
      rw [brackets]
      exact List.cons_ne_nil _ _
    · exact .error _ _
  · unfold Scanner.closeBracket
    rw [outside]
    dsimp only
    split
    · exact .error _ _
    · exact .error _ _

/-- Braces are closed on both sides, or refused on one. -/
theorem closeBrace : Admits outer (a.closeBrace t) (b.closeBrace k) := by
  have bracket := h.closeBracket (t := t) (k := k) .brace
  unfold Scanner.closeBrace
  rw [h.kind_eq]
  cases kind : a.top.kind == .braceBlock with
  | false => exact bracket
  | true =>
    have brace := beq_iff_eq.1 kind
    rw [h.atFrameLevel_eq (by rw [brace]; decide)]
    split
    · next level =>
      refine .ok ((h.endStatement.dropFrame.dropBracket ?_).touch t k)
      rw [brackets_dropFrame, brackets_endStatement]
      have deep := h.top.brace brace
      rw [Bool.true_and, atFrameLevel, beq_iff_eq] at level
      exact List.length_pos_iff.1 (by omega)
    · exact bracket

end Enclosed

/-- The same bodies and brackets inside the brackets `outer`, and the next token goes with what
precedes in the one program if it does in the other. -/
structure Enclosed.Before (outer : List Bracket) (t k : Token) (a b : Scanner) : Prop
    extends Enclosed outer a b where
  binds : b.last.any (fun l => l.token.bindsTo k) = a.last.any fun l => l.token.bindsTo t

/-- A token is taken in the program and in the brackets around it alike. -/
theorem Enclosed.simulation (hk : t.Alike k) :
    Simulation outer.length (Before outer t k) (Admits outer) t k where
  kind := hk.kind
  isPunct := hk.isPunct_eq
  ok h := .ok h.toEnclosed
  header h := h.top.header
  length h := h.length_brackets
  clauseHere h := h.clauseHere_eq
  headerEnds h := h.headerEnds_eq
  awaitsDo h := h.awaitsDo_eq
  -- where a condition or a brace stands is told by what the last token binds to
  condition {a b} h w hw condition := by
    rw [atExpressionStart_of_condition b (hk.kind.trans hw) condition, h.binds,
      ← atExpressionStart_of_condition a hw condition]
  block {a b} h brace := by
    rw [opensBlock_of_brace b ((hk.isPunct_eq _).trans brace), h.binds,
      ← opensBlock_of_brace a brace]
  touch h := ⟨h.toEnclosed.touch t k, by rw [last_touch, last_touch, h.binds]⟩
  setHeader h header free inner :=
    ⟨h.setFree free (inner.imp_left h.inner_of_header), h.binds⟩
  dropFrame h := ⟨h.toEnclosed.dropFrame, by rw [last_dropFrame, last_dropFrame, h.binds]⟩
  openBracket h x := ⟨h.toEnclosed.openBracket x t k, h.binds⟩
  openParams {a b} h header := by
    have inner := h.inner_of_header (by rw [header]; decide)
    have set := (h.toEnclosed.openBracket .paren t k).setHeader (.params (a.brackets.length + 1))
      (.inl inner) fun depth params => by
        rw [← Header.params.inj params]
        exact Nat.succ_pos _
    rw [Header.within, Nat.add_right_comm, ← h.length_brackets] at set
    exact ⟨set, h.binds⟩
  closeParams {a b} h header := by
    have inner := h.inner_of_header (by rw [header]; nofun)
    have some : a.brackets ≠ [] := List.length_pos_iff.1 (h.top.params _ header)
    exact ⟨(h.toEnclosed.dropBracket some).setFree nofun (.inl inner), h.binds⟩
  enter h kind header inner free brace := ⟨h.toEnclosed.enter t k inner free brace, h.binds⟩
  closeFrame h _ := h.toEnclosed.closeFrame
  clause h _ header _ free := h.toEnclosed.clause free
  closeBracket h _ x _ := h.toEnclosed.closeBracket x
  closeBrace h _ := h.toEnclosed.closeBrace

end Scanner

end Marginalia.Source
