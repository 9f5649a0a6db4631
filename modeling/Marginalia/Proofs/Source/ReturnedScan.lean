import Marginalia.Proofs.Source.Ahead
import Marginalia.Proofs.Source.Jumps
import Marginalia.Proofs.Source.ReturnedWalk
import Marginalia.Proofs.Source.Simulation

/-!
# Statements past carriage returns

The scanner takes the tokens of a program and those of the same program with a carriage return
before each line feed. What it asks of a token and of what follows it has the same answer
(`bodyBelow_withReturns`, `leadingDot_withReturns`), so it does the same with both
(`Scanner.Returned.feed`): it refuses both programs for the same cause, or it finds the same
statements at the places that the returns move.
-/

namespace Marginalia.Source

open Text

variable {source : Text}

/-! ## What a token says -/

namespace Token.Returned

variable {k l : Token} (h : k.Returned source l)

include h

/-- A token keeps its keyword. -/
theorem keyword?_eq : l.keyword? = k.keyword? := by
  unfold Token.keyword?
  rw [h.kind]

/-- A token stays the punctuation mark that it is. -/
theorem isPunct_eq (w : String) : l.isPunct w = k.isPunct w := Tokenizer.isPunct_returned h w

/-- A token stays one of some punctuation marks. -/
theorem isPunctOf_eq (ws : List String) : l.isPunctOf ws = k.isPunctOf ws := by
  have all : ∀ t : Token, t.isPunctOf ws = ws.any t.isPunct := fun t => by
    unfold Token.isPunctOf Token.isPunct
    cases t.kind == .punct with
    | false => induction ws <;> simp_all
    | true => rfl
  rw [all, all]
  congr 1
  funext w
  exact h.isPunct_eq w

/-- Whether a line goes on behind a token is not changed. -/
theorem continuesLine_eq : l.continuesLine = k.continuesLine := by
  unfold Token.continuesLine
  rw [h.kind, h.isPunctOf_eq]

/-- Whether a modifier may follow a token is not changed. -/
theorem allowsModifier_eq : l.allowsModifier = k.allowsModifier := by
  unfold Token.allowsModifier
  rw [h.kind, h.isPunctOf_eq]

/-- Whether a block may follow a token is not changed. -/
theorem allowsBlock_eq : l.allowsBlock = k.allowsBlock := by
  unfold Token.allowsBlock
  rw [h.kind, h.isPunctOf_eq]

/-- A keyword keeps its text. -/
theorem text_of_word {w : Keyword} (hw : k.kind = .keyword w) : l.text = k.text :=
  h.text (by rw [hw]; nofun) (by rw [hw]; nofun)

/-- A punctuation mark keeps its text. -/
theorem text_of_isPunct {w : String} (hw : k.isPunct w) : l.text = k.text := by
  have punct := Scanner.kind_of_isPunct hw
  exact h.text (by rw [punct]; nofun) (by rw [punct]; nofun)

/-- A word forbids wrapping the statement that starts at the same place. -/
theorem forbids_eq (code : Scanner.isCode k.kind) (start : Nat) :
    l.forbids (place source start) = k.forbids start := by
  have kinds : k.kind ≠ .comment ∧ k.kind ≠ .newline := by
    constructor <;> intro hk <;> rw [hk] at code <;> cases code
  have first : (place source start == l.start) = (start == k.start) := by
    rw [h.start kinds.1 kinds.2, Bool.eq_iff_iff, beq_iff_eq, beq_iff_eq, place_inj]
  unfold Token.forbids
  rw [h.keyword?_eq, first, h.kind]
  by_cases literal : k.kind = .literal
  · rw [literal, show (TokenKind.literal == .ident || TokenKind.literal == .methodName) =
      false from rfl, Bool.and_false, Bool.false_and, Bool.false_and]
  · rw [h.text literal kinds.1]

end Token.Returned

/-! ## States -/

/-- The same open statement in the program with returns. -/
def OpenStatement.returned (source : Text) (o : OpenStatement) : OpenStatement :=
  { o with start := place source o.start, stop := place source o.stop }

/-- The same body in the program with returns. -/
def Frame.returned (source : Text) (f : Frame) : Frame :=
  { f with statement := f.statement.map (OpenStatement.returned source) }

/-- The same statement in the program with returns. -/
def Statement.returned (source : Text) (e : Statement) : Statement :=
  { e with start := place source e.start, stop := place source e.stop }

/-- The same last token in the program with returns. -/
structure LastCode.Returned (source : Text) (a b : LastCode) : Prop where
  token : a.token.Returned source b.token
  isModifier : b.isModifier = a.isModifier

namespace Scanner

/-- The same state in the program with returns. Of the comments only the lines are the same. -/
structure Returned (source : Text) (s t : Scanner) : Prop where
  top : t.top = s.top.returned source
  below : t.below = s.below.map (Frame.returned source)
  brackets : t.brackets = s.brackets
  last : Option.Rel (LastCode.Returned source) s.last t.last
  statements : t.statements = s.statements.map (Statement.returned source)
  comments : t.comments.map Comment.line = s.comments.map Comment.line

/-- The same is refused, or the same state is reached. -/
inductive Agree (source : Text) : Except SyntaxError Scanner → Except SyntaxError Scanner →
    Prop where
  | ok {s t : Scanner} (h : s.Returned source t) : Agree source (.ok s) (.ok t)
  | error (e : SyntaxError) : Agree source (.error e) (.error e)

variable {s t : Scanner} {k l : Token}

namespace Returned

variable (h : s.Returned source t) (hk : k.Returned source l)

section Tests

include h

/-- The innermost frame keeps its kind. -/
theorem kind_eq : t.top.kind = s.top.kind := by rw [h.top]; rfl

/-- The innermost frame is in the same part of its header. -/
theorem header_eq : t.top.header = s.top.header := by rw [h.top]; rfl

/-- The innermost frame was opened on the same line. -/
theorem line_eq : t.top.line = s.top.line := by rw [h.top]; rfl

/-- No bracket is open on one side just if none is on the other. -/
theorem atFrameLevel_eq : t.atFrameLevel = s.atFrameLevel := by
  unfold atFrameLevel
  rw [h.top, h.brackets]
  rfl

/-- Both scanners are in a bracket, or none is. -/
theorem inBracket_eq : t.inBracket = s.inBracket := by
  unfold inBracket
  rw [h.top, h.brackets]
  rfl

/-- Both scanners are between statements, or none is. -/
theorem betweenStatements_eq : t.betweenStatements = s.betweenStatements := by
  unfold betweenStatements
  rw [h.atFrameLevel_eq, h.header_eq, h.top]
  unfold Frame.returned
  rw [Option.isNone_map]

/-- Both scanners wait for a `do`, or none does. -/
theorem awaitsDo_eq : t.awaitsDo = s.awaitsDo := by
  unfold awaitsDo
  rw [h.atFrameLevel_eq, h.header_eq, h.kind_eq]

/-- A question about the last token of code has the same answer. -/
theorem any_last_eq {p : LastCode → Bool}
    (hp : ∀ {a b : LastCode}, a.Returned source b → p b = p a) :
    t.last.any p = s.last.any p := by
  have last := h.last
  generalize s.last = a, t.last = b at last
  cases last with
  | some hab => exact hp hab
  | none => rfl

/-- Both scanners are at the start of an expression, or none is. -/
theorem atExpressionStart_eq : t.atExpressionStart = s.atExpressionStart :=
  congrArg not (h.any_last_eq fun hab => hab.token.allowsModifier_eq)

end Tests

/-! ## Single moves -/

include h

/-- A header may be changed on both sides. -/
theorem setHeader (header : Header) : (s.setHeader header).Returned source (t.setHeader header) :=
  ⟨by unfold Scanner.setHeader; rw [h.top]; rfl, h.below, h.brackets, h.last, h.statements,
    h.comments⟩

/-- Statements end on both sides. -/
theorem endStatement : s.endStatement.Returned source t.endStatement := by
  have opened : (s.top.returned source).statement =
    s.top.statement.map (OpenStatement.returned source) := rfl
  unfold Scanner.endStatement
  rw [h.top, opened]
  cases s.top.statement with
  | none => exact h
  | some o =>
    refine ⟨rfl, h.below, h.brackets, h.last, ?_, h.comments⟩
    dsimp only [Option.map_some]
    rw [h.statements, h.below, List.length_map, show (o.returned source).wrappable =
      o.wrappable from rfl]
    split
    · rw [List.map_append]
      rfl
    · rfl

/-- Headers or statements end on both sides. -/
theorem endHeaderOrStatement : s.endHeaderOrStatement.Returned source t.endHeaderOrStatement := by
  unfold Scanner.endHeaderOrStatement
  rw [h.header_eq]
  split
  · exact h.endStatement
  · exact h.setHeader .body

/-- Frames are dropped on both sides. -/
theorem dropFrame : s.dropFrame.Returned source t.dropFrame := by
  unfold Scanner.dropFrame
  rw [h.below]
  cases s.below with
  | nil => exact h
  | cons f fs => exact ⟨rfl, rfl, h.brackets, h.last, h.statements, h.comments⟩

/-- Brackets are dropped on both sides. -/
theorem dropBracket : s.dropBracket.Returned source t.dropBracket :=
  ⟨h.top, h.below, congrArg List.tail h.brackets, h.last, h.statements, h.comments⟩

include hk

/-- Brackets are opened on both sides. -/
theorem openBracket (b : Bracket) : (s.openBracket b k).Returned source (t.openBracket b l) := by
  refine ⟨h.top, h.below, ?_, h.last, h.statements, h.comments⟩
  show (b, l.line) :: t.brackets = (b, k.line) :: s.brackets
  rw [hk.line, h.brackets]

/-- A body is entered. -/
theorem enter (kind : BlockKind) (header : Header) :
    Returned source
      { s with top := ⟨kind, k.line, s.brackets.length, header, none⟩, below := s.top :: s.below }
      { t with top := ⟨kind, l.line, t.brackets.length, header, none⟩, below :=
        t.top :: t.below } := by
  refine ⟨?_, ?_, h.brackets, h.last, h.statements, h.comments⟩
  · rw [hk.line, h.brackets]
    rfl
  · rw [h.top, h.below]
    rfl

variable (coded : isCode k.kind)

include coded

/-- Statements are started or extended on both sides. -/
theorem touch : (s.touch k).Returned source (t.touch l) := by
  by_cases header : s.top.header = .body
  · have header' : t.top.header = .body := h.header_eq.trans header
    have kinds : k.kind ≠ .comment ∧ k.kind ≠ .newline := by
      constructor <;> intro eq <;> rw [eq] at coded <;> cases coded
    have opened : t.top.statement.getD ⟨l.start, l.stop, l.endLine, true⟩ =
        (s.top.statement.getD ⟨k.start, k.stop, k.endLine, true⟩).returned source := by
      rw [h.top, hk.start kinds.1 kinds.2, hk.stop kinds.1 kinds.2, hk.endLine]
      unfold Frame.returned
      cases s.top.statement <;> rfl
    have touched : t.touched l = (s.touched k).returned source := by
      unfold Scanner.touched
      rw [opened, hk.stop kinds.1 kinds.2, hk.endLine]
      generalize s.top.statement.getD _ = o
      show OpenStatement.mk _ _ _ (o.wrappable && !l.forbids (place source o.start)) = _
      rw [hk.forbids_eq coded]
      rfl
    rw [touch_of_body header, touch_of_body header', touched]
    exact ⟨by rw [h.top]; rfl, h.below, h.brackets, h.last, h.statements, h.comments⟩
  · have header' : t.top.header ≠ .body := fun eq => header (h.header_eq.symm.trans eq)
    rw [touch_of_header_ne header, touch_of_header_ne header']
    exact h

/-- Frames are opened on both sides. -/
theorem openFrame (kind : BlockKind) (header : Header) :
    (s.openFrame kind k header).Returned source (t.openFrame kind l header) :=
  (h.touch hk coded).enter hk kind header

/-! ## Words and brackets -/

variable (text : l.text = k.text)

include text

/-- Frames are closed on both sides, or refused. -/
theorem closeFrame : Agree source (s.closeFrame k) (t.closeFrame l) := by
  unfold Scanner.closeFrame
  rw [h.inBracket_eq, h.brackets, h.kind_eq, hk.line, text]
  split
  · exact .error _
  · split
    · exact .error _
    · exact .ok (h.endStatement.dropFrame.touch hk coded)

omit coded in
/-- Clauses are accepted on both sides, or refused. -/
theorem clause (header : Header) : Agree source (s.clause k header) (t.clause l header) := by
  unfold Scanner.clause
  rw [h.kind_eq, h.atFrameLevel_eq, hk.line, text]
  split
  · exact .error _
  · exact .ok (h.endStatement.setHeader header)

/-- Brackets are closed on both sides, or refused. -/
theorem closeBracket (b : Bracket) : Agree source (s.closeBracket b k) (t.closeBracket b l) := by
  unfold Scanner.closeBracket
  rw [h.inBracket_eq, h.brackets, h.kind_eq, h.line_eq, hk.line, text]
  split
  · split
    · exact .ok (h.dropBracket.touch hk coded)
    · exact .error _
  · split
    · exact .error _
    · exact .error _

/-- Braces are closed on both sides, or refused. -/
theorem closeBrace : Agree source (s.closeBrace k) (t.closeBrace l) := by
  unfold Scanner.closeBrace
  rw [h.kind_eq, h.atFrameLevel_eq]
  split
  · exact .ok (h.endStatement.dropFrame.dropBracket.touch hk coded)
  · exact h.closeBracket hk coded text .brace

end Returned

/-- A token of code is taken from both programs alike. -/
theorem Returned.simulation (hk : k.Returned source l) (coded : isCode k.kind) :
    Simulation 0 (Returned source) (Agree source) k l where
  kind := hk.kind
  isPunct := hk.isPunct_eq
  ok := .ok
  header h := by rw [h.header_eq, Header.within_zero]
  length h := congrArg List.length h.brackets
  clauseHere h p _ := by rw [h.kind_eq, h.betweenStatements_eq]
  headerEnds h := by rw [h.header_eq, h.atFrameLevel_eq]
  awaitsDo h := h.awaitsDo_eq
  condition h _ _ _ := h.atExpressionStart_eq
  -- a block is told by what is behind the brace, which no returns hide
  block h _ := by
    have after : l.after = withReturns k.after :=
      hk.after (by rintro eq; rw [eq] at coded; cases coded)
    rw [h.any_last_eq fun hab => hab.token.allowsBlock_eq, after, bodyBelow_withReturns]
  touch h := h.touch hk coded
  setHeader h header _ _ := h.setHeader header
  dropFrame h := h.dropFrame
  openBracket h x := h.openBracket hk x
  openParams {s t} h _ := by
    have lengths : t.brackets.length = s.brackets.length := congrArg List.length h.brackets
    rw [lengths]
    exact (h.openBracket hk .paren).setHeader _
  closeParams h _ := h.dropBracket.setHeader .afterParams
  enter h kind header _ _ _ := h.enter hk kind header
  closeFrame h kind := h.closeFrame hk coded (hk.text_of_word kind)
  clause h _ header kind _ := h.clause hk (hk.text_of_word kind) header
  closeBracket h _ x punct := h.closeBracket hk coded (hk.text_of_isPunct punct) x
  closeBrace h punct := h.closeBrace hk coded (hk.text_of_isPunct punct)

namespace Returned

variable (h : s.Returned source t) (hk : k.Returned source l)

include h hk

/-! ## One token -/

/-- Ends of lines are read on both sides. -/
theorem newline (kind : k.kind = .newline) : (s.newline k).Returned source (t.newline l) := by
  have dot : leadingDot false l.after = leadingDot false k.after := by
    rw [hk.after (by rw [kind]; nofun), leadingDot_withReturns]
  have continues : ∀ params : Bool,
      t.last.any (fun a => a.continuesLine && !(params && a.token.isPunct "|")) =
        s.last.any fun a => a.continuesLine && !(params && a.token.isPunct "|") := fun params =>
    h.any_last_eq fun hab => by
      unfold LastCode.continuesLine
      rw [hab.isModifier, hab.token.continuesLine_eq, hab.token.isPunct_eq]
  unfold Scanner.newline
  dsimp only
  rw [h.kind_eq, h.header_eq, h.atFrameLevel_eq, continues, dot]
  split
  · exact h
  · have ended := h.endHeaderOrStatement
    exact ⟨ended.top, ended.below, ended.brackets, .none, ended.statements, ended.comments⟩

/-- The program ends on both sides, or is refused. -/
theorem finish : Agree source (s.finish k) (t.finish l) := by
  have continues : t.last.any LastCode.continuesLine = s.last.any LastCode.continuesLine :=
    h.any_last_eq fun hab => by
      unfold LastCode.continuesLine
      rw [hab.isModifier, hab.token.continuesLine_eq]
  unfold Scanner.finish
  rw [h.brackets, h.below, List.isEmpty_map, h.line_eq, h.kind_eq, continues, hk.line]
  split
  · exact .error _
  · split
    · exact .error _
    · split
      · exact .error _
      · exact .ok h.endHeaderOrStatement

/-- A token is taken from both programs alike. -/
theorem feed : Agree source (s.feed k) (t.feed l) := by
  -- what is fed as code is kept as the last token, with the same kind on both sides
  have taken : isCode k.kind → Agree source
      ((s.code k).map fun r =>
        { r with last := some ⟨k, k.keyword?.any Keyword.isModifier && !s.atExpressionStart⟩ })
      ((t.code l).map fun r =>
        { r with last := some ⟨l, l.keyword?.any Keyword.isModifier && !t.atExpressionStart⟩
          }) := by
    intro coded
    have modifier : (l.keyword?.any Keyword.isModifier && !t.atExpressionStart) =
        (k.keyword?.any Keyword.isModifier && !s.atExpressionStart) := by
      rw [hk.keyword?_eq, h.atExpressionStart_eq]
    have read := (simulation hk coded).code h
    generalize s.code k = a, t.code l = b at read
    cases read with
    | ok same =>
      exact .ok ⟨same.top, same.below, same.brackets, .some ⟨hk, modifier⟩, same.statements,
        same.comments⟩
    | error e => exact .error e
  unfold Scanner.feed
  rw [hk.kind]
  split
  · refine .ok ⟨h.top, h.below, h.brackets, h.last, h.statements, ?_⟩
    rw [List.map_append, List.map_append, h.comments]
    exact congrArg (s.comments.map Comment.line ++ [·]) hk.line
  · next kind => exact .ok (h.newline hk kind)
  · rw [h.atFrameLevel_eq]
    split
    · have ended := h.endHeaderOrStatement
      exact .ok ⟨ended.top, ended.below, ended.brackets, .none, ended.statements, ended.comments⟩
    · exact .ok h
  · exact h.finish hk
  · next h1 h2 h3 h4 =>
    refine taken ?_
    cases hkind : k.kind with
    | comment => exact absurd hkind h1
    | newline => exact absurd hkind h2
    | semicolon => exact absurd hkind h3
    | eof => exact absurd hkind h4
    | _ => rfl

end Returned

/-- All tokens are taken from both programs alike. -/
theorem agree_foldlM {s t : Scanner} {ks ls : List Token} (h : s.Returned source t)
    (tokens : List.Forall₂ (Token.Returned source) ks ls) :
    Agree source (ks.foldlM feed s) (ls.foldlM feed t) := by
  induction tokens generalizing s t with
  | nil => exact .ok h
  | @cons k l ks ls hk _ ih =>
    have first := h.feed hk
    rw [List.foldlM_cons, List.foldlM_cons]
    generalize s.feed k = a, t.feed l = b at first
    cases first with
    | ok same => exact ih same
    | error e => exact .error e

end Scanner

/-! ## Scans -/

/-- The same scan of the program with returns. -/
structure Scan.Returned (source : Text) (a b : Scan) : Prop where
  statements : b.statements = a.statements.map (Statement.returned source)
  endsInCode : ∀ n, b.layout.endsInCode n = a.layout.endsInCode n
  comments : b.layout.comments.map Comment.line = a.layout.comments.map Comment.line

/-- The same answer for the program with returns. -/
inductive Scanned (source : Text) :
    Except Fault (Except SyntaxError Scan) → Except Fault (Except SyntaxError Scan) → Prop where
  | accepted {a b : Scan} (h : a.Returned source b) : Scanned source (.ok (.ok a)) (.ok (.ok b))
  | refused (e : SyntaxError) : Scanned source (.ok (.error e)) (.ok (.error e))
  | broken (f : Fault) : Scanned source (.error f) (.error (f.returned source))

/-- The same lines end in code, whatever comments there are. -/
theorem endsInCode_withReturns {a b : Tokenization} (h : a.Returned source b) (cs ds : List Comment)
    (n : Nat) : (Layout.ofTokens (withReturns source) b ds).endsInCode n =
      (Layout.ofTokens source a cs).endsInCode n := by
  have literals : b.tokens.filterMap literalLines = a.tokens.filterMap literalLines := by
    have tokens := h.tokens
    generalize a.tokens = ks, b.tokens = ls at tokens
    induction tokens with
    | nil => rfl
    | @cons k l _ _ hk _ ih =>
      have same : literalLines l = literalLines k := by
        unfold literalLines
        rw [hk.kind, hk.line, hk.endLine]
      rw [List.filterMap_cons, List.filterMap_cons, same, ih]
  unfold Layout.endsInCode Layout.ofTokens
  rw [lineCount_withReturns, literals, h.sealedLines]

/-- A program with returns has the same statements. -/
theorem scan_withReturns (plain : Plain source) :
    Scanned source (scan source) (scan (withReturns source)) := by
  have read := returned_tokenize plain
  have start : Scanner.Returned source {} {} := ⟨rfl, rfl, rfl, .none, rfl, rfl⟩
  have fed := Scanner.agree_foldlM start read.tokens
  have ending := read.ending
  unfold scan Scan.ofTokens
  generalize ha : (tokenize source).tokens.foldlM Scanner.feed {} = a,
    hb : (tokenize (withReturns source)).tokens.foldlM Scanner.feed {} = b at fed
  cases fed with
  | error e => exact .refused e
  | ok same =>
    rw [ending]
    dsimp only
    cases (tokenize source).ending with
    | complete => exact .accepted ⟨same.statements, endsInCode_withReturns read _ _, same.comments⟩
    | refused e => exact .refused e
    | broken f => exact .broken f

end Marginalia.Source
