import Marginalia.Proofs.Source.Spans

/-!
# The two stacks of the scanner

What is open stands on two stacks, one of bodies and one of brackets, and the brace of a block
stands on both. They are two views of one stack (`Stacked`): a body remembers how many brackets were
open when it started, so that the brackets fall into stretches, one above each body. What may be
said of the header of a body depends on the stretch above it (`HeaderFits`).
-/

namespace Marginalia.Source

namespace Scanner

/-- The openers of some brackets. -/
def openersOf (bs : List (Bracket × Nat)) : List Opener := bs.map fun b => .bracket b.1

/-- What the header of a body says of the brackets that have been opened in the body: about the name
of a method there are none, and the outermost one holds the parameters while they are read. -/
def HeaderFits (f : Frame) (inside : List (Bracket × Nat)) : Prop :=
  (f.header.isBare → f.kind = .methodDef ∧ inside = []) ∧
    ∀ depth, f.header = .params depth → f.kind = .methodDef ∧ depth = f.bracketBase + 1 ∧
      ∃ line, inside.getLast? = some (.paren, line)

mutual

/-- Bodies and brackets, innermost first, as one stack. -/
inductive Stacked : List Frame → List (Bracket × Nat) → List Opener → Prop where
  | body {f : Frame} {fs : List Frame} {bs : List (Bracket × Nat)} {os : List Opener}
      (inside : List (Bracket × Nat)) (under : Under f.kind fs bs os)
      (base : f.bracketBase = bs.length) (header : HeaderFits f inside) :
      Stacked (f :: fs) (inside ++ bs) (openersOf inside ++ os)

/-- What is under the brackets of a body of some kind: its opener, and the stack around it. -/
inductive Under : BlockKind → List Frame → List (Bracket × Nat) → List Opener → Prop where
  | program : Under .program [] [] []
  | block {k : BlockKind} {fs : List Frame} {bs : List (Bracket × Nat)} {os : List Opener}
      (outer : Stacked fs bs os) (word : k ≠ .program ∧ k ≠ .braceBlock) :
      Under k fs bs (.block k :: os)
  /-- The brace of a block is a bracket of the body around it. -/
  | braceBlock {fs : List Frame} {bs : List (Bracket × Nat)} {os : List Opener} (line : Nat)
      (outer : Stacked fs bs os) :
      Under .braceBlock fs ((.brace, line) :: bs) (.bracket .brace :: os)

end

/-- What is open in a scanner, innermost first. -/
def Open (s : Scanner) (os : List Opener) : Prop := Stacked (s.top :: s.below) s.brackets os

variable {s s' : Scanner} {os : List Opener}

/-- The brackets of the innermost body, and what is under them. -/
theorem Stacked.exists_inside {f : Frame} {fs : List Frame} {brackets : List (Bracket × Nat)}
    (h : Stacked (f :: fs) brackets os) : ∃ inside bs under,
    Under f.kind fs bs under ∧ f.bracketBase = bs.length ∧ HeaderFits f inside ∧
      brackets = inside ++ bs ∧ os = openersOf inside ++ under := by
  cases h with
  | body inside under base header => exact ⟨inside, _, _, under, base, header, rfl, rfl⟩

/-- What is open is inside the innermost frame, or under it. -/
theorem Open.exists_inside (h : s.Open os) : ∃ inside bs under,
    Under s.top.kind s.below bs under ∧ s.top.bracketBase = bs.length ∧ HeaderFits s.top inside ∧
      s.brackets = inside ++ bs ∧ os = openersOf inside ++ under := Stacked.exists_inside h

/-- What is inside a frame and under it is open. -/
theorem open_of_inside (s : Scanner) (inside : List (Bracket × Nat)) {bs : List (Bracket × Nat)}
    {under : List Opener} (hunder : Under s.top.kind s.below bs under)
    (base : s.top.bracketBase = bs.length) (header : HeaderFits s.top inside)
    (brackets : s.brackets = inside ++ bs) :
    s.Open (openersOf inside ++ under) := by
  unfold Open
  rw [brackets]
  exact .body inside hunder base header

theorem open_start : ({} : Scanner).Open [] :=
  open_of_inside {} [] .program rfl ⟨nofun, nofun⟩ rfl

/-- A free header goes with any brackets. -/
theorem headerFits_of_free {f : Frame} {inside : List (Bracket × Nat)}
    (free : f.header.isFree = true) : HeaderFits f inside := by
  cases h : f.header
  all_goals simp_all [HeaderFits, Header.isFree, Header.isBare]

/-- About the name of a method there is its body, and no bracket is open in it. -/
theorem Open.level_of_bare (h : s.Open os) (bare : s.top.header.isBare = true) :
    s.top.kind = .methodDef ∧ s.inBracket = false := by
  obtain ⟨inside, bs, under, -, hbase, hheader, hbrackets, -⟩ := h.exists_inside
  obtain ⟨kind, rfl⟩ := hheader.1 bare
  refine ⟨kind, decide_eq_false ?_⟩
  rw [hbrackets, hbase, List.nil_append]
  omega

/-! ## What leaves the stack as it is -/

/-- The stack depends on the kind, the base and the header of the innermost body alone. -/
theorem Open.congr (h : s.Open os) (kind : s'.top.kind = s.top.kind)
    (base : s'.top.bracketBase = s.top.bracketBase) (header : s'.top.header = s.top.header)
    (below : s'.below = s.below) (brackets : s'.brackets = s.brackets) : s'.Open os := by
  obtain ⟨inside, bs, under, hunder, hbase, hheader, hbrackets, rfl⟩ := h.exists_inside
  have under' : Under s'.top.kind s'.below bs under := by
    rw [kind, below]
    exact hunder
  apply open_of_inside s' inside under'
  · rw [base, hbase]
  · unfold HeaderFits at hheader ⊢
    rw [header, kind, base]
    exact hheader
  · rw [brackets, hbrackets]

/-- A token that is added to a statement opens nothing. -/
theorem Open.touch (h : s.Open os) (t : Token) : (s.touch t).Open os := by
  unfold Scanner.touch
  split
  · exact h.congr rfl rfl rfl rfl rfl
  · exact h

theorem inBracket_endStatement (s : Scanner) : s.endStatement.inBracket = s.inBracket := by
  unfold Scanner.endStatement
  split
  · rfl
  · rfl

/-- The end of a statement closes nothing. -/
theorem Open.endStatement (h : s.Open os) : s.endStatement.Open os := by
  unfold Scanner.endStatement
  split
  · exact h
  · exact h.congr rfl rfl rfl rfl rfl

/-- A header may be over at any time. -/
theorem Open.setHeader (h : s.Open os) {header : Header} (free : header.isFree = true) :
    (s.setHeader header).Open os := by
  obtain ⟨inside, bs, under, hunder, hbase, -, hbrackets, rfl⟩ := h.exists_inside
  apply open_of_inside (s.setHeader header) inside hunder hbase _ hbrackets
  exact headerFits_of_free free

/-- The name of a method is read on to what may stand behind it. -/
theorem Open.readName (h : s.Open os) (bare : s.top.header.isBare = true) {header : Header}
    (next : header.isBare = true) : (s.setHeader header).Open os := by
  obtain ⟨inside, bs, under, hunder, hbase, hheader, hbrackets, rfl⟩ := h.exists_inside
  apply open_of_inside (s.setHeader header) inside hunder hbase _ hbrackets
  refine ⟨fun _ => hheader.1 bare, ?_⟩
  rintro depth (rfl : header = _)
  cases next

/-- The end of a header or of a statement closes nothing. -/
theorem Open.endHeaderOrStatement (h : s.Open os) : s.endHeaderOrStatement.Open os := by
  unfold Scanner.endHeaderOrStatement
  split
  · exact h.endStatement
  · exact h.setHeader rfl

/-! ## Brackets -/

/-- A header in which a bracket may be opened. -/
theorem HeaderFits.cons {f : Frame} {inside : List (Bracket × Nat)} (h : HeaderFits f inside)
    (full : f.header.isBare = false) (b : Bracket × Nat) : HeaderFits f (b :: inside) := by
  constructor
  · intro bare
    rw [full] at bare
    cases bare
  · intro depth hd
    obtain ⟨kind, base, line, last⟩ := h.2 depth hd
    refine ⟨kind, base, line, ?_⟩
    rw [List.getLast?_cons, last]
    rfl

/-- A bracket is opened. -/
theorem Open.openBracket (h : s.Open os) (full : s.top.header.isBare = false) (b : Bracket)
    (t : Token) : (s.openBracket b t).Open (.bracket b :: os) := by
  obtain ⟨inside, bs, under, hunder, hbase, hheader, hbrackets, rfl⟩ := h.exists_inside
  apply open_of_inside (s.openBracket b t) ((b, t.line) :: inside) hunder hbase
  · exact hheader.cons full _
  · show (b, t.line) :: s.brackets = _
    rw [hbrackets]
    rfl

/-- The innermost bracket of a body may be closed, unless it holds parameters that are being
read. -/
theorem Open.dropBracket (h : s.Open os) {b : Bracket} {line : Nat} {rest : List (Bracket × Nat)}
    (first : s.brackets = (b, line) :: rest) (inside : s.inBracket = true)
    (params : b = .paren → ∀ depth, s.top.header = .params depth → s.brackets.length ≠ depth) :
    ∃ os', os = .bracket b :: os' ∧ s.dropBracket.Open os' := by
  obtain ⟨stretch, bs, under, hunder, hbase, hheader, hbrackets, rfl⟩ := h.exists_inside
  have deep : s.top.bracketBase < s.brackets.length := of_decide_eq_true inside
  cases stretch with
  | nil =>
    rw [hbrackets, hbase, List.nil_append] at deep
    omega
  | cons c stretch =>
    have hc : c = (b, line) := by
      rw [hbrackets, List.cons_append] at first
      exact (List.cons.inj first).1
    refine ⟨openersOf stretch ++ under, by rw [hc]; rfl, ?_⟩
    apply open_of_inside s.dropBracket stretch hunder hbase
    · constructor
      · intro bare
        cases (hheader.1 bare).2
      · intro depth hd
        obtain ⟨kind, base, at', last⟩ := hheader.2 depth hd
        refine ⟨kind, base, at', ?_⟩
        cases stretch with
        | nil =>
          -- the only bracket is the one of the parameters
          have hb : b = .paren := congrArg Prod.fst (hc.symm.trans (Option.some.inj last))
          have more : s.brackets.length ≠ depth := params hb depth hd
          rw [hbrackets, base, hbase] at more
          exact absurd (by simp) more
        | cons d stretch => rwa [List.getLast?_cons_cons] at last
    · show s.brackets.tail = _
      rw [hbrackets]
      rfl

/-- The parenthesis of the parameters is closed. -/
theorem Open.closeParams (h : s.Open os) {depth : Nat} (header : s.top.header = .params depth)
    (closing : s.brackets.length = depth) :
    ∃ os', os = .bracket .paren :: os' ∧ (s.dropBracket.setHeader .afterParams).Open os' := by
  obtain ⟨inside, bs, under, hunder, hbase, hheader, hbrackets, rfl⟩ := h.exists_inside
  obtain ⟨kind, base, line, last⟩ := hheader.2 depth header
  have single : inside.length = 1 := by
    rw [hbrackets, List.length_append] at closing
    omega
  obtain ⟨c, rfl⟩ := List.length_eq_one_iff.1 single
  have hc : c = (.paren, line) := Option.some.inj last
  refine ⟨under, by rw [hc]; rfl, ?_⟩
  apply open_of_inside (s.dropBracket.setHeader .afterParams) [] hunder hbase
  · exact ⟨fun _ => ⟨kind, rfl⟩, nofun⟩
  · show s.brackets.tail = _
    rw [hbrackets]
    rfl

/-- The parenthesis of the parameters is opened behind the name of a method. -/
theorem Open.openParams (h : s.Open os) (header : s.top.header = .afterName) (t : Token) :
    ((s.openBracket .paren t).setHeader (.params (s.brackets.length + 1))).Open
      (.bracket .paren :: os) := by
  obtain ⟨inside, bs, under, hunder, hbase, hheader, hbrackets, rfl⟩ := h.exists_inside
  -- behind the name no bracket is open yet, so this one is the outermost of its body
  obtain ⟨kind, rfl⟩ := hheader.1 (by rw [header]; rfl)
  rw [List.nil_append] at hbrackets
  apply open_of_inside ((s.openBracket .paren t).setHeader (.params (s.brackets.length + 1)))
    [(.paren, t.line)] hunder hbase
  · refine ⟨nofun, ?_⟩
    intro depth hd
    refine ⟨kind, ?_, t.line, rfl⟩
    rw [← Header.params.inj hd]
    show s.brackets.length + 1 = s.top.bracketBase + 1
    rw [hbrackets, hbase]
  · show (Bracket.paren, t.line) :: s.brackets = _
    rw [hbrackets]
    rfl

/-! ## Bodies -/

/-- A block that starts with a word is opened. -/
theorem Open.openFrame (h : s.Open os) {kind : BlockKind} {header : Header} (t : Token)
    (word : kind ≠ .program ∧ kind ≠ .braceBlock)
    (fits : header.isFree = true ∨ kind = .methodDef ∧ header = .methodName) :
    (s.openFrame kind t header).Open (.block kind :: os) := by
  apply open_of_inside (s.openFrame kind t header) [] (.block (h.touch t) word) rfl
  · rcases fits with free | ⟨rfl, rfl⟩
    · exact headerFits_of_free free
    · exact ⟨fun _ => ⟨rfl, rfl⟩, nofun⟩
  · rfl

theorem header_touch (s : Scanner) (t : Token) : (s.touch t).top.header = s.top.header := by
  unfold Scanner.touch
  split
  · rfl
  · rfl

/-- A block that starts with a brace is opened. -/
theorem Open.openBrace (h : s.Open os) (full : s.top.header.isBare = false) (t : Token) :
    (s.openBrace t).Open (.bracket .brace :: os) := by
  have touched := h.touch t
  have opened : ((s.touch t).openBracket .brace t).Open (.bracket .brace :: os) :=
    touched.openBracket (by rw [header_touch, full]) .brace t
  unfold Scanner.openBrace
  split
  -- the body starts above its brace
  · exact Stacked.body [] (.braceBlock t.line touched) rfl ⟨nofun, nofun⟩
  · exact opened

/-- At the level of the innermost body no bracket stands above its opener. -/
theorem Open.under_of_level (h : s.Open os) (level : s.inBracket = false) :
    Under s.top.kind s.below s.brackets os := by
  obtain ⟨inside, bs, under, hunder, hbase, -, hbrackets, rfl⟩ := h.exists_inside
  have flat : ¬ s.top.bracketBase < s.brackets.length := of_decide_eq_false level
  rw [hbrackets, List.length_append, hbase] at flat
  have empty : inside = [] := List.eq_nil_of_length_eq_zero (by omega)
  subst empty
  rw [hbrackets]
  exact hunder

/-- Dropping a frame leaves the frames around it. -/
theorem open_dropFrame {bs : List (Bracket × Nat)} (h : Stacked s.below bs os) :
    s.dropFrame.top :: s.dropFrame.below = s.below := by
  unfold Scanner.dropFrame
  split
  · next none =>
    rw [none] at h
    cases h
  · next f fs some => exact some.symm

theorem last_touch (s : Scanner) (t : Token) : (s.touch t).last = s.last := by
  unfold touch
  split <;> rfl

theorem last_dropFrame (s : Scanner) : s.dropFrame.last = s.last := by
  unfold dropFrame
  split <;> rfl

theorem brackets_dropFrame (s : Scanner) : s.dropFrame.brackets = s.brackets := by
  unfold Scanner.dropFrame
  split
  · rfl
  · rfl

/-- Under a block that starts with a word lies its opener, and then what was open before. -/
theorem Under.exists_block {k : BlockKind} {fs : List Frame} {bs : List (Bracket × Nat)}
    (h : Under k fs bs os) (word : k ≠ .program ∧ k ≠ .braceBlock) :
    ∃ os', os = .block k :: os' ∧ Stacked fs bs os' := by
  cases h with
  | program => exact absurd rfl word.1
  | block outer _ => exact ⟨_, rfl, outer⟩
  | braceBlock line outer => exact absurd rfl word.2

/-- Under a block that starts with a brace lies the brace, and then what was open before. -/
theorem Under.exists_brace {fs : List Frame} {bs : List (Bracket × Nat)}
    (h : Under .braceBlock fs bs os) :
    ∃ line rest os', bs = (.brace, line) :: rest ∧ os = .bracket .brace :: os' ∧
      Stacked fs rest os' := by
  cases h with
  | block outer word => exact absurd rfl word.2
  | braceBlock line outer => exact ⟨line, _, _, rfl, rfl, outer⟩

/-- A body that a word has opened is left. -/
theorem Open.dropFrame (h : s.Open os) (level : s.inBracket = false)
    (word : s.top.kind ≠ .program ∧ s.top.kind ≠ .braceBlock) :
    ∃ os', os = .block s.top.kind :: os' ∧ s.dropFrame.Open os' := by
  obtain ⟨os', hos, outer⟩ := (h.under_of_level level).exists_block word
  refine ⟨os', hos, ?_⟩
  unfold Open
  rw [open_dropFrame outer, brackets_dropFrame]
  exact outer

/-- The body of a brace is left together with its brace. -/
theorem Open.dropBraceBlock (h : s.Open os) (level : s.inBracket = false)
    (brace : s.top.kind = .braceBlock) :
    ∃ os', os = .bracket .brace :: os' ∧ s.dropFrame.dropBracket.Open os' := by
  obtain ⟨line, rest, os', hbrackets, hos, outer⟩ :=
    (brace ▸ h.under_of_level level : Under .braceBlock _ _ _).exists_brace
  refine ⟨os', hos, ?_⟩
  show Stacked (s.dropFrame.top :: s.dropFrame.below) s.dropFrame.brackets.tail _
  rw [open_dropFrame outer, brackets_dropFrame, hbrackets]
  exact outer

/-- Where no bracket is open and no body is around the innermost one, nothing is open. -/
theorem Open.eq_nil (h : s.Open os) (brackets : s.brackets = []) (below : s.below = []) :
    os = [] := by
  have level : s.inBracket = false := by
    rw [inBracket, brackets]
    rfl
  have hunder := h.under_of_level level
  rw [brackets, below] at hunder
  generalize s.top.kind = k at hunder
  -- a body that a word has opened has another one around it
  cases hunder with
  | program => rfl
  | block outer word => cases outer

end Scanner

end Marginalia.Source
