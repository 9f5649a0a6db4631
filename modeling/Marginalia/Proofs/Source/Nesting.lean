import Mathlib.Data.List.Basic
import Marginalia.Proofs.Source.Accepted
import Marginalia.Proofs.Source.Stack

/-!
# The nesting of a program

As long as a program is accepted, its marks follow the stack of the scanner (`follows_feed`), with
two exceptions: an `end` may close the body of a brace, and leaves the brace behind; and what is
taken where a `def` waits for the name of its method is not heeded.
-/

namespace Marginalia.Source

/-- Whether a closer is of the kind of an opener. -/
def Closer.fits : Closer → Opener → Bool
  | .bracket b, .bracket c => b == c
  | .endWord, .block _ => true
  | .assignment, .block k => k == .methodDef
  | _, _ => false

/-- What is open behind a mark, innermost first. A closer must fit what was opened last. -/
def Mark.apply (os : List Opener) : Mark → Option (List Opener)
  | .opens o => some (o :: os)
  | .closes c =>
    match os with
    | [] => none
    | o :: os => if c.fits o then some os else none

/-- Every closer closes what was opened last and is of its kind, and in the end nothing is open. -/
def ProperlyNested (marks : List Mark) : Prop := marks.foldlM Mark.apply [] = some []

instance (marks : List Mark) : Decidable (ProperlyNested marks) :=
  inferInstanceAs (Decidable (_ = _))

namespace Scanner

/-- An `end` comes while a body that a brace has opened is the innermost one. -/
def EndsBraces (s : Scanner) (t : Token) : Prop :=
  t.kind = .keyword .endWord ∧ s.top.kind = .braceBlock

instance (s : Scanner) (t : Token) : Decidable (s.EndsBraces t) :=
  inferInstanceAs (Decidable (_ ∧ _))

/-- The tokens that a scanner takes, each with the state in which it is taken. -/
def steps (s : Scanner) : List Token → List (Scanner × Token)
  | [] => []
  | t :: ts => (s, t) :: ((s.feed t).toOption.map (steps · ts)).getD []

/-- The marks of some tokens. -/
def marks (s : Scanner) (ts : List Token) : List Mark := (s.steps ts).filterMap fun x =>
    x.1.mark? x.2

/-- The marks of some tokens that are heeded. -/
def heededMarks (s : Scanner) (ts : List Token) : List Mark :=
  (s.steps ts).filterMap fun x => x.1.heeded? x.2

/-! ## One token -/

variable {s s' : Scanner} {t : Token} {os : List Opener}

/-- The stack of a scanner is what is open behind a mark, if there is one. -/
def Follows (os : List Opener) (m : Option Mark) (s' : Scanner) : Prop :=
  ∃ os', m.elim (some os) (Mark.apply os) = some os' ∧ s'.Open os'

/-- Without a mark what was open is open. -/
theorem Open.follows (h : s.Open os) : Follows os none s := ⟨os, rfl, h⟩

/-- What is opened is the innermost. -/
theorem Open.follows_opens {o : Opener} (h : s.Open (o :: os)) : Follows os (some (.opens o)) s :=
  ⟨o :: os, rfl, h⟩

/-- What is closed was the innermost, and fits. -/
theorem follows_closes {o : Opener} {c : Closer} (fits : c.fits o = true)
    (h : ∃ os', os = o :: os' ∧ s.Open os') : Follows os (some (.closes c)) s := by
  obtain ⟨os', rfl, h⟩ := h
  exact ⟨os', if_pos fits, h⟩

/-- A token that is added to a statement changes nothing of it. -/
theorem Follows.touch {m : Option Mark} (h : Follows os m s) (t : Token) :
    Follows os m (s.touch t) := by
  obtain ⟨os', hos, h⟩ := h
  exact ⟨os', hos, h.touch t⟩

/-- The brackets of a body that a brace has opened are above the brace, so no `end` fits. -/
theorem Open.apply_endWord (h : s.Open os) (brace : s.top.kind = .braceBlock) :
    Mark.apply os (.closes .endWord) = none := by
  obtain ⟨inside, bs, under, hunder, -, -, -, rfl⟩ := h.exists_inside
  rw [brace] at hunder
  obtain ⟨-, -, os', -, rfl, -⟩ := hunder.exists_brace
  cases inside with
  | nil => rfl
  | cons b inside => rfl

/-- What a token does to the stack is what its mark says. -/
theorem follows_effect {m : Option Mark} (h : s.Open os) (word : ¬ s.EndsBraces t)
    (effect : Effect t m s s') : Follows os m s' := by
  induction effect with
  | pass => exact h.follows
  | touch => exact (h.touch t).follows
  | setHeader _ free => exact (h.setHeader free).follows
  | readName s header => exact (h.readName (by rw [header]; rfl) rfl).follows
  | clause _ free => exact (h.endStatement.setHeader free).follows
  | openFrame _ _ other fits => exact (h.openFrame t other fits).follows_opens
  | openBrace _ full => exact (h.openBrace full t).follows_opens
  | openBracket s b full =>
    have full' : (s.touch t).top.header.isBare = false := by rw [header_touch, full]
    exact ((h.touch t).openBracket full' b t).follows_opens
  | openParams _ header => exact (h.openParams header t).follows_opens
  -- an `end` closes a block of words, since no brace is open on top of it
  | closeFrame s end' level inner =>
    rw [← inBracket_endStatement] at level
    have kind : s.endStatement.top.kind ≠ .program ∧ s.endStatement.top.kind ≠ .braceBlock := by
      rw [kind_endStatement]
      exact ⟨inner, fun brace => word ⟨end', brace⟩⟩
    exact (follows_closes rfl (h.endStatement.dropFrame level kind)).touch t
  | closeBraceBlock s brace level =>
    have flat : s.endStatement.inBracket = false := by
      rw [inBracket_endStatement]
      have level : s.brackets.length = s.top.bracketBase := beq_iff_eq.1 level
      exact decide_eq_false (by omega)
    rw [← kind_endStatement] at brace
    exact (follows_closes rfl (h.endStatement.dropBraceBlock flat brace)).touch t
  | closeBracket _ inside first params =>
    exact (follows_closes (beq_self_eq_true _) (h.dropBracket first inside params)).touch t
  | closeParams _ header closing => exact follows_closes rfl (h.closeParams header closing)
  -- the block of a method without an `end` is left at its equals sign
  | assign s named ended =>
    obtain ⟨kind, level⟩ := h.level_of_bare (Header.isBare_of_named named)
    obtain ⟨os', rfl, outer⟩ := h.dropFrame level (by rw [kind]; decide)
    have fits : Closer.fits .assignment (.block s.top.kind) = true := by rw [kind]; rfl
    apply Follows.touch
    apply follows_closes fits
    rcases ended with rfl | rfl
    · exact ⟨os', rfl, outer.setHeader rfl⟩
    · exact ⟨os', rfl, outer⟩
  | readOn free _ _ ih => exact ih (h.setHeader free) word

theorem brackets_endHeaderOrStatement (s : Scanner) :
    s.endHeaderOrStatement.brackets = s.brackets := by
  unfold Scanner.endHeaderOrStatement
  split
  · exact s.brackets_endStatement
  · rfl

theorem below_endHeaderOrStatement (s : Scanner) : s.endHeaderOrStatement.below = s.below := by
  unfold Scanner.endHeaderOrStatement
  split
  · exact s.below_endStatement
  · rfl

theorem kind_endHeaderOrStatement (s : Scanner) : s.endHeaderOrStatement.top.kind = s.top.kind := by
  unfold Scanner.endHeaderOrStatement
  split
  · exact s.kind_endStatement
  · rfl

/-- Only a method has a header in which no bracket is open. -/
theorem Open.fed_of_feed (h : s.Open os) (hs : s.feed t = .ok s') : Fed t (s.heeded? t) s s' := by
  obtain ⟨m, fed, marked⟩ := Scanner.fed_of_feed hs
  rwa [← marked fun bare => (h.level_of_bare bare).1]

/-- A token that is taken does to the stack what its mark says, if the mark is heeded. -/
theorem follows_feed (h : s.Open os) (word : ¬ s.EndsBraces t) (hs : s.feed t = .ok s') :
    Follows os (s.heeded? t) s' := by
  have fed := h.fed_of_feed hs
  generalize s.heeded? t = m at fed ⊢
  cases fed with
  | comment => exact Open.follows (h.congr rfl rfl rfl rfl rfl)
  | pass => exact h.follows
  | ends => exact Open.follows (h.endHeaderOrStatement.congr rfl rfl rfl rfl rfl)
  | code _ effect =>
    obtain ⟨os', hos, coded⟩ := follows_effect h word effect
    exact ⟨os', hos, coded.congr rfl rfl rfl rfl rfl⟩

/-- An `end` that closes braces has the mark of an `end`. -/
theorem mark?_of_endsBraces (h : s.EndsBraces t) : s.mark? t = some (.closes .endWord) := by
  have other : t.isPunct "=" = false := by
    unfold Token.isPunct
    rw [h.1]
    rfl
  rw [mark?_of_other s other]
  unfold plainMark?
  rw [h.1]
  rfl

/-- A `def` that waits for its name is no brace, so an `end` for a brace is heeded. -/
theorem heeded?_of_endsBraces (h : s.Open os) (ends : s.EndsBraces t) :
    s.heeded? t = some (.closes .endWord) := by
  rw [heeded?_of_header t, mark?_of_endsBraces ends]
  intro header
  have kind : s.top.kind = .methodDef := (h.level_of_bare (by rw [header]; rfl)).1
  rw [ends.2] at kind
  cases kind

/-! ## All tokens -/

theorem steps_cons (hs : s.feed t = .ok s') (ts : List Token) :
    s.steps (t :: ts) = (s, t) :: s'.steps ts := by
  rw [steps, hs]
  rfl

/-- Some tokens do to the stack what their heeded marks say, unless an `end` closes the body of a
brace; then one of the marks does not fit. -/
theorem heededMarks_follow {ts : List Token} (h : s.Open os) (hs : ts.foldlM feed s = .ok s') :
    ((∀ x ∈ s.steps ts, ¬ x.1.EndsBraces x.2) →
      ∃ os', (s.heededMarks ts).foldlM Mark.apply os = some os' ∧ s'.Open os') ∧
    (¬ (∀ x ∈ s.steps ts, ¬ x.1.EndsBraces x.2) →
      (s.heededMarks ts).foldlM Mark.apply os = none) := by
  induction ts generalizing s os with
  | nil =>
    cases hs
    exact ⟨fun _ => ⟨os, rfl, h⟩, fun some => absurd (List.forall_mem_nil _) some⟩
  | cons t ts ih =>
    obtain ⟨r, hfeed, hs⟩ := foldlM_cons_eq_ok.1 hs
    have marked : (s.heededMarks (t :: ts)).foldlM Mark.apply os =
        ((s.heeded? t).elim (some os) (Mark.apply os)).bind fun os' =>
          (r.heededMarks ts).foldlM Mark.apply os' := by
      unfold heededMarks
      rw [steps_cons hfeed, List.filterMap_cons]
      cases s.heeded? t with
      | none => rfl
      | some m => exact List.foldlM_cons
    rw [steps_cons hfeed, List.forall_mem_cons, marked]
    -- an `end` for the body of a brace finds the brace, or a bracket in it, on top of the stack
    by_cases ends : s.EndsBraces t
    · rw [heeded?_of_endsBraces h ends, Option.elim_some, h.apply_endWord ends.2]
      exact ⟨fun none => absurd ends none.1, fun _ => rfl⟩
    · obtain ⟨os', hos, fed⟩ := follows_feed h ends hfeed
      obtain ⟨fits, unfit⟩ := ih fed hs
      rw [hos]
      refine ⟨fun none => fits none.2, fun some => unfit fun none => some ⟨ends, none⟩⟩

/-- The last token is fed behind the others. -/
theorem foldlM_concat {ts : List Token} (hs : (ts ++ [t]).foldlM feed s = .ok s') :
    ∃ r, ts.foldlM feed s = .ok r ∧ r.feed t = .ok s' := by
  rw [List.foldlM_append] at hs
  cases hr : ts.foldlM feed s with
  | error e => rw [hr] at hs; cases hs
  | ok r =>
    rw [hr] at hs
    obtain ⟨u, hu, last⟩ := foldlM_cons_eq_ok.1 hs
    cases last
    exact ⟨r, rfl, hu⟩

/-- A state in which a token is taken cuts the walk of the scanner in two. -/
theorem split_of_mem_steps {ts : List Token} {x : Scanner × Token} (hx : x ∈ s.steps ts)
    (fed : ts.foldlM feed s = .ok s') :
    ∃ before after r, ts = before ++ x.2 :: after ∧ before.foldlM feed s = .ok x.1 ∧
      x.1.feed x.2 = .ok r ∧ after.foldlM feed r = .ok s' ∧
      s.steps ts = s.steps before ++ x :: r.steps after := by
  induction ts generalizing s with
  | nil => cases hx
  | cons t ts ih =>
    obtain ⟨u, hfeed, fed⟩ := foldlM_cons_eq_ok.1 fed
    rw [steps_cons hfeed] at hx ⊢
    rcases List.mem_cons.1 hx with rfl | hx
    · exact ⟨[], ts, u, rfl, rfl, hfeed, fed, rfl⟩
    · obtain ⟨before, after, r, rfl, hbefore, hx, hafter, hsteps⟩ := ih hx fed
      refine ⟨t :: before, after, r, rfl, foldlM_cons_eq_ok.2 ⟨u, hfeed, hbefore⟩, hx, hafter, ?_⟩
      rw [hsteps, steps_cons hfeed, List.cons_append]

/-- At the end of an accepted program nothing is open. -/
theorem eq_nil_of_complete {source : Text} {s : Scanner}
    (complete : (tokenize source).ending = .complete)
    (fed : (tokenize source).tokens.foldlM feed {} = .ok s) (h : s.Open os) : os = [] := by
  obtain ⟨ts, t, htokens, eof⟩ :=
    (Tokenizer.ofSource source).exists_eof_of_complete complete
  have last : (ts ++ [t]).foldlM feed {} = .ok s := htokens ▸ fed
  obtain ⟨r, -, hs⟩ := foldlM_concat last
  unfold Scanner.feed at hs
  rw [eof] at hs
  obtain ⟨brackets, below, rfl⟩ := finish_eq_ok hs
  exact h.eq_nil (by rw [brackets_endHeaderOrStatement, brackets])
    (by rw [below_endHeaderOrStatement, below])

end Scanner

namespace Scanner

/-- Where every mark is heeded, the heeded marks are all there are. -/
theorem heededMarks_eq {s : Scanner} {ts : List Token}
    (quiet : ∀ x ∈ s.steps ts, x.1.top.header = .methodName → x.1.mark? x.2 = none) :
    s.heededMarks ts = s.marks ts := by
  apply List.filterMap_congr
  intro x hx
  by_cases header : x.1.top.header = .methodName
  · unfold heeded?
    rw [quiet x hx header, ite_self]
  · exact heeded?_of_header x.2 header

/-- The heeded marks of an accepted program are properly nested just if no `end` closes the body of
a brace. -/
theorem properlyNested_heededMarks {source : Text} {s : Scan}
    (accepted : scan source = .ok (.ok s)) :
    ProperlyNested (heededMarks {} (tokenize source).tokens) ↔
      ∀ x ∈ steps {} (tokenize source).tokens, ¬ x.1.EndsBraces x.2 := by
  obtain ⟨r, fed, complete, -⟩ := Scan.eq_of_scan accepted
  obtain ⟨fits, unfit⟩ := heededMarks_follow open_start fed
  constructor
  · intro nested
    apply Classical.byContradiction
    intro some
    unfold ProperlyNested at nested
    rw [unfit some] at nested
    cases nested
  · intro none
    obtain ⟨os, hos, left⟩ := fits none
    unfold ProperlyNested
    rw [hos, eq_nil_of_complete complete fed left]

end Scanner

open Scanner Tokenizer in
/-- What is heeded of an accepted program is properly nested just if no `end` closes the body of a
brace. If nothing is opened or closed where a `def` waits for the name of its method, that is all
there is to nest. -/
theorem properlyNested_iff {source : Text} {s : Scan} (accepted : scan source = .ok (.ok s)) :
    (ProperlyNested (heededMarks {} (tokenize source).tokens) ↔
      ∀ x ∈ steps {} (tokenize source).tokens, ¬ x.1.EndsBraces x.2) ∧
    ((∀ x ∈ steps {} (tokenize source).tokens, x.1.top.header = .methodName →
      x.1.mark? x.2 = none) →
      (ProperlyNested (marks {} (tokenize source).tokens) ↔
        ∀ x ∈ steps {} (tokenize source).tokens, ¬ x.1.EndsBraces x.2)) := by
  have heeded := properlyNested_heededMarks accepted
  refine ⟨heeded, ?_⟩
  intro quiet
  rw [← heededMarks_eq quiet]
  exact heeded

open Scanner Tokenizer in
/-- A source with braces that are properly nested. -/
theorem properlyNested_braces :
    let source := "def f(a)\n [a].map { if a then b end }\nend\ndef g = 1\n".toList
    ∃ s, scan source = .ok (.ok s) ∧ ProperlyNested (marks {} (tokenize source).tokens) := by
  intro source
  have checked : ∃ s ∈ scanFor 60 source, ∃ t ∈ runFor 60 (.ofSource source),
      (∀ x ∈ steps {} t.tokens, x.1.top.header = .methodName → x.1.mark? x.2 = none) ∧
      ∀ x ∈ steps {} t.tokens, ¬ x.1.EndsBraces x.2 := by
    decide +kernel
  obtain ⟨s, hs, t, ht, quiet, words⟩ := checked
  have accepted := scan_of_scanFor hs
  have tokens : (tokenize source).tokens = t.tokens := by rw [tokenize, run_eq_of_runFor ht]
  rw [← tokens] at quiet words
  exact ⟨s, accepted, ((properlyNested_iff accepted).2 quiet).2 words⟩

open Scanner Tokenizer in
/-- An `end` closes the body of a brace. The brace stays open for the brackets, and may be closed
again. -/
theorem properlyNested_endInBraces :
    let source := "foo \x7b\nend \x7d\n".toList
    ∃ s, scan source = .ok (.ok s) ∧ ¬ ProperlyNested (marks {} (tokenize source).tokens) := by
  intro source
  have checked : ∃ s ∈ scanFor 20 source, ∃ t ∈ runFor 20 (.ofSource source),
      ¬ ProperlyNested (marks {} t.tokens) := by
    decide +kernel
  obtain ⟨s, hs, t, ht, loose⟩ := checked
  refine ⟨s, scan_of_scanFor hs, ?_⟩
  rw [tokenize, run_eq_of_runFor ht]
  exact loose

end Marginalia.Source
