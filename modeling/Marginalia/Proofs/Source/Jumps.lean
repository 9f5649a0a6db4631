import Marginalia.Proofs.Source.Moves
import Marginalia.Proofs.Source.Nesting
import Marginalia.Proofs.Instrumented.Wrapping

/-!
# Words that forbid wrapping

A word such as `return` marks the statement in which it is taken, and no other: a statement around
it keeps what it had. So a statement is emitted just if no such word is taken directly in it
(`emitted_or_barred`, `not_emitted_of_bars`), and a `return` in an emitted statement stands in a
body inside that statement. A body of a method, a block or a loop takes the jump upon itself
(`BlockKind.shields`); a clause of a condition does not. Whether every `return` of a program is
shielded from the emitted statements around it is said by `returns_shielded_iff`.
-/

namespace Marginalia.Source

/-- Whether a jump out of a body of this kind is no jump out of a statement around the body. -/
def BlockKind.shields : BlockKind → Bool
  | .methodDef | .classBody | .moduleBody | .doBlock | .braceBlock | .whileLoop | .untilLoop
  | .forLoop => true
  | .program | .beginBody | .ifBody | .unlessBody | .caseBody => false

/-- Whether a token forbids wrapping a statement that starts at a place: it is a word that jumps, or
`using` at the very start of the statement. -/
def Token.forbids (t : Token) (start : Nat) : Bool :=
  t.keyword?.any Keyword.forbidsWrapping ||
    (start == t.start && (t.kind == .ident || t.kind == .methodName) && t.text == "using".toList)

namespace Scanner

/-! ## Open statements -/

/-- The open statement of body number `d`, counted from the outside, of some bodies, innermost
first. -/
def OpenIn (d : Nat) (o : OpenStatement) : List Frame → Prop
  | [] => False
  | f :: outer => outer.length + 1 = d ∧ f.statement = some o ∨ OpenIn d o outer

/-- A statement is open in body number `d`. -/
def OpenAt (s : Scanner) (d : Nat) (o : OpenStatement) : Prop := OpenIn d o (s.top :: s.below)

/-- The bodies inside the statement of body number `d`, innermost first. -/
def inside (s : Scanner) (d : Nat) : List Frame := (s.top :: s.below).take (s.below.length + 1 - d)

/-- What a token makes of the innermost statement that it touches. -/
def touched (s : Scanner) (t : Token) : OpenStatement :=
  let o := s.top.statement.getD ⟨t.start, t.stop, t.endLine, true⟩
  ⟨o.start, t.stop, t.endLine, o.wrappable && !t.forbids o.start⟩

/-- A token is taken directly in the statement of body number `d` that starts at a place, and
forbids wrapping it. -/
def Bars (s : Scanner) (t : Token) (d start : Nat) : Prop :=
  s.below.length + 1 = d ∧ (s.top.header = .body ∨ s.top.header = .blockStart) ∧
    (s.touched t).start = start ∧ t.forbids start

/-- A statement is open only in bodies whose header is over. -/
def Headed (s : Scanner) : Prop := ∀ f ∈ s.top :: s.below, f.header ≠ .body → f.statement = none

variable {s s' : Scanner} {t : Token} {d p q : Nat} {o o' : OpenStatement}

/-- A depth at which a statement is open is that of a frame. -/
theorem OpenIn.le {frames : List Frame} (h : OpenIn d o frames) : 0 < d ∧ d ≤ frames.length := by
  induction frames with
  | nil => exact h.elim
  | cons f outer ih =>
    rw [List.length_cons]
    rcases h with ⟨rfl, -⟩ | h
    · omega
    · have := ih h
      omega

/-- A statement that is open is that of a frame. -/
theorem OpenIn.mem {frames : List Frame} (h : OpenIn d o frames) :
    ∃ f ∈ frames, f.statement = some o := by
  induction frames with
  | nil => exact h.elim
  | cons f outer ih =>
    rcases h with ⟨-, h⟩ | h
    · exact ⟨f, List.mem_cons_self, h⟩
    · obtain ⟨g, hg, h⟩ := ih h
      exact ⟨g, List.mem_cons_of_mem f hg, h⟩

/-- What has ended is ahead of a statement that is open, or inside it. -/
theorem About.aheadOrInside {ended : List Statement} {frames : List Frame} (h : About ended frames)
    (ho : OpenIn d o frames) : ∀ e ∈ ended, AheadOrInside e o d := by
  induction frames with
  | nil => exact ho.elim
  | cons f outer ih =>
    rcases ho with ⟨rfl, ho⟩ | ho
    · exact h.1 o ho
    · exact ih h.2 ho

/-- A statement is open in the innermost frame or in one around it. -/
theorem openAt_iff : s.OpenAt d o ↔
    s.below.length + 1 = d ∧ s.top.statement = some o ∨ OpenIn d o s.below := Iff.rfl

/-- Leaving a body without an open statement leaves the open statements as they are. -/
theorem openAt_dropFrame (ended : s.top.statement = none) :
    s.dropFrame.OpenAt d o ↔ s.OpenAt d o := by
  have outer : s.OpenAt d o ↔ OpenIn d o s.below := by
    rw [openAt_iff, ended]
    exact or_iff_right fun h => nomatch h.2
  unfold dropFrame
  split
  · exact Iff.rfl
  · next f fs hbelow =>
    rw [outer, hbelow]
    exact Iff.rfl

/-- Dropping a frame ends no statement. -/
theorem statements_dropFrame (s : Scanner) : s.dropFrame.statements = s.statements := by
  unfold dropFrame
  split <;> rfl

/-- Where a statement ends, that statement is emitted if it may be wrapped, and no other. -/
theorem mem_statements_endStatement {e : Statement} : e ∈ s.endStatement.statements ↔
    e ∈ s.statements ∨ ∃ o, s.top.statement = some o ∧ o.wrappable ∧
      e = ⟨o.start, o.stop, o.line, s.below.length + 1⟩ := by
  unfold endStatement
  cases ho : s.top.statement with
  | none => simp
  | some o => cases w : o.wrappable <;> simp [w]

/-! ## Headers -/

theorem headed_start : ({} : Scanner).Headed := by
  intro f hf header
  rw [List.mem_singleton.1 hf]

/-- A token that is added to a statement leaves no header with one. -/
theorem headed_touch (h : s.Headed) : (s.touch t).Headed := by
  obtain ⟨same, -⟩ | ⟨w, header, same⟩ := touch_cases s t
  · rw [same]
    exact h
  · rw [same]
    intro f hf
    rcases List.mem_cons.1 hf with rfl | hf
    · exact fun other => absurd header other
    · exact h f (List.mem_cons_of_mem _ hf)

/-- A header may be changed where there is no statement in it. -/
theorem headed_setHeader {header : Header} (h : s.Headed)
    (quiet : header = .body ∨ s.top.header ≠ .body ∨ s.top.statement = none) :
    (s.setHeader header).Headed := by
  intro f hf
  rcases List.mem_cons.1 hf with rfl | hf
  · intro other
    rcases quiet with rfl | quiet | quiet
    · exact absurd rfl other
    · exact h s.top List.mem_cons_self quiet
    · exact quiet
  · exact h f (List.mem_cons_of_mem _ hf)

/-- Dropping a frame leaves no header with a statement. -/
theorem headed_dropFrame (h : s.Headed) : s.dropFrame.Headed := by
  unfold dropFrame
  split
  · exact h
  · next f fs hbelow =>
    intro g hg
    exact h g (List.mem_cons_of_mem _ (by rw [hbelow]; exact hg))

/-- Leaving a frame for the body around it leaves no header with a statement. -/
theorem headed_leave {header : Header} (h : s.Headed)
    (ended : header = .body ∨ header = s.dropFrame.top.header) :
    (s.dropFrame.setHeader header).Headed := by
  refine headed_setHeader (headed_dropFrame h) ?_
  rcases ended with ended | rfl
  · exact .inl ended
  · by_cases body : s.dropFrame.top.header = .body
    · exact .inl body
    · exact .inr (.inl body)

theorem headed_endStatement (h : s.Headed) : s.endStatement.Headed := by
  intro f hf
  rcases List.mem_cons.1 hf with rfl | hf
  · exact fun _ => statement_endStatement s
  · rw [below_endStatement] at hf
    exact h f (List.mem_cons_of_mem _ hf)

/-- A move leaves no header with a statement. -/
theorem headed_move (move : Move t s s') (h : s.Headed) : s'.Headed := by
  cases move with
  | touch => exact headed_touch h
  | endStatement => exact headed_endStatement h
  | setHeader _ quiet => exact headed_setHeader h quiet
  | enter =>
    intro f hf
    rcases List.mem_cons.1 hf with rfl | hf
    · exact fun _ => rfl
    · exact h f hf
  | leave _ ended => exact headed_touch (headed_leave h ended)
  | openBracket | dropBracket | remember | comment => exact h

/-- What a body that is left has had of statements has ended. -/
theorem ended_of_leave (h : s.Headed)
    (inner : s.top.kind ≠ .program ∧ s.top.statement = none ∨ s.top.header.isMethod) :
    s.top.statement = none := by
  rcases inner with ⟨-, ended⟩ | method
  · exact ended
  · exact h s.top List.mem_cons_self (Header.ne_body_of_isMethod method)

/-- A token leaves no header with a statement. -/
theorem headed_feed (h : s.Headed) (fed : s.feed t = .ok s') : s'.Headed :=
  invariant_feed (fun _ _ => headed_move) h fed

/-! ## How open statements go on -/

/-- How the statements of one state go on to another, where some are barred on the way: those that
have a depth and a start of which `bars` tells. Everything new starts at `p` or behind it. -/
structure Carries (bars : Nat → Nat → Prop) (p : Nat) (s s' : Scanner) : Prop where
  opened : ∀ d o', s'.OpenAt d o' →
    (∃ o, s.OpenAt d o ∧ o.start = o'.start ∧ (o'.wrappable → o.wrappable) ∧
      (o.wrappable → o'.wrappable ∨ bars d o'.start)) ∨
    p ≤ o'.start ∧ (o'.wrappable ∨ bars d o'.start)
  kept : ∀ d o, s.OpenAt d o → o.wrappable →
    (∃ o', s'.OpenAt d o' ∧ o'.start = o.start ∧ o'.wrappable) ∨
    (∃ e ∈ s'.statements, e.start = o.start ∧ e.depth = d) ∨ bars d o.start
  ended : ∀ e ∈ s'.statements, e ∈ s.statements ∨
    (∃ o, s.OpenAt e.depth o ∧ o.start = e.start ∧ o.wrappable) ∨ p ≤ e.start
  grows : ∀ e ∈ s.statements, e ∈ s'.statements

variable {bars : Nat → Nat → Prop}

/-- Nothing has changed for the statements. -/
theorem carries_of_same (opens : ∀ d o, s'.OpenAt d o ↔ s.OpenAt d o)
    (same : s'.statements = s.statements) : Carries bars p s s' where
  opened _ o' h := .inl ⟨o', (opens _ _).1 h, rfl, id, .inl⟩
  kept _ o h w := .inl ⟨o, (opens _ _).2 h, rfl, w⟩
  ended _ h := .inl (same ▸ h)
  grows _ h := same ▸ h

theorem Carries.trans {r : Scanner} (h : Carries bars p s r) (h' : Carries bars p r s') :
    Carries bars p s s' where
  opened d o' ho' := by
    obtain ⟨u, hu, start, down, up⟩ | fresh := h'.opened d o' ho'
    · have up' : u.wrappable ∨ bars d u.start → o'.wrappable ∨ bars d o'.start := by
        rintro (w | barred)
        · exact up w
        · exact .inr (start ▸ barred)
      obtain ⟨o, ho, start', down', through⟩ | ⟨behind, through⟩ := h.opened d u hu
      · exact .inl ⟨o, ho, start'.trans start, down' ∘ down, up' ∘ through⟩
      · exact .inr ⟨start ▸ behind, up' through⟩
    · exact .inr fresh
  kept d o ho w := by
    obtain ⟨u, hu, start, w⟩ | ⟨e, he, same⟩ | barred := h.kept d o ho w
    · rw [← start]
      exact h'.kept d u hu w
    · exact .inr (.inl ⟨e, h'.grows e he, same⟩)
    · exact .inr (.inr barred)
  ended e he := by
    obtain he | ⟨u, hu, start, w⟩ | fresh := h'.ended e he
    · exact h.ended e he
    · obtain ⟨o, ho, start', down, -⟩ | ⟨behind, -⟩ := h.opened _ u hu
      · exact .inr (.inl ⟨o, ho, start'.trans start, down w⟩)
      · exact .inr (.inr (start ▸ behind))
    · exact .inr (.inr fresh)
  grows e he := h'.grows e (h.grows e he)

/-- In a body a token starts or extends the statement. -/
theorem touch_of_body (header : s.top.header = .body) :
    s.touch t = { s with top := { s.top with statement := some (s.touched t) } } := by
  unfold touch
  rw [header]
  rfl

/-- A token that starts a statement gives it its own bounds. -/
theorem touched_of_none (h : s.top.statement = none) :
    s.touched t = ⟨t.start, t.stop, t.endLine, !t.forbids t.start⟩ := by
  unfold touched
  rw [h]
  rfl

/-- A token that extends a statement moves its end. -/
theorem touched_of_some (h : s.top.statement = some o) :
    s.touched t = ⟨o.start, t.stop, t.endLine, o.wrappable && !t.forbids o.start⟩ := by
  unfold touched
  rw [h]
  rfl

/-- A statement that may be wrapped holds no token that forbids it. -/
theorem not_forbids_of_wrappable (w : (s.touched t).wrappable) :
    ¬ t.forbids (s.touched t).start := by
  have free := (Bool.and_eq_true_iff.1 w).2
  rw [Bool.not_eq_true'] at free
  exact Bool.eq_false_iff.1 free

/-- A token touches the innermost statement, which it may bar. -/
theorem carries_touch (behind : p ≤ t.start)
    (barred : t.forbids (s.touched t).start → bars (s.below.length + 1) (s.touched t).start) :
    Carries bars p s (s.touch t) := by
  by_cases header : s.top.header = .body
  · have unbarred : !t.forbids (s.touched t).start ∨
        bars (s.below.length + 1) (s.touched t).start := by
      cases h : t.forbids (s.touched t).start with
      | false => exact .inl rfl
      | true => exact .inr (barred h)
    rw [touch_of_body header]
    refine ⟨?_, ?_, fun e he => .inl he, fun e he => he⟩
    · -- what is open behind the token was open before, or starts with it
      rintro d o' (⟨rfl, ho'⟩ | ho')
      · cases ho'
        cases ho : s.top.statement with
        | none =>
          rw [touched_of_none ho] at unbarred ⊢
          exact .inr ⟨behind, unbarred⟩
        | some o =>
          rw [touched_of_some ho] at unbarred ⊢
          refine .inl ⟨o, .inl ⟨rfl, ho⟩, rfl, fun w => (Bool.and_eq_true_iff.1 w).1, fun w => ?_⟩
          dsimp only
          rw [w, Bool.true_and]
          exact unbarred
      · exact .inl ⟨o', .inr ho', rfl, id, .inl⟩
    · rintro d o (⟨rfl, ho⟩ | ho) w
      · rw [touched_of_some ho] at unbarred ⊢
        rcases unbarred with free | barred
        · exact .inl ⟨_, .inl ⟨rfl, rfl⟩, rfl, Bool.and_eq_true_iff.2 ⟨w, free⟩⟩
        · exact .inr (.inr barred)
      · exact .inl ⟨o, .inr ho, rfl, w⟩
  · rw [touch_of_header_ne header]
    exact carries_of_same (fun _ _ => Iff.rfl) rfl

/-- A statement that ends is emitted if it may be wrapped. -/
theorem carries_endStatement (s : Scanner) : Carries bars p s s.endStatement := by
  have outer : ∀ d o, s.endStatement.OpenAt d o ↔ OpenIn d o s.below := by
    intro d o
    rw [openAt_iff, statement_endStatement, below_endStatement]
    exact or_iff_right fun h => nomatch h.2
  refine ⟨fun d o' h => .inl ⟨o', .inr ((outer d o').1 h), rfl, id, .inl⟩, ?_, ?_, ?_⟩
  · rintro d o (⟨rfl, ho⟩ | ho) w
    · exact .inr (.inl ⟨_, mem_statements_endStatement.2 (.inr ⟨o, ho, w, rfl⟩), rfl, rfl⟩)
    · exact .inl ⟨o, (outer d o).2 ho, rfl, w⟩
  · intro e he
    obtain he | ⟨o, ho, w, rfl⟩ := mem_statements_endStatement.1 he
    · exact .inl he
    · exact .inr (.inl ⟨o, .inl ⟨rfl, ho⟩, rfl, w⟩)
  · exact fun e he => mem_statements_endStatement.2 (.inl he)

/-- A move for a token that forbids nothing. -/
theorem carries_move (free : ∀ start, ¬ t.forbids start) (behind : p ≤ t.start) (headed : s.Headed)
    (move : Move t s s') : Carries bars p s s' := by
  have touch : ∀ r : Scanner, Carries bars p r (r.touch t) := fun r =>
    carries_touch behind fun h => absurd h (free _)
  cases move with
  | touch => exact touch s
  | endStatement => exact carries_endStatement s
  | @leave header inner =>
    have ended := ended_of_leave headed inner
    have left : Carries bars p s (s.dropFrame.setHeader header) :=
      carries_of_same (fun d o => openAt_dropFrame ended) (statements_dropFrame s)
    exact left.trans (touch _)
  | enter => exact carries_of_same (fun d o => or_iff_right fun h => nomatch h.2) rfl
  | setHeader | openBracket | dropBracket | remember | comment =>
    exact carries_of_same (fun _ _ => Iff.rfl) rfl

/-! ## Words that forbid wrapping -/

/-- The kinds of tokens that forbid wrapping a statement. -/
theorem kind_of_forbids {start : Nat} (h : t.forbids start) :
    (∃ k : Keyword, t.kind = .keyword k ∧ k.forbidsWrapping) ∨ t.kind = .ident ∨
      t.kind = .methodName := by
  unfold Token.forbids at h
  rw [Bool.or_eq_true] at h
  rcases h with word | name
  · left
    unfold Token.keyword? at word
    split at word
    · next k kind => exact ⟨k, kind, word⟩
    · cases word
  · right
    simp only [Bool.and_eq_true, Bool.or_eq_true, beq_iff_eq] at name
    exact name.1.2

/-- What forbids wrapping is no punctuation mark. -/
theorem isPunct_of_forbids {start : Nat} (h : t.forbids start) (sign : String) :
    t.isPunct sign = false := by
  cases hp : t.isPunct sign with
  | false => rfl
  | true =>
    have punct := kind_of_isPunct hp
    rcases kind_of_forbids h with ⟨k, kind, -⟩ | kind | kind <;> rw [kind] at punct <;> cases punct

/-- A word that forbids wrapping is taken as a part of a statement. -/
theorem plain_of_forbids {start : Nat} (h : t.forbids start) (s : Scanner) :
    s.plain t = .ok (s.touch t) := by
  have signs := isPunct_of_forbids h
  unfold plain
  rcases kind_of_forbids h with ⟨k, kind, word⟩ | kind | kind
  · rw [kind]
    cases k with
    | returnWord | breakWord | nextWord | redoWord | retryWord | aliasWord | undefWord
      | programBegin
    | programEnd => rfl
    | _ => cases word
  all_goals
    rw [kind]
    dsimp only
    simp only [signs, Bool.false_eq_true, if_false]

/-- What forbids wrapping only starts the body of a block. -/
theorem blockStart_of_forbids {start : Nat} (h : t.forbids start) (s : Scanner) :
    s.blockStart t =
      .ok ((if s.top.header == .blockStart then s.setHeader .body else s).touch t) := by
  unfold blockStart
  rw [isPunct_of_forbids h, plain_of_forbids h, plain_of_forbids h]
  simp only [Bool.false_eq_true, if_false]
  split <;> rfl

/-- Behind the name or the parameters of a method, and in them, a word touches nothing. -/
theorem code_of_isMethod {start : Nat} (h : t.forbids start) (method : s.top.header.isMethod) :
    ∃ header, s.code t = .ok (s.setHeader header) := by
  have signs := isPunct_of_forbids h
  have same : s.setHeader s.top.header = s := rfl
  have rest : (s.setHeader .line).blockStart t = .ok (s.setHeader .line) := by
    rw [blockStart_of_forbids h]
    rfl
  unfold code
  -- header by header; those that are not of a method are ruled out at the end
  split
  · next header =>
    split
    · exact ⟨_, rfl⟩
    · exact ⟨_, rfl⟩
  · next header =>
    simp only [signs, Bool.false_eq_true, if_false]
    exact ⟨_, rest⟩
  · next header =>
    simp only [signs, Bool.false_eq_true, if_false]
    exact ⟨_, rest⟩
  · next depth header =>
    simp only [signs, Bool.false_eq_true, if_false, Bool.false_and]
    rw [blockStart_of_forbids h, header]
    refine ⟨s.top.header, ?_⟩
    rw [same, if_neg (by nofun), touch_of_header_ne (by rw [header]; nofun)]
  · next h1 h2 h3 h4 =>
    cases header : s.top.header with
    | methodName => exact absurd header h1
    | afterName => exact absurd header h2
    | afterParams => exact absurd header h3
    | params depth => exact absurd header (h4 depth)
    | _ => rw [header] at method; cases method

/-- What forbids wrapping, behind the header, only extends the statement. -/
theorem code_of_free {start : Nat} (h : t.forbids start)
    (free : s.top.header = .line ∨ s.top.header = .body) : s.code t = .ok (s.touch t) := by
  have taken := blockStart_of_forbids h s
  unfold code
  rcases free with header | header
  all_goals
    rw [header] at taken ⊢
    exact taken

/-- A word that forbids wrapping becomes a part of the innermost statement, if the header of the
innermost body is over, and changes nothing else. -/
theorem feed_of_forbids {start : Nat} (h : t.forbids start) (fed : s.feed t = .ok s') :
    s'.below = s.below ∧ s'.statements = s.statements ∧
      s'.top.statement = if s.top.header = .body ∨
        s.top.header = .blockStart then some (s.touched t)
        else s.top.statement := by
  obtain ⟨r, last, coded, rfl⟩ : ∃ r last, s.code t = .ok r ∧ s' = { r with last := last } := by
    have other : s.feed t = (s.code t).map fun r =>
        { r with last := some ⟨t, t.keyword?.any Keyword.isModifier && !s.atExpressionStart⟩ } := by
      unfold feed
      rcases kind_of_forbids h with ⟨k, kind, -⟩ | kind | kind <;> rw [kind]
    rw [other] at fed
    cases coded : s.code t with
    | error e => rw [coded] at fed; cases fed
    | ok r =>
      rw [coded] at fed
      cases fed
      exact ⟨r, _, rfl, rfl⟩
  dsimp only
  -- what is not a body takes no part of a statement
  cases header : s.top.header with
  | methodName | afterName | params | afterParams =>
    obtain ⟨header', same⟩ := code_of_isMethod h (s := s) (by rw [header]; rfl)
    rw [same] at coded
    cases coded
    exact ⟨rfl, rfl, (if_neg (by nofun)).symm⟩
  | line =>
    rw [code_of_free h (.inl header), touch_of_header_ne (by rw [header]; nofun)] at coded
    cases coded
    exact ⟨rfl, rfl, (if_neg (by nofun)).symm⟩
  | body =>
    rw [code_of_free h (.inr header), touch_of_body header] at coded
    cases coded
    exact ⟨rfl, rfl, (if_pos (.inl rfl)).symm⟩
  | blockStart =>
    have coded' : s.code t = .ok ((s.setHeader .body).touch t) := by
      unfold code
      rw [header]
      dsimp only
      rw [blockStart_of_forbids h, header]
      rfl
    rw [coded', touch_of_body rfl] at coded
    cases coded
    exact ⟨rfl, rfl, (if_pos (.inr rfl)).symm⟩

/-! ## One token -/

/-- A token carries all statements on, except that it may bar the innermost. -/
theorem carries_feed (headed : s.Headed) (behind : p ≤ t.start) (fed : s.feed t = .ok s') :
    Carries (s.Bars t) p s s' := by
  by_cases free : ∀ start, ¬ t.forbids start
  · have carried := invariant_feed (P := fun r => r.Headed ∧ Carries (s.Bars t) p s r)
      (fun _ _ move h => ⟨headed_move move h.1, h.2.trans (carries_move free behind h.1 move)⟩)
      ⟨headed, carries_of_same (fun _ _ => Iff.rfl) rfl⟩ fed
    exact carried.2
  · simp only [not_forall, not_not] at free
    obtain ⟨start, h⟩ := free
    obtain ⟨below, statements, top⟩ := feed_of_forbids h fed
    have opens : ∀ r : Scanner, r.below = s.below → r.top.statement = s'.top.statement →
        ∀ d o, s'.OpenAt d o ↔ r.OpenAt d o := by
      intro r hbelow htop d o
      rw [openAt_iff, openAt_iff, below, hbelow, htop]
    by_cases header : s.top.header = .body ∨ s.top.header = .blockStart
    · -- the header of the innermost body is over, and the word is touched as in any statement
      rw [if_pos header] at top
      have touched : Carries (s.Bars t) p (s.setHeader .body) ((s.setHeader .body).touch t) :=
        carries_touch behind fun h => ⟨rfl, header, rfl, h⟩
      rw [touch_of_body rfl] at touched
      have ended : Carries (s.Bars t) p s (s.setHeader .body) :=
        carries_of_same (fun _ _ => Iff.rfl) rfl
      exact (ended.trans touched).trans (carries_of_same (opens _ rfl top.symm) statements)
    · rw [if_neg header] at top
      exact carries_of_same (opens s rfl top.symm) statements

/-! ## All tokens -/

theorem Carries.mono {bars' : Nat → Nat → Prop} (h : Carries bars p s s')
    (le : ∀ d start, bars d start → bars' d start) : Carries bars' p s s' where
  opened d o' ho' := by
    obtain ⟨o, ho, start, down, up⟩ | ⟨behind, up⟩ := h.opened d o' ho'
    · exact .inl ⟨o, ho, start, down, fun w => (up w).imp_right (le _ _)⟩
    · exact .inr ⟨behind, up.imp_right (le _ _)⟩
  kept d o ho w := (h.kept d o ho w).imp_right (Or.imp_right (le _ _))
  ended := h.ended
  grows := h.grows

/-- Whatever tokens are fed, the statements that are open are carried on. -/
theorem carries_foldlM {ts : List Token} (headed : s.Headed) (behind : ∀ t ∈ ts, p ≤ t.start)
    (fed : ts.foldlM feed s = .ok s') : Carries (fun _ _ => True) p s s' ∧ s'.Headed := by
  induction ts generalizing s with
  | nil =>
    cases fed
    exact ⟨carries_of_same (fun _ _ => Iff.rfl) rfl, headed⟩
  | cons t ts ih =>
    obtain ⟨r, hfeed, fed⟩ := foldlM_cons_eq_ok.1 fed
    have first := carries_feed headed (behind t List.mem_cons_self) hfeed
    have rest := ih (headed_feed headed hfeed)
      (fun k hk => behind k (List.mem_cons_of_mem _ hk)) fed
    exact ⟨(first.mono fun _ _ _ => trivial).trans rest.1, rest.2⟩

/-- An open statement that may be wrapped is emitted in the end, or a token bars it, or it stays
open. -/
theorem emitted_or_barred {ts : List Token} (headed : s.Headed) (ho : s.OpenAt d o)
    (w : o.wrappable) (fed : ts.foldlM feed s = .ok s') :
    (∃ o', s'.OpenAt d o') ∨ (∃ e ∈ s'.statements, e.start = o.start ∧ e.depth = d) ∨
      ∃ y ∈ s.steps ts, y.1.Bars y.2 d o.start := by
  induction ts generalizing s o with
  | nil =>
    cases fed
    exact .inl ⟨o, ho⟩
  | cons t ts ih =>
    obtain ⟨r, hfeed, fed⟩ := foldlM_cons_eq_ok.1 fed
    rw [steps_cons hfeed]
    have headed' := headed_feed headed hfeed
    obtain ⟨u, hu, start, w⟩ | ⟨e, he, same⟩ | barred :=
      (carries_feed headed (Nat.zero_le _) hfeed).kept d o ho w
    · rw [← start]
      obtain left | emitted | ⟨y, hy, barred⟩ := ih headed' hu w fed
      · exact .inl left
      · exact .inr (.inl emitted)
      · exact .inr (.inr ⟨y, List.mem_cons_of_mem _ hy, barred⟩)
    · have rest := carries_foldlM (p := 0) headed' (fun _ _ => Nat.zero_le _) fed
      exact .inr (.inl ⟨e, rest.1.grows e he, same⟩)
    · exact .inr (.inr ⟨(s, t), List.mem_cons_self, barred⟩)

/-- A statement that may not be wrapped has been barred by a token. -/
theorem wrappable_or_barred {ts : List Token} (headed : s.Headed) (fed : ts.foldlM feed s = .ok s')
    (ho : s'.OpenAt d o') :
    o'.wrappable ∨ (∃ y ∈ s.steps ts, y.1.Bars y.2 d o'.start) ∨
      ∃ o, s.OpenAt d o ∧ o.start = o'.start ∧ ¬ o.wrappable := by
  induction ts generalizing s with
  | nil =>
    cases fed
    by_cases w : o'.wrappable
    · exact .inl w
    · exact .inr (.inr ⟨o', ho, rfl, w⟩)
  | cons t ts ih =>
    obtain ⟨r, hfeed, fed⟩ := foldlM_cons_eq_ok.1 fed
    rw [steps_cons hfeed]
    obtain w | ⟨y, hy, barred⟩ | ⟨u, hu, start, unwrappable⟩ := ih (headed_feed headed hfeed) fed
    · exact .inl w
    · exact .inr (.inl ⟨y, List.mem_cons_of_mem _ hy, barred⟩)
    · -- the first token bars the statement, unless it was open and barred before
      have here : s.Bars t d u.start → ∃ y ∈ (s, t) :: r.steps ts, y.1.Bars y.2 d o'.start :=
        fun barred => ⟨(s, t), List.mem_cons_self, start ▸ barred⟩
      obtain ⟨o, ho, start', -, up⟩ | ⟨-, up⟩ :=
        (carries_feed headed (Nat.zero_le _) hfeed).opened d u hu
      · by_cases w : o.wrappable
        · exact .inr (.inl (here ((up w).resolve_left unwrappable)))
        · exact .inr (.inr ⟨o, ho, start'.trans start, w⟩)
      · exact .inr (.inl (here (up.resolve_left unwrappable)))

/-! ## Behind a word that forbids wrapping -/

/-- Where a statement comes from that is emitted behind a word that forbids wrapping: it was emitted
before, or was open around the body in which the word is taken, or starts behind the word, or is the
one of that body, which the word then does not bar. -/
theorem emitted_cases {ts : List Token} {r : Scanner} {start : Nat} {e : Statement}
    (headed : s.Headed) (word : t.forbids start) (taken : s.feed t = .ok r)
    (behind : ∀ k ∈ ts, t.stop ≤ k.start) (fed : ts.foldlM feed r = .ok s')
    (he : e ∈ s'.statements) :
    e ∈ s.statements ∨ (∃ o, OpenIn e.depth o s.below ∧ o.start = e.start) ∨ t.stop ≤ e.start ∨
      e.depth = s.below.length + 1 ∧ (s.touched t).start = e.start ∧ ¬ t.forbids e.start := by
  obtain ⟨below, statements, top⟩ := feed_of_forbids word taken
  obtain he | ⟨o, ho, starts, w⟩ | later :=
    (carries_foldlM (headed_feed headed taken) behind fed).1.ended e he
  · exact .inl (statements ▸ he)
  · rw [openAt_iff, below] at ho
    rcases ho with ⟨depth, ho⟩ | ho
    · rw [top] at ho
      split at ho
      · cases ho
        refine .inr (.inr (.inr ⟨depth.symm, starts, ?_⟩))
        rw [← starts]
        exact not_forbids_of_wrappable w
      · next header =>
        rw [headed s.top List.mem_cons_self fun body => header (.inl body)] at ho
        cases ho
    · exact .inr (.inl ⟨o, ho, starts⟩)
  · exact .inr (.inr (.inl later))

/-- What is open in a state reaches up to a place or has a body inside, and what has ended since
some statements reaches up to it too. -/
def Covers (q : Nat) (before : List Statement) (s : Scanner) : Prop :=
  (∀ o, s.top.statement = some o → q ≤ o.stop) ∧ ∀ e ∈ s.statements, e ∈ before ∨ q ≤ e.stop

/-- A token that is added to a statement takes it to where the token ends. -/
theorem covers_touch {before : List Statement} (headed : s.Headed) (reaches : q ≤ t.stop)
    (ended : ∀ e ∈ s.statements, e ∈ before ∨ q ≤ e.stop) : (s.touch t).Covers q before := by
  by_cases header : s.top.header = .body
  · rw [touch_of_body header]
    refine ⟨fun o ho => ?_, ended⟩
    cases ho
    exact reaches
  · rw [touch_of_header_ne header]
    refine ⟨fun o ho => ?_, ended⟩
    rw [headed s.top List.mem_cons_self header] at ho
    cases ho

/-- A move ends no statement before the place that the token reaches. -/
theorem covers_move {before : List Statement} (reaches : q ≤ t.stop) (headed : s.Headed)
    (h : s.Covers q before) (move : Move t s s') : s'.Covers q before := by
  cases move with
  | touch => exact covers_touch headed reaches h.2
  | endStatement =>
    refine ⟨fun o ho => ?_, fun e he => ?_⟩
    · rw [statement_endStatement] at ho
      cases ho
    · obtain he | ⟨o, ho, -, rfl⟩ := mem_statements_endStatement.1 he
      · exact h.2 e he
      · exact .inr (h.1 o ho)
  | leave _ ended =>
    refine covers_touch (headed_leave headed ended) reaches fun e he => h.2 e ?_
    rw [← statements_dropFrame s]
    exact he
  | enter => exact ⟨fun o ho => (nomatch ho), h.2⟩
  | setHeader | openBracket | dropBracket | remember | comment => exact h

/-- A statement that is emitted behind a word reaches over it. -/
theorem le_stop_of_emitted {ts : List Token} {before : List Statement} (headed : s.Headed)
    (h : s.Covers q before) (behind : ∀ t ∈ ts, q ≤ t.stop) (fed : ts.foldlM feed s = .ok s') :
    ∀ e ∈ s'.statements, e ∈ before ∨ q ≤ e.stop := by
  induction ts generalizing s with
  | nil =>
    cases fed
    exact h.2
  | cons t ts ih =>
    obtain ⟨r, hfeed, fed⟩ := foldlM_cons_eq_ok.1 fed
    have reaches := behind t List.mem_cons_self
    have kept := invariant_feed (P := fun r => r.Headed ∧ r.Covers q before)
      (fun _ _ move h => ⟨headed_move move h.1, covers_move reaches h.1 h.2 move⟩) ⟨headed, h⟩ hfeed
    exact ih kept.1 kept.2 (fun k hk => behind k (List.mem_cons_of_mem _ hk)) fed

/-- Behind a word that forbids wrapping, everything reaches over the word. -/
theorem covers_of_forbids {r : Scanner} {start : Nat} (headed : s.Headed) (word : t.forbids start)
    (taken : s.feed t = .ok r) : r.Covers t.stop s.statements := by
  obtain ⟨below, statements, top⟩ := feed_of_forbids word taken
  refine ⟨fun o ho => ?_, fun e he => .inl (statements ▸ he)⟩
  rw [top] at ho
  split at ho
  · cases ho
    exact Nat.le_refl _
  · next header =>
    rw [headed s.top List.mem_cons_self fun body => header (.inl body)] at ho
    cases ho

/-! ## Whole programs -/

/-- At the end of an accepted program no statement is open. -/
theorem not_openAt_of_complete {source : Text} (complete : (tokenize source).ending = .complete)
    (fed : (tokenize source).tokens.foldlM feed {} = .ok s) : ¬ s.OpenAt d o := by
  obtain ⟨ts, t, htokens, eof⟩ :=
    (Tokenizer.ofSource source).exists_eof_of_complete complete
  have last : (ts ++ [t]).foldlM feed {} = .ok s := htokens ▸ fed
  obtain ⟨r, hr, hs⟩ := foldlM_concat last
  have headed : r.Headed := (carries_foldlM (p := 0) headed_start (fun _ _ => Nat.zero_le _) hr).2
  unfold Scanner.feed at hs
  rw [eof] at hs
  obtain ⟨-, below, rfl⟩ := finish_eq_ok hs
  have none : r.endHeaderOrStatement.top.statement = none := by
    unfold endHeaderOrStatement
    split
    · exact statement_endStatement r
    · next header => exact headed r.top List.mem_cons_self fun body => header (beq_iff_eq.2 body)
  rintro (⟨-, ho⟩ | ho)
  · rw [none] at ho
    cases ho
  · rw [below_endHeaderOrStatement, below] at ho
    exact ho

/-- What is known of a token that is taken in a program, and of the state in which it is taken. -/
structure Taken (ts : List Token) (final : Scanner) (x : Scanner × Token) (r : Scanner)
    (before after : List Token) : Prop where
  fed : before.foldlM feed {} = .ok x.1
  taken : x.1.feed x.2 = .ok r
  rest : after.foldlM feed r = .ok final
  steps : Scanner.steps {} ts = Scanner.steps {} before ++ x :: r.steps after
  headed : x.1.Headed
  /-- What the state knows of statements stands before the token. -/
  laid : x.1.Laid (fun _ => True) (fun _ => True) x.2.start
  spans : Tokenizer.Spans x.2
  behind : ∀ k ∈ after, x.2.stop ≤ k.start ∧ k.start ≤ k.stop

/-- Each step of an accepted source is taken between some tokens before and behind it. -/
theorem exists_taken {source : Text} {final : Scanner} {x : Scanner × Token}
    (fed : (tokenize source).tokens.foldlM feed {} = .ok final)
    (hx : x ∈ steps {} (tokenize source).tokens) :
    ∃ r before after, Taken (tokenize source).tokens final x r before after := by
  obtain ⟨before, after, r, hts, hbefore, htaken, hrest, hsteps⟩ := split_of_mem_steps hx fed
  have hs := Tokenizer.origin_ofSource source
  -- the tokens of the whole source are in order, so that those before the step are behind it
  have order : (before ++ x.2 :: after).Pairwise fun a b => a.stop ≤ b.start :=
    hts ▸ Tokenizer.pairwise_tokens_run _ hs
  have spans : ∀ t ∈ before ++ x.2 :: after, Tokenizer.Spans t := fun t ht =>
    (Tokenizer.token_of_run _ hs t (hts ▸ ht)).1
  obtain ⟨first, rest, across⟩ := List.pairwise_append.1 order
  have start : ({} : Scanner).Tidy (fun _ => True) (fun _ => True) 0 :=
    ⟨laid_start, capped_of_none rfl⟩
  have tidy := tidy_foldlM start (fun _ _ => Nat.zero_le _) first
    (fun t ht => ⟨spans t (List.mem_append_left _ ht), across t ht x.2 List.mem_cons_self⟩)
    (fun _ _ _ => ⟨trivial, trivial⟩) (Nat.zero_le _) hbefore
  exact ⟨r, before, after,
    { fed := hbefore
      taken := htaken
      rest := hrest
      steps := hsteps
      headed := tidy.1.body
      laid := tidy.1
      spans := spans x.2 (by simp)
      behind := fun k hk => ⟨(List.pairwise_cons.1 rest).1 k hk, (spans k (by simp [hk])).1⟩ }⟩

variable {ts before after : List Token} {final r : Scanner} {x : Scanner × Token} {e : Statement}

/-- A statement that is open began before the token. -/
theorem Taken.lt_of_openAt {o : OpenStatement} (h : Taken ts final x r before after)
    (ho : x.1.OpenAt d o) : o.start < x.2.start := by
  obtain ⟨f, hf, hstatement⟩ := OpenIn.mem ho
  obtain ⟨-, -, lt, le⟩ := h.laid.opened f hf o hstatement
  omega

/-- An ended statement does not start where an open one starts. -/
theorem Taken.start_ne {o : OpenStatement} (h : Taken ts final x r before after)
    (ho : x.1.OpenAt d o) (he : e ∈ x.1.statements) : e.start ≠ o.start := by
  have lt := (h.laid.past e he).2.2.1
  rcases h.laid.about.aheadOrInside ho e he with ahead | ⟨inside, -⟩
  all_goals omega

/-- The statement that a token touches starts at the token, if it has not been open before. -/
theorem start_touched (s : Scanner) (t : Token) : (s.touched t).start = t.start ∨
    ∃ o, s.OpenAt (s.below.length + 1) o ∧ (s.touched t).start = o.start := by
  cases ho : s.top.statement with
  | none =>
    rw [touched_of_none ho]
    exact .inl rfl
  | some o =>
    rw [touched_of_some ho]
    exact .inr ⟨o, .inl ⟨rfl, ho⟩, rfl⟩

/-- A word is not empty. -/
theorem Taken.lt_of_forbids {start : Nat} (h : Taken ts final x r before after)
    (word : x.2.forbids start) : x.2.start < x.2.stop := by
  refine h.spans.2 fun eof => ?_
  rcases kind_of_forbids word with ⟨k, kind, -⟩ | kind | kind <;> rw [kind] at eof <;> cases eof

/-- A statement that is barred is not emitted. -/
theorem not_emitted_of_bars (h : Taken ts final x r before after)
    (barred : x.1.Bars x.2 e.depth e.start) :
    e ∉ final.statements := by
  intro he
  obtain ⟨depth, -, starts, word⟩ := barred
  have lt := h.lt_of_forbids word
  obtain he | ⟨o, ho, -⟩ | later | ⟨-, -, free⟩ :=
    emitted_cases h.headed word h.taken (fun k hk => (h.behind k hk).1) h.rest he
  · obtain here | ⟨o, ho, same⟩ := start_touched x.1 x.2
    · have := (h.laid.past e he).2.2
      omega
    · exact h.start_ne ho he (starts.symm.trans same)
  · have := ho.le
    omega
  · obtain here | ⟨o, ho, same⟩ := start_touched x.1 x.2
    · omega
    · have := h.lt_of_openAt ho
      omega
  · exact free word

/-- Where a word that jumps stands in an emitted statement, that statement is open around the body
in which the word is taken. -/
theorem open_of_emitted (h : Taken ts final x r before after)
    (word : x.2.keyword?.any Keyword.forbidsWrapping) (he : e ∈ final.statements)
    (starts : e.start ≤ x.2.start) (stops : x.2.stop ≤ e.stop) :
    ∃ o, OpenIn e.depth o x.1.below ∧ o.start = e.start := by
  have forbids : ∀ start, x.2.forbids start := fun start => Bool.or_eq_true_iff.2 (.inl word)
  have lt := h.lt_of_forbids (forbids 0)
  obtain he | around | later | ⟨-, -, free⟩ :=
    emitted_cases h.headed (forbids 0) h.taken (fun k hk => (h.behind k hk).1) h.rest he
  · have := (h.laid.past e he).2.2.2
    omega
  · exact around
  · omega
  · exact absurd (forbids e.start) free

/-- An open statement that no token bars is emitted. If a word is taken in it, it reaches over the
word. -/
theorem emitted_of_unbarred {o : OpenStatement} (h : Taken ts final x r before after)
    (closed : ∀ d o, ¬ final.OpenAt d o) (ho : x.1.OpenAt d o)
    (unbarred : ∀ y ∈ steps {} ts, ¬ y.1.Bars y.2 d o.start) :
    ∃ e ∈ final.statements, e.start = o.start ∧ e.depth = d := by
  rw [h.steps] at unbarred
  have w : o.wrappable := by
    obtain w | ⟨y, hy, barred⟩ | ⟨o', ho', -⟩ := wrappable_or_barred headed_start h.fed ho
    · exact w
    · exact absurd barred (unbarred y (List.mem_append_left _ hy))
    · exact ho'.elim (fun h => nomatch h.2) False.elim
  have fed := foldlM_cons_eq_ok.2 ⟨r, h.taken, h.rest⟩
  obtain ⟨o', ho'⟩ | emitted | ⟨y, hy, barred⟩ := emitted_or_barred h.headed ho w fed
  · exact absurd ho' (closed d o')
  · exact emitted
  · rw [steps_cons h.taken] at hy
    exact absurd barred (unbarred y (List.mem_append_right _ hy))

end Scanner

open Scanner in
/-- In an emitted statement a word that jumps stands inside another body. Every `return` in an
emitted statement is shielded from it by a body that takes the jump upon itself, just if each
statement around a `return` with no such body between them is barred by a word of its own. -/
theorem returns_shielded_iff {source : Text} {s : Scan} (accepted : scan source = .ok (.ok s)) :
    (∀ e ∈ s.statements, ∀ x ∈ steps {} (tokenize source).tokens,
      x.2.keyword?.any Keyword.forbidsWrapping → e.start ≤ x.2.start → x.2.stop ≤ e.stop →
      ∃ o, OpenIn e.depth o x.1.below ∧ o.start = e.start) ∧
    ((∀ e ∈ s.statements, ∀ x ∈ steps {} (tokenize source).tokens,
      x.2.keyword? = some .returnWord → e.start ≤ x.2.start → x.2.stop ≤ e.stop →
      ∃ f ∈ x.1.inside e.depth, f.kind.shields) ↔
    ∀ x ∈ steps {} (tokenize source).tokens, x.2.keyword? = some .returnWord →
      ∀ d o, x.1.OpenAt d o → (∀ f ∈ x.1.inside d, ¬ f.kind.shields) →
      ∃ y ∈ steps {} (tokenize source).tokens, y.1.Bars y.2 d o.start) := by
  obtain ⟨final, fed, complete, rfl⟩ := Scan.eq_of_scan accepted
  have jumps : ∀ {t : Token}, t.keyword? = some .returnWord →
      t.keyword?.any Keyword.forbidsWrapping := fun h => by rw [h]; rfl
  refine ⟨fun e he x hx word starts stops => ?_, fun law x hx word d o ho bare => ?_,
    fun barred e he x hx word starts stops => ?_⟩
  · obtain ⟨r, before, after, h⟩ := exists_taken fed hx
    exact open_of_emitted h word he starts stops
  · obtain ⟨r, before, after, h⟩ := exists_taken fed hx
    by_contra unbarred
    obtain ⟨e, he, starts, depth⟩ := emitted_of_unbarred h
      (fun _ _ => not_openAt_of_complete complete fed) ho fun y hy barred =>
        unbarred ⟨y, hy, barred⟩
    have forbids : x.2.forbids 0 := Bool.or_eq_true_iff.2 (.inl (jumps word))
    -- the statement is emitted behind the word, and so reaches over it
    obtain he' | stops := le_stop_of_emitted (headed_feed h.headed h.taken)
      (covers_of_forbids h.headed forbids h.taken)
      (fun k hk => Nat.le_trans (h.behind k hk).1 (h.behind k hk).2) h.rest e he
    · exact h.start_ne ho he' starts
    · have lt := h.lt_of_openAt ho
      obtain ⟨f, hf, shields⟩ := law e he x hx word (by omega) stops
      exact bare f (depth ▸ hf) shields
  · by_contra bare
    obtain ⟨r, before, after, h⟩ := exists_taken fed hx
    obtain ⟨o, ho, same⟩ := open_of_emitted h (jumps word) he starts stops
    obtain ⟨y, hy, barred⟩ := barred x hx word e.depth o (.inr ho) fun f hf shields =>
      bare ⟨f, hf, shields⟩
    obtain ⟨_, _, _, h'⟩ := exists_taken fed hy
    exact not_emitted_of_bars h' (same ▸ barred) he

open Scanner Tokenizer in
/-- A `return` in a block bars no statement around the block. -/
theorem returns_shielded_block :
    let source := "[1].each do |x|\n  return x\nend\n".toList
    ∃ s, scan source = .ok (.ok s) ∧
      ∃ e ∈ s.statements, ∃ x ∈ steps {} (tokenize source).tokens,
        x.2.keyword? = some .returnWord ∧ (∃ f ∈ x.1.inside e.depth, f.kind.shields) ∧
        ∃ o, OpenIn e.depth o x.1.below ∧ o.start = e.start := by
  intro source
  have checked : ∃ s ∈ scanFor 30 source, ∃ t ∈ runFor 30 (.ofSource source),
      ∃ e ∈ s.statements, ∃ x ∈ steps {} t.tokens, x.2.keyword? = some .returnWord ∧
        e.start ≤ x.2.start ∧ x.2.stop ≤ e.stop ∧ ∃ f ∈ x.1.inside e.depth, f.kind.shields := by
    decide +kernel
  obtain ⟨s, hs, t, ht, e, he, x, hx, word, starts, stops, shields⟩ := checked
  have accepted := scan_of_scanFor hs
  have tokens : (tokenize source).tokens = t.tokens := by rw [tokenize, run_eq_of_runFor ht]
  rw [← tokens] at hx
  exact ⟨s, accepted, e, he, x, hx, word, shields,
    (returns_shielded_iff accepted).1 e he x hx (by rw [word]; rfl) starts stops⟩

open Scanner Tokenizer in
/-- The `return`s in the clauses of a condition do not keep the condition from being wrapped. -/
theorem returns_unshielded_condition :
    let source := "if a\n  return 1\nelse\n  return 2\nend\n".toList
    ∃ s, scan source = .ok (.ok s) ∧
      ∃ e ∈ s.statements, ∃ x ∈ steps {} (tokenize source).tokens,
        x.2.keyword? = some .returnWord ∧ e.start ≤ x.2.start ∧ x.2.stop ≤ e.stop ∧
        ∀ f ∈ x.1.inside e.depth, ¬ f.kind.shields := by
  intro source
  have checked : ∃ s ∈ scanFor 40 source, ∃ t ∈ runFor 40 (.ofSource source),
      ∃ e ∈ s.statements, ∃ x ∈ steps {} t.tokens, x.2.keyword? = some .returnWord ∧
        e.start ≤ x.2.start ∧ x.2.stop ≤ e.stop ∧ ∀ f ∈ x.1.inside e.depth, ¬ f.kind.shields := by
    decide +kernel
  obtain ⟨s, hs, t, ht, unshielded⟩ := checked
  refine ⟨s, scan_of_scanFor hs, ?_⟩
  rw [tokenize, run_eq_of_runFor ht]
  exact unshielded

end Marginalia.Source
