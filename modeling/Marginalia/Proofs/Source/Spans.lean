import Marginalia.Proofs.Source.Effects
import Marginalia.Proofs.Source.Walk

/-!
# The spans of statements

The scanner builds statements on a stack of bodies. What each of its operations keeps is stated here
once (`Scanner.Laid`): the open statements of the stack follow one another from the outside in, and
every statement that has ended lies in front of an open one or inside it. A statement that a token
has just extended reaches over everything inside it (`Scanner.Capped`), so that the ended statements
are disjoint or nested (`Statement.Apart`), whatever the program is.

The places where statements start and end are described by two predicates, which hold of the starts
and ends of the tokens that the scanner is fed.
-/

namespace Marginalia.Source

/-- The first statement ends before the second starts, or it lies inside the second, in more
bodies. -/
def Statement.Apart (a b : Statement) : Prop :=
  a.stop ≤ b.start ∨ (b.start < a.start ∧ a.stop < b.stop ∧ b.depth < a.depth)

namespace Scanner

/-! ## The invariant -/

/-- A statement has ended in front of an open statement, or inside it. -/
def AheadOrInside (e : Statement) (o : OpenStatement) (depth : Nat) : Prop :=
  e.stop ≤ o.start ∨ (o.start < e.start ∧ depth < e.depth)

/-- How the ended statements lie about the open ones of some bodies, innermost first. -/
def About (ended : List Statement) : List Frame → Prop
  | [] => True
  | f :: outer =>
    (∀ o, f.statement = some o → ∀ e ∈ ended, AheadOrInside e o (outer.length + 1)) ∧
      About ended outer

variable (Starts Stops : Nat → Prop)

/-- What a place `p` knows of the spans of the statements before it, given the open bodies and the
ended statements. -/
structure LaidOut (p : Nat) (frames : List Frame) (ended : List Statement) : Prop where
  /-- A body has an open statement only behind its header. -/
  body : ∀ f ∈ frames, f.header ≠ .body → f.statement = none
  opened : ∀ f ∈ frames, ∀ o, f.statement = some o →
    Starts o.start ∧ Stops o.stop ∧ o.start < o.stop ∧ o.stop ≤ p
  /-- Open statements of inner bodies start behind what is known of outer ones. -/
  outward : frames.Pairwise fun f g =>
    ∀ a b, f.statement = some a → g.statement = some b → b.stop ≤ a.start
  past : ∀ e ∈ ended, Starts e.start ∧ Stops e.stop ∧ e.start < e.stop ∧ e.stop ≤ p
  apart : ended.Pairwise Statement.Apart
  about : About ended frames

/-- The spans of the statements that a scanner knows of at a place. -/
def Laid (p : Nat) (s : Scanner) : Prop := LaidOut Starts Stops p (s.top :: s.below) s.statements

/-- The open statement of the innermost body reaches over every statement that is not in front. -/
def Capped (s : Scanner) : Prop :=
  ∀ o, s.top.statement = some o → ∀ e ∈ s.statements, e.stop ≤ o.start ∨ e.stop < o.stop

variable {Starts Stops}

theorem About.mono_append {ended : List Statement} {e : Statement} {frames : List Frame}
    (h : About ended frames)
    (he : ∀ fs f outer, frames = fs ++ f :: outer → ∀ o, f.statement = some o →
      AheadOrInside e o (outer.length + 1)) :
    About (ended ++ [e]) frames := by
  induction frames with
  | nil => trivial
  | cons f outer ih =>
    refine ⟨fun o ho d hd => ?_, ih h.2 fun fs g rest hrest => ?_⟩
    · rcases List.mem_append.1 hd with hd | hd
      · exact h.1 o ho d hd
      · rw [List.mem_singleton] at hd
        subst hd
        exact he [] f outer rfl o ho
    · exact he (f :: fs) g rest (by rw [hrest]; rfl)

variable {p : Nat} {s : Scanner}

theorem Laid.mono {q : Nat} (h : s.Laid Starts Stops p) (hpq : p ≤ q) : s.Laid Starts Stops q where
  body := h.body
  opened f hf o ho := by
    obtain ⟨h1, h2, h3, h4⟩ := h.opened f hf o ho
    exact ⟨h1, h2, h3, by omega⟩
  outward := h.outward
  past e he := by
    obtain ⟨h1, h2, h3, h4⟩ := h.past e he
    exact ⟨h1, h2, h3, by omega⟩
  apart := h.apart
  about := h.about

/-- At the start nothing is open. -/
theorem laid_start : ({} : Scanner).Laid Starts Stops 0 where
  body f hf _ := by rw [List.mem_singleton.1 hf]
  opened f hf o ho := by rw [List.mem_singleton.1 hf] at ho; cases ho
  outward := List.pairwise_singleton _ _
  past e he := nomatch he
  apart := List.Pairwise.nil
  about := ⟨fun _ ho => (nomatch ho), trivial⟩

/-- Without a statement the innermost frame is capped. -/
theorem capped_of_none (h : s.top.statement = none) : s.Capped := by
  intro o ho
  rw [h] at ho
  cases ho

/-! ## Headers -/

/-- A header may be over at any time; it is read on only where no statement is open. -/
theorem Laid.setHeader {h : Header} (hs : s.Laid Starts Stops p)
    (hh : h = .body ∨ s.top.header ≠ .body ∨ s.top.statement = none) :
    (s.setHeader h).Laid Starts Stops p where
  body f hf := by
    rcases List.mem_cons.1 hf with rfl | hf
    · intro hbody
      rcases hh with rfl | hh | hh
      · exact absurd rfl hbody
      · exact hs.body s.top List.mem_cons_self hh
      · exact hh
    · exact hs.body f (List.mem_cons_of_mem _ hf)
  opened f hf := by
    rcases List.mem_cons.1 hf with rfl | hf
    · exact hs.opened s.top List.mem_cons_self
    · exact hs.opened f (List.mem_cons_of_mem _ hf)
  outward := List.pairwise_cons.2 (List.pairwise_cons.1 hs.outward)
  past := hs.past
  apart := hs.apart
  about := hs.about

/-! ## The end of a statement -/

theorem statement_endStatement (s : Scanner) : s.endStatement.top.statement = none := by
  unfold endStatement
  split
  · assumption
  · rfl

theorem capped_endStatement (s : Scanner) : s.endStatement.Capped :=
  capped_of_none (statement_endStatement s)

theorem below_endStatement (s : Scanner) : s.endStatement.below = s.below := by
  unfold endStatement
  split <;> rfl

theorem top_endStatement (s : Scanner) : s.endStatement.top = { s.top with statement := none } := by
  unfold endStatement
  split
  · next none => rw [← none]
  · rfl

theorem brackets_endStatement (s : Scanner) : s.endStatement.brackets = s.brackets := by
  unfold endStatement
  split <;> rfl

theorem header_endStatement (s : Scanner) : s.endStatement.top.header = s.top.header := by
  unfold endStatement
  split <;> rfl

theorem kind_endStatement (s : Scanner) : s.endStatement.top.kind = s.top.kind := by
  unfold endStatement
  split <;> rfl

/-- The innermost body without its statement. -/
theorem Laid.withoutStatement (hs : s.Laid Starts Stops p) :
    LaidOut Starts Stops p ({ s.top with statement := none } :: s.below) s.statements where
  body f hf := by
    rcases List.mem_cons.1 hf with rfl | hf
    · exact fun _ => rfl
    · exact hs.body f (List.mem_cons_of_mem _ hf)
  opened f hf := by
    rcases List.mem_cons.1 hf with rfl | hf
    · exact fun o ho => nomatch ho
    · exact hs.opened f (List.mem_cons_of_mem _ hf)
  outward := List.pairwise_cons.2
    ⟨fun _ _ _ _ ha => (nomatch ha), (List.pairwise_cons.1 hs.outward).2⟩
  past := hs.past
  apart := hs.apart
  about := ⟨fun _ ho => (nomatch ho), hs.about.2⟩

/-- Where a statement ends, it takes its place among the ended ones: those in front of it end before
it starts, all others lie inside it. -/
theorem Laid.endStatement (hs : s.Laid Starts Stops p) (hcap : s.Capped) :
    s.endStatement.Laid Starts Stops p := by
  unfold Scanner.endStatement
  split
  · exact hs
  · next o ho =>
    have closed := hs.withoutStatement
    obtain ⟨hstart, hstop, hlt, hle⟩ := hs.opened s.top List.mem_cons_self o ho
    unfold Laid
    dsimp only
    split
    · refine ⟨closed.body, closed.opened, closed.outward, ?_, ?_, ?_⟩
      · intro e he
        rcases List.mem_append.1 he with he | he
        · exact hs.past e he
        · rw [List.mem_singleton.1 he]
          exact ⟨hstart, hstop, hlt, hle⟩
      · refine List.pairwise_append.2 ⟨hs.apart, List.pairwise_singleton _ _, ?_⟩
        intro e he d hd
        rw [List.mem_singleton.1 hd]
        rcases hs.about.1 o ho e he with ahead | ⟨inside, deeper⟩
        · exact .inl ahead
        · rcases hcap o ho e he with ahead | within
          · have := (hs.past e he).2.2.1
            omega
          · exact .inr ⟨inside, within, deeper⟩
      · refine ⟨fun o' ho' => (nomatch ho'), hs.about.2.mono_append ?_⟩
        intro fs f outer hsplit o' ho'
        -- an outer open statement ends, so far, where `o` starts or before
        have hf : f ∈ s.below := by rw [hsplit]; simp
        have before := (List.pairwise_cons.1 hs.outward).1 f hf o o' ho ho'
        have hlt' := (hs.opened f (List.mem_cons_of_mem _ hf) o' ho').2.2.1
        refine .inr ⟨by dsimp only; omega, ?_⟩
        have := congrArg List.length hsplit
        rw [List.length_append, List.length_cons] at this
        dsimp only
        omega
    · exact closed

/-! ## Tokens that extend a statement -/

/-- In a header a token starts no statement. -/
theorem touch_of_header_ne {t : Token} (h : s.top.header ≠ .body) : s.touch t = s := by
  unfold touch
  rw [if_neg]
  simpa using h

theorem kind_touch (s : Scanner) (t : Token) : (s.touch t).top.kind = s.top.kind := by
  unfold touch
  split <;> rfl

theorem below_touch (s : Scanner) (t : Token) : (s.touch t).below = s.below := by
  unfold touch
  split <;> rfl

theorem brackets_touch (s : Scanner) (t : Token) : (s.touch t).brackets = s.brackets := by
  unfold touch
  split <;> rfl

/-- What a token makes of the statement that it touches. -/
theorem touch_cases (s : Scanner) (t : Token) :
    s.touch t = s ∧ s.top.header ≠ .body ∨
      ∃ w, s.top.header = .body ∧ s.touch t = { s with
        top := { s.top with
          statement := some
            ⟨(s.top.statement.getD ⟨t.start, t.stop, t.endLine, true⟩).start, t.stop, t.endLine, w⟩
              } } := by
  unfold touch
  split
  · next h => exact .inr ⟨_, by simpa using h, rfl⟩
  · next h => exact .inl ⟨rfl, by simpa using h⟩

/-- The innermost body has another open statement, which ends behind everything known before. -/
theorem Laid.reopen {o : OpenStatement} (hs : s.Laid Starts Stops p) (header : s.top.header = .body)
    (le : p ≤ o.stop) (start : Starts o.start) (stop : Stops o.stop) (lt : o.start < o.stop)
    (outward : ∀ f ∈ s.below, ∀ b, f.statement = some b → b.stop ≤ o.start)
    (about : ∀ e ∈ s.statements, AheadOrInside e o (s.below.length + 1)) :
    LaidOut Starts Stops o.stop ({ s.top with statement := some o } :: s.below) s.statements where
  body f hf hbody := by
    rcases List.mem_cons.1 hf with rfl | hf
    · exact absurd header hbody
    · exact hs.body f (List.mem_cons_of_mem _ hf) hbody
  opened f hf w h := by
    rcases List.mem_cons.1 hf with rfl | hf
    · cases h
      exact ⟨start, stop, lt, Nat.le_refl _⟩
    · exact (hs.mono le).opened f (List.mem_cons_of_mem _ hf) w h
  outward := by
    refine List.pairwise_cons.2 ⟨fun f hf a b ha hb => ?_, (List.pairwise_cons.1 hs.outward).2⟩
    cases ha
    exact outward f hf b hb
  past := (hs.mono le).past
  apart := hs.apart
  about := ⟨fun w h => by cases h; exact about, hs.about.2⟩

/-- A token starts a statement at its own start or keeps the start of the open one; it ends behind
everything known before. -/
theorem Laid.touch {t : Token} (hs : s.Laid Starts Stops p) (hp : p ≤ t.start)
    (ht : t.start < t.stop) (hstart : Starts t.start) (hstop : Stops t.stop) :
    (s.touch t).Laid Starts Stops t.stop ∧ (s.touch t).Capped := by
  have le : p ≤ t.stop := by omega
  obtain ⟨heq, hheader⟩ | ⟨w, hheader, heq⟩ := touch_cases s t
  · rw [heq]
    exact ⟨hs.mono le, capped_of_none (hs.body s.top List.mem_cons_self hheader)⟩
  · rw [heq]
    -- the token starts a statement of its frame, or makes the open one longer
    cases ho : s.top.statement with
    | none =>
      have ahead : ∀ e ∈ s.statements, e.stop ≤ t.start :=
        fun e he => Nat.le_trans (hs.past e he).2.2.2 hp
      refine ⟨hs.reopen (o := ⟨t.start, t.stop, t.endLine, w⟩) hheader le hstart hstop ht
        (fun f hf b hb => ?_) fun e he => .inl (ahead e he), ?_⟩
      · exact Nat.le_trans (hs.opened f (List.mem_cons_of_mem _ hf) b hb).2.2.2 hp
      · intro o h e he
        cases h
        exact .inl (ahead e he)
    | some old =>
      obtain ⟨hs1, -, hlt, hle⟩ := hs.opened s.top List.mem_cons_self old ho
      refine ⟨hs.reopen (o := ⟨old.start, t.stop, t.endLine, w⟩) hheader le hs1 hstop
        (show old.start < t.stop by omega) (fun f hf b hb => ?_) fun e he =>
          hs.about.1 old ho e he, ?_⟩
      · exact (List.pairwise_cons.1 hs.outward).1 f hf old b ho hb
      · intro o h e he
        cases h
        have := (hs.past e he).2.2.2
        exact .inr (by dsimp only; omega)

/-! ## Bodies -/

/-- Leaving a body without an open statement. -/
theorem Laid.dropFrame (hs : s.Laid Starts Stops p) : s.dropFrame.Laid Starts Stops p := by
  unfold Scanner.dropFrame
  split
  · exact hs
  · next f fs hbelow =>
    unfold Laid at hs ⊢
    rw [hbelow] at hs
    dsimp only
    exact ⟨fun g hg => hs.body g (List.mem_cons_of_mem _ hg),
      fun g hg => hs.opened g (List.mem_cons_of_mem _ hg),
      (List.pairwise_cons.1 hs.outward).2, hs.past, hs.apart, hs.about.2⟩

/-- A new body starts without a statement, behind what its opener has touched. -/
theorem Laid.push {f : Frame} (hs : s.Laid Starts Stops p) (hf : f.statement = none) :
    LaidOut Starts Stops p (f :: s.top :: s.below) s.statements where
  body g hg := by
    rcases List.mem_cons.1 hg with rfl | hg
    · exact fun _ => hf
    · exact hs.body g hg
  opened g hg o ho := by
    rcases List.mem_cons.1 hg with rfl | hg
    · rw [hf] at ho
      cases ho
    · exact hs.opened g hg o ho
  outward := by
    refine List.pairwise_cons.2 ⟨fun g _ a b ha => ?_, hs.outward⟩
    rw [hf] at ha
    cases ha
  past := hs.past
  apart := hs.apart
  about := by
    refine ⟨fun o ho => ?_, hs.about⟩
    rw [hf] at ho
    cases ho

/-- A scanner whose spans are known at a place, with a statement that reaches over all within it. -/
def Tidy (Starts Stops : Nat → Prop) (p : Nat) (s : Scanner) : Prop :=
  s.Laid Starts Stops p ∧ s.Capped

theorem Tidy.mono {q : Nat} (h : s.Tidy Starts Stops p) (hpq : p ≤ q) : s.Tidy Starts Stops q :=
  ⟨h.1.mono hpq, h.2⟩

/-- The end of a statement leaves all tidy. -/
theorem Tidy.endStatement (h : s.Tidy Starts Stops p) : s.endStatement.Tidy Starts Stops p :=
  ⟨h.1.endStatement h.2, capped_endStatement s⟩

/-- A header may be changed where there is no statement in it. -/
theorem Tidy.setHeader {h : Header} (hs : s.Tidy Starts Stops p)
    (hh : h = .body ∨ s.top.header ≠ .body ∨ s.top.statement = none) :
    (s.setHeader h).Tidy Starts Stops p :=
  ⟨hs.1.setHeader hh, hs.2⟩

/-- The end of a header or of a statement leaves all tidy. -/
theorem Tidy.endHeaderOrStatement (h : s.Tidy Starts Stops p) :
    s.endHeaderOrStatement.Tidy Starts Stops p := by
  unfold Scanner.endHeaderOrStatement
  split
  · exact h.endStatement
  · exact h.setHeader (.inl rfl)

/-! ## One token

A token of code that starts behind everything known before leaves the spans in order, in whatever
way the scanner takes it. -/

section

variable {t : Token} {s' : Scanner}

/-- What is asked of a token of code at a place. -/
structure Fits (Starts Stops : Nat → Prop) (p : Nat) (t : Token) : Prop where
  behind : p ≤ t.start
  nonempty : t.start < t.stop
  starts : Starts t.start
  stops : Stops t.stop

/-- A token that fits does not end before the place. -/
theorem Fits.le (ht : Fits Starts Stops p t) : p ≤ t.stop :=
  Nat.le_trans ht.behind (Nat.le_of_lt ht.nonempty)

/-- A token that fits leaves all tidy up to its end. -/
theorem Laid.tidy_touch (hs : s.Laid Starts Stops p) (ht : Fits Starts Stops p t) :
    (s.touch t).Tidy Starts Stops t.stop :=
  hs.touch ht.behind ht.nonempty ht.starts ht.stops

/-- A body opened behind what its opener has touched. -/
theorem Tidy.push {f : Frame} (h : s.Tidy Starts Stops p) (none : f.statement = none) :
    ({ s with top := f, below := s.top :: s.below } : Scanner).Tidy Starts Stops p :=
  ⟨h.1.push none, capped_of_none none⟩

/-- Each effect of a token leaves all tidy up to its end. -/
theorem tidy_effect {m : Option Mark} (hs : s.Tidy Starts Stops p) (ht : Fits Starts Stops p t)
    (effect : Effect t m s s') : s'.Tidy Starts Stops t.stop := by
  -- what a token touches is tidy up to its end, whatever it opens or closes
  induction effect with
  | pass => exact hs.mono ht.le
  | touch => exact hs.1.tidy_touch ht
  | setHeader s _ left => exact (hs.setHeader (left.imp_right .inl)).mono ht.le
  | readName s header => exact (hs.setHeader (.inr (.inl (by rw [header]; nofun)))).mono ht.le
  | clause s =>
    exact (hs.endStatement.setHeader (.inr (.inr (statement_endStatement s)))).mono ht.le
  | openFrame => exact (hs.1.tidy_touch ht).push rfl
  | openBrace s =>
    have touched := hs.1.tidy_touch ht
    unfold Scanner.openBrace
    split
    · exact Tidy.push (s := (s.touch t).openBracket .brace t) touched rfl
    · exact touched
  | openBracket => exact hs.1.tidy_touch ht
  | openParams s header =>
    have reads : s.top.header ≠ .body := by rw [header]; nofun
    exact (Tidy.setHeader (s := s.openBracket .paren t) hs (.inr (.inl reads))).mono ht.le
  | closeFrame => exact hs.endStatement.1.dropFrame.tidy_touch ht
  | closeBraceBlock s =>
    exact Laid.tidy_touch (s := s.endStatement.dropFrame.dropBracket) hs.endStatement.1.dropFrame ht
  | closeBracket s => exact Laid.tidy_touch (s := s.dropBracket) hs.1 ht
  | closeParams s header =>
    have reads : s.top.header ≠ .body := by rw [header]; nofun
    exact (Tidy.setHeader (s := s.dropBracket) hs (.inr (.inl reads))).mono ht.le
  | assign s _ ended =>
    rcases ended with rfl | rfl
    · exact (hs.1.dropFrame.setHeader (.inl rfl)).tidy_touch ht
    · exact hs.1.dropFrame.tidy_touch ht
  | readOn _ left _ ih => exact ih (hs.setHeader (.inr (.inl left)))

/-- A token that is fed leaves all tidy up to its end. -/
theorem tidy_feed (hs : s.Tidy Starts Stops p) (behind : p ≤ t.start) (le : t.start ≤ t.stop)
    (code : isCode t.kind → t.start < t.stop ∧ Starts t.start ∧ Stops t.stop)
    (h : s.feed t = .ok s') : s'.Tidy Starts Stops t.stop := by
  have hle : p ≤ t.stop := Nat.le_trans behind le
  obtain ⟨m, fed, -⟩ := fed_of_feed h
  cases fed with
  | comment | pass => exact hs.mono hle
  | ends => exact hs.endHeaderOrStatement.mono hle
  | code coded effect =>
    obtain ⟨lt, starts, stops⟩ := code coded
    have taken := tidy_effect hs ⟨behind, lt, starts, stops⟩ effect
    exact taken

end

/-! ## Whole programs -/

/-- The first of some tokens is taken, and then the others. -/
theorem foldlM_cons_eq_ok {t : Token} {ts : List Token} {s' : Scanner} :
    (t :: ts).foldlM feed s = .ok s' ↔ ∃ r, s.feed t = .ok r ∧ ts.foldlM feed r = .ok s' := by
  rw [List.foldlM_cons]
  cases s.feed t with
  | error e =>
    constructor
    · intro h
      cases h
    · rintro ⟨_, h, -⟩
      cases h
  | ok r =>
    constructor
    · exact fun h => ⟨r, rfl, h⟩
    · rintro ⟨_, h, rest⟩
      cases h
      exact rest

/-- Tokens in order leave the spans of the statements in order. -/
theorem tidy_foldlM {ts : List Token} {q : Nat} {s' : Scanner} (hs : s.Tidy Starts Stops p)
    (behind : ∀ t ∈ ts, p ≤ t.start) (order : ts.Pairwise fun a b => a.stop ≤ b.start)
    (spans : ∀ t ∈ ts, Tokenizer.Spans t ∧ t.stop ≤ q)
    (code : ∀ t ∈ ts, isCode t.kind → Starts t.start ∧ Stops t.stop) (hpq : p ≤ q)
    (h : ts.foldlM feed s = .ok s') : s'.Tidy Starts Stops q := by
  induction ts generalizing s p with
  | nil =>
    cases h
    exact hs.mono hpq
  | cons t ts ih =>
    obtain ⟨r, hr, h⟩ := foldlM_cons_eq_ok.1 h
    have ⟨⟨hle, hlt⟩, hq⟩ := spans t List.mem_cons_self
    have fed := tidy_feed hs (behind t List.mem_cons_self) hle
      (fun hc => ⟨hlt fun he => (by rw [he] at hc; cases hc), code t List.mem_cons_self hc⟩) hr
    refine ih fed ?_ (List.pairwise_cons.1 order).2 ?_ ?_ hq h
    · exact (List.pairwise_cons.1 order).1
    · exact fun k hk => spans k (List.mem_cons_of_mem _ hk)
    · exact fun k hk => code k (List.mem_cons_of_mem _ hk)

end Scanner

end Marginalia.Source
