import Marginalia.Proofs.Source.CodeLines
import Marginalia.Proofs.Source.LineTail
import Marginalia.Proofs.Source.Twin

/-!
# Programs with other margins

Two programs with the same code that differ in what stands behind the code of some lines, blanks and
a comment, and below the last line (`Split`). The walks over both find the same, and the second
finds the comments besides (`woven_of_reaches`), up to the first place where the code ahead is not
clear of what follows it.
-/

namespace Marginalia.Source

/-- A text of blanks that stays on its line. -/
def Blanks (u : Text) : Prop := ∀ c ∈ u, Text.isAsciiBlank c ∧ c ≠ '\n'

/-- Blanks hold no visible character, and no line feed. -/
theorem Blanks.notMem {u : Text} {c : Char} (h : Blanks u)
    (hc : Text.isAsciiBlank c = false ∨ c = '\n') : c ∉ u := by
  intro hm
  obtain ⟨blank, line⟩ := h c hm
  rcases hc with hc | hc
  · rw [hc] at blank
    cases blank
  · exact line hc

/-- Blanks before a stop are a stop. -/
theorem Blanks.stops {u s : Text} (h : Blanks u) (hs : Stops s) : Stops (u ++ s) := by
  cases u with
  | nil => exact hs
  | cons c u => exact stops_cons (h c List.mem_cons_self).1 _

/-- Blanks are a blank text. -/
theorem Blanks.isBlankText {u : Text} (h : Blanks u) : Text.isBlankText u = true :=
  List.all_eq_true.2 fun c hc => Classical.byContradiction fun visible => by
    have ascii := (h c hc).1
    rw [isAsciiBlank_eq_false (Bool.eq_false_iff.2 visible)] at ascii
    cases ascii

/-- In which lines a program ends otherwise than another, and how. -/
structure Margins where
  /-- The lines whose ends differ. -/
  differs : Nat → Prop
  /-- The blanks behind the code of such a line, in the first program and in the second. -/
  ends : Text → Text → Prop
  /-- The comments that the second program has besides. -/
  comment : Nat → Option Text
  /-- The number of the line behind the last one. -/
  last : Nat
  /-- What the second program has below the last line. -/
  below : Text
  blanks : ∀ u w, ends u w → Blanks u ∧ Blanks w
  differs_of_comment : ∀ n c, comment n = some c → differs n
  isComment : ∀ n c, comment n = some c → ∃ r, c = '#' :: r ∧ '\n' ∉ r
  stops : Stops below

namespace Margins

variable {m : Margins} {n : Nat} {y p q : Text}

/-- What follows the code of a line that differs, or the last line, in the one program and in the
other. -/
inductive Split (m : Margins) : Nat → Text → Text → Prop where
  | ended : Split m m.last [] m.below
  | line {n : Nat} {u w y p q : Text} (differs : m.differs n) (ends : m.ends u w)
      (apart : (m.comment n).isSome → w ≠ [])
      (plain : ∀ i, n + 1 ≤ i → i < n + 1 + Text.lineFeeds y → ¬ m.differs i)
      (visible : ∀ c, y.getLast? = some c → Text.isAsciiBlank c = false ∨ c = '\n')
      (closed : p = [] → y.Closed) (split : Split m (n + 1 + Text.lineFeeds y) p q) :
      Split m n (u ++ '\n' :: (y ++ p)) (w ++ ((m.comment n).getD [] ++ '\n' :: (y ++ q)))

/-- The lines that are left are counted up to the last one. -/
theorem Split.last_eq (h : m.Split n p q) : n + Text.lineFeeds p = m.last := by
  induction h with
  | ended => rfl
  | @line n u w y p q _ ends _ _ _ _ _ ih =>
    have inner := Text.lineFeeds_eq_zero ((m.blanks u w ends).1.notMem (.inr rfl))
    rw [Text.lineFeeds_append, inner, Text.lineFeeds_lineFeed, Text.lineFeeds_append]
    omega

/-- Behind the last line the second program goes on with what is below. -/
theorem Split.eq_below (h : m.Split n p q) (none : p = []) : q = m.below := by
  cases h with
  | ended => rfl
  | @line _ u => exact absurd none (List.append_ne_nil_of_right_ne_nil u (List.cons_ne_nil _ _))

/-- The second program has as many lines, and those below besides. -/
theorem Split.lineFeeds_eq (h : m.Split n p q) :
    Text.lineFeeds q = Text.lineFeeds p + Text.lineFeeds m.below := by
  induction h with
  | ended => exact (Nat.zero_add _).symm
  | @line n u w y p q _ ends _ _ _ _ _ ih =>
    have left := Text.lineFeeds_eq_zero ((m.blanks u w ends).1.notMem (.inr rfl))
    have right := Text.lineFeeds_eq_zero ((m.blanks u w ends).2.notMem (.inr rfl))
    have comment : Text.lineFeeds ((m.comment n).getD []) = 0 := by
      cases hc : m.comment n with
      | none => rfl
      | some c =>
        obtain ⟨r, rfl, hr⟩ := m.isComment n c hc
        exact Text.lineFeeds_eq_zero (List.not_mem_cons_of_ne_of_not_mem (by decide) hr)
    simp only [Text.lineFeeds_append, Text.lineFeeds_lineFeed, left, right, comment, ih]
    omega

/-- The text from a line on up to the code of the next line that differs, and what follows it. -/
structure Stretch (m : Margins) (first : Nat) (y p q : Text) : Prop where
  plain : ∀ i, first ≤ i → i < first + Text.lineFeeds y → ¬ m.differs i
  visible : ∀ c, y.getLast? = some c → Text.isAsciiBlank c = false ∨ c = '\n'
  closed : p = [] → y.Closed
  split : m.Split (first + Text.lineFeeds y) p q

/-- Both programs go on with blanks, and the first keeps all that follows them. -/
theorem Split.joint (h : m.Split n p q) :
    (p = [] ∧ Joint 0 p) ∨ ∃ u a, p = u ++ '\n' :: a ∧ Blanks u ∧
    m.differs n ∧ Joint (a.length + 1) p ∧ Stops p ∧ Stops q := by
  cases h with
  | ended => exact .inl ⟨rfl, joint_length []⟩
  | @line _ u w y p q differs ends apart =>
    obtain ⟨left, right⟩ := m.blanks u w ends
    have lineFeed : ∀ a : Text, Stops ('\n' :: a) := stops_cons (by decide)
    refine .inr ⟨u, y ++ p, rfl, left, differs, ⟨nofun, u, '\n' :: (y ++ p), rfl, rfl, left⟩,
      left.stops (lineFeed _), ?_⟩
    cases hc : m.comment n with
    | none => exact right.stops (lineFeed _)
    | some c =>
      obtain ⟨d, w, rfl⟩ := List.exists_cons_of_ne_nil (apart (by rw [hc]; rfl))
      exact stops_cons (right d List.mem_cons_self).1 _

/-- Within a stretch the texts that follow are a seam. -/
theorem Stretch.seam (h : m.Stretch n y p q) : Seam y p q := by
  obtain ⟨hp, -⟩ | ⟨u, a, hp, -, -, -, left, right⟩ := h.split.joint
  · exact .inl (h.closed hp)
  · refine .inr ⟨left, right, fun none => ?_⟩
    rw [hp] at none
    exact absurd none (List.append_ne_nil_of_right_ne_nil u (List.cons_ne_nil _ _))

end Margins

namespace Tokenizer

variable {m : Margins} {s₀ s t u : Tokenizer} {y p q : Text} {found : List Finding}

/-- The lines that differ end in code, and have no comment in the first program. -/
structure Fits (m : Margins) (s : Tokenizer) : Prop where
  uncovered : ∀ n, m.differs n → ¬ Covers s.run.found n
  uncommented : ∀ k ∈ s.run.tokens, k.kind = .comment → ¬ m.differs k.line

/-- The code ahead is read alike whichever text follows it: it is no hinge, and it is none of the
words and signs that count at the end of a line only. -/
structure Clear (s : Tokenizer) (y p q : Text) : Prop where
  hinge : Lexeme.hinges s.memory y = false
  begins : wordAhead "=begin" wordEnds (y ++ q) = wordAhead "=begin" wordEnds (y ++ p)
  mark : s.cursor.atLineStart →
    wordAhead "__END__" lineEnds (y ++ q) → wordAhead "__END__" lineEnds (y ++ p)
  joins : ∀ w ∈ [['\\'], ['\\', '\r']],
    List.isPrefixOf (w ++ ['\n']) (y ++ q) → List.isPrefixOf (w ++ ['\n']) (y ++ p)

section Walk

variable (whole : s₀.Whole) (fits : Fits m s₀) (reach : Reaches s₀ s)

include whole fits reach

/-- On a line that differs no comment is ahead. -/
theorem not_comment_of_differs {x u a : Text} (hr : s.cursor.rest = '#' :: (x ++ (u ++ '\n' :: a)))
    (hx : '\n' ∉ x) (hu : Blanks u) : ¬ m.differs s.cursor.line := by
  intro differs
  have line : '\n' ∉ x ++ u := by
    rw [List.mem_append, not_or]
    exact ⟨hx, hu.notMem (.inr rfl)⟩
  rw [← List.append_assoc] at hr
  obtain ⟨k, kind, -, hk, ends, -, hstep⟩ := step_of_comment hr line
  by_cases hs : s.suspended = []
  · rw [hs] at hstep
    obtain ⟨before, hrun⟩ := reach.run_eq
    refine fits.uncommented k ?_ kind (by rw [hk]; exact differs)
    rw [Tokenization.tokens_eq, hrun, run_of_next hstep, tokensOf_append, tokensOf_append]
    exact List.mem_append_right _ List.mem_cons_self
  · -- inside a literal, which is still open behind the comment
    have place : (s.cursor.advance ((x ++ u).length + 1)).line = s.cursor.line := by
      apply Cursor.line_advance_of_notMem
      rw [hr, List.take_succ_cons, List.take_left, List.mem_cons, not_or]
      exact ⟨by decide, line⟩
    refine fits.uncovered _ differs ?_
    rw [← place]
    refine whole.covers_of_open (y := []) (a := a) (.step reach hstep) hs ?_ List.not_mem_nil
      List.not_mem_nil
    show (s.cursor.advance ((x ++ u).length + 1)).rest = _
    rw [Cursor.rest_advance, hr, List.drop_succ_cons, List.drop_left]
    rfl

/-- Where the code ahead is clear, it is steady. -/
theorem steady_of_clear (hr : s.cursor.rest = y ++ p) (hy : y ≠ [])
    (stretch : m.Stretch s.cursor.line y p q) (clear : '\n' ∉ y → s.Clear y p q) :
    Steady y p q s where
  hinge line _ := (clear line).hinge
  uncommented line _ hash := by
    obtain ⟨x, rfl⟩ := List.head?_eq_some_iff.1 hash
    rw [List.mem_cons, not_or] at line
    rcases stretch.split.joint with ⟨hp, -⟩ | ⟨u, a, rfl, hu, differs, -⟩
    · rcases stretch.closed hp with h | h
      · cases h
      · exact (List.mem_cons.1 (List.mem_of_getLast? h)).elim line.1 line.2
    · refine not_comment_of_differs whole fits reach hr line.2 hu ?_
      rw [Text.lineFeeds_eq_zero (List.not_mem_cons_of_ne_of_not_mem (by decide) line.2)] at differs
      exact differs
  begins line _ := (clear line).begins
  mark line _ := (clear line).mark
  joins line _ := (clear line).joins
  document _ n hn := by
    rcases stretch.split.joint with ⟨hp, -⟩ | ⟨u, a, rfl, hu, differs, -⟩
    · -- a document ends before the last line feed
      rw [hp, List.append_nil] at hr
      unfold document? at hn
      split at hn
      · obtain ⟨⟨length, lines⟩, hdoc, rfl⟩ := Option.map_eq_some_iff.1 hn
        rw [hr] at hdoc
        exact (lineFeeds_embeddedDocument? hdoc).2 (stretch.closed hp)
      · cases hn
    · exact document_lt reach hr hn (fits.uncovered _ differs)

/-- What follows the code of the next line that differs is not read by a step from before it. -/
theorem exists_kept (h : s.step = .next found u) (hr : s.cursor.rest = y ++ p) (hy : y ≠ [])
    (split : m.Split (s.cursor.line + Text.lineFeeds y) p q) :
    ∃ keep, Joint keep p ∧ keep ≤ u.cursor.rest.length := by
  rcases split.joint with ⟨-, joint⟩ | ⟨v, a, rfl, hv, differs, joint, -⟩
  · exact ⟨0, joint, Nat.zero_le _⟩
  · rw [← List.append_assoc] at hr
    refine ⟨a.length + 1, joint, whole.lands reach h hr (List.append_ne_nil_of_left_ne_nil hy v) ?_⟩
    rw [Text.lineFeeds_append, Text.lineFeeds_eq_zero (hv.notMem (.inr rfl))]
    exact fits.uncovered _ differs

omit fits in
/-- What is left of a stretch after a step that ends in it. -/
theorem stretch_of_next {z : Text} (h : s.step = .next found u) (hr : s.cursor.rest = y ++ p)
    (hu : u.cursor.rest = z ++ p)
    (plain : ∀ i, u.cursor.line ≤ i → i < s.cursor.line + Text.lineFeeds y → ¬ m.differs i)
    (visible : ∀ c, y.getLast? = some c → Text.isAsciiBlank c = false ∨ c = '\n')
    (closed : p = [] → y.Closed) (split : m.Split (s.cursor.line + Text.lineFeeds y) p q) :
    m.Stretch u.cursor.line z p q := by
  have sum := whole.line_step reach h
  rw [hr, hu, Text.lineFeeds_append, Text.lineFeeds_append] at sum
  have line : u.cursor.line + Text.lineFeeds z = s.cursor.line + Text.lineFeeds y := by omega
  obtain ⟨x, hx⟩ := (next_cases h).2.1.1
  rw [hr, hu, ← List.append_assoc] at hx
  obtain rfl : x ++ z = y := List.append_cancel_right hx
  refine ⟨by rw [line]; exact plain, fun c hc => visible c ?_, fun hp =>
    (closed hp).of_suffix (List.suffix_append x z), by rw [line]; exact split⟩
  rw [List.getLast?_append, hc]
  rfl

end Walk

/-- A step goes to no earlier line. -/
theorem line_le_of_next (h : s.step = .next found u) : s.cursor.line ≤ u.cursor.line := by
  cases crosses_next h with
  | outside _ forward => exact forward
  | inside _ forward => exact forward

/-! ## What both walks find -/

/-- The same finding in both programs. -/
def Pair (m : Margins) (f g : Finding) : Prop := ∃ n p q, m.Split n p q ∧ Finding.Twin p q f g

/-- What the second program finds while the first takes one step: the same, and a comment before the
end of a line that has one in the second program only. -/
inductive Weaves (m : Margins) : List Finding → List Finding → Prop where
  | plain {f g : List Finding} (pairs : List.Forall₂ (Pair m) f g)
      (inner : ∀ k ∈ tokensOf f, k.kind = .newline → m.comment k.line = none) : Weaves m f g
  | commented {f g : List Finding} {k c : Token} (pairs : List.Forall₂ (Pair m) f g)
      (only : tokensOf f = [k]) (newline : k.kind = .newline) (comment : c.kind = .comment)
      (text : m.comment k.line = some c.text) (line : c.line = k.line)
      (endLine : c.endLine = k.line)
      (sum : c.line + Text.lineFeeds c.after = m.last + Text.lineFeeds m.below) :
      Weaves m f (.token c :: g)

/-- What the second program finds while the first takes some steps. -/
inductive Woven (m : Margins) : List Finding → List Finding → Prop where
  | nil : Woven m [] []
  | snoc {f g f' g' : List Finding} (before : Woven m f g) (h : Weaves m f' g') :
      Woven m (f ++ f') (g ++ g')

/-- Where the walks over both programs are at the same time. -/
inductive Along (m : Margins) (s t : Tokenizer) : Prop where
  /-- Before the same text. -/
  | code {y p q : Text} (twin : s.Twin y p q t) (stretch : m.Stretch s.cursor.line y p q)
      (ahead : y = [] → p = [])
  /-- Behind the code of a line that differs. The second walk waits there until the first has come
  to the line feed. -/
  | margin {u w y p q : Text} (differs : m.differs s.cursor.line)
      (left : s.cursor.rest = u ++ '\n' :: (y ++ p))
      (right : t.cursor.rest = w ++ ((m.comment s.cursor.line).getD [] ++ '\n' :: (y ++ q)))
      (blanks : Blanks u) (padding : Blanks w) (stretch : m.Stretch (s.cursor.line + 1) y p q)
      (line : t.cursor.line = s.cursor.line) (memory : t.memory = s.memory)
      (heredocs : t.heredocs = s.heredocs) (outside : s.suspended = [])
      (outside' : t.suspended = [])

/-- A place in both programs from which they go on with the same text, or with the margins of a
line. -/
theorem along_of_stretch (twin : s.Twin y p q t) (stretch : m.Stretch s.cursor.line y p q)
    (outside : y = [] → m.differs s.cursor.line → ∀ u a, s.cursor.rest = u ++ '\n' :: a → Blanks u →
      s.suspended = []) : Along m s t := by
  by_cases hy : y = []
  · subst hy
    have split := stretch.split
    have left : s.cursor.rest = p := twin.cursor.left
    have right : t.cursor.rest = q := twin.cursor.right
    generalize hn : s.cursor.line + Text.lineFeeds [] = n at split
    have hn : s.cursor.line = n := hn
    cases split with
    | ended => exact .code twin stretch fun _ => rfl
    | @line _ v w y p q differs ends apart plain visible closed split =>
      subst hn
      obtain ⟨blanks, padding⟩ := m.blanks v w ends
      have outside := outside rfl differs v (y ++ p) left blanks
      exact .margin differs left right blanks padding ⟨plain, visible, closed, split⟩
        twin.cursor.line
        twin.memory twin.heredocs outside (twin.outside outside)
  · exact .code twin stretch fun h => absurd h hy

section Walk

variable (whole : s₀.Whole) (fits : Fits m s₀) (reach : Reaches s₀ s)

include whole fits reach

/-- A place in both programs, where the first has come by a step. -/
theorem along_of_twin (h : s.step = .next found u) (twin : u.Twin y p q t)
    (stretch : m.Stretch u.cursor.line y p q) : Along m u t := by
  refine along_of_stretch twin stretch fun _ differs v a left blanks => ?_
  refine Classical.byContradiction fun hopen => fits.uncovered _ differs ?_
  exact whole.covers_of_open (.step reach h) hopen left (blanks.notMem (.inl (by decide)))
    (blanks.notMem (.inr rfl))

/-- The first step from before the same text. -/
theorem along_step_of_code (twin : s.Twin y p q t) (stretch : m.Stretch s.cursor.line y p q)
    (hy : y ≠ []) (clear : '\n' ∉ y → s.Clear y p q) (h : s.step = .next found u) :
    ∃ more v, Finds t more v ∧ Along m u v ∧ Weaves m found more := by
  have hr := twin.cursor.left
  have steady := steady_of_clear whole fits reach hr hy stretch clear
  obtain ⟨keep, joint, kept⟩ := exists_kept whole fits reach h hr hy stretch.split
  obtain ⟨z, more, v, ht, twins, twin'⟩ := follows_step joint twin hy steady found u h kept
  have line := line_le_of_next h
  have stretch' : m.Stretch u.cursor.line z p q :=
    stretch_of_next whole reach h hr twin'.cursor.left
      (fun i h1 h2 => stretch.plain i (Nat.le_trans line h1) h2) stretch.visible stretch.closed
      stretch.split
  refine ⟨more, v, .one ht, along_of_twin whole fits reach h twin' stretch', ?_⟩
  refine .plain (twins.imp fun _ _ twin => ⟨_, p, q, stretch.split, twin⟩) fun k hk newline => ?_
  obtain ⟨head, hline⟩ := line_of_newline h k hk newline
  rw [hline]
  obtain ⟨c, y, rfl⟩ := List.exists_cons_of_ne_nil hy
  rw [hr] at head
  have hc : c = '\n' := Option.some.inj head
  have count : Text.lineFeeds (c :: y) = Text.lineFeeds y + 1 := by
    rw [hc]
    exact List.count_cons_self
  -- the line ends within the common text, and so no comment is added to it
  have same := stretch.plain s.cursor.line (Nat.le_refl _) (by omega)
  cases comment : m.comment s.cursor.line with
  | none => rfl
  | some c => exact absurd (m.differs_of_comment _ _ comment) same

end Walk

/-- The second walk comes to the line feed. -/
theorem finds_margin {w x : Text} (hr : t.cursor.rest =
      w ++ ((m.comment t.cursor.line).getD [] ++ '\n' :: x)) (hw : Blanks w)
        (outside : t.suspended = []) :
    ∃ found v, Finds t found v ∧ v.cursor.rest = '\n' :: x ∧ v.cursor.line = t.cursor.line ∧
      v.unnamed.memory = t.unnamed.memory ∧ v.heredocs = t.heredocs ∧ v.suspended = [] ∧
      (m.comment t.cursor.line = none ∧ found = [] ∨
        ∃ c : Token, found = [.token c] ∧ c.kind = .comment ∧ c.line = t.cursor.line ∧
          c.endLine = t.cursor.line ∧ c.after = '\n' :: x ∧
            m.comment t.cursor.line = some c.text) := by
  obtain ⟨place, spaced, walk, rest, line⟩ := finds_blanks hr hw
  -- behind the blanks stands the comment, if the line has one
  cases hc : m.comment t.cursor.line with
  | none =>
    rw [hc] at rest
    exact ⟨[], _, walk, rest, line, rfl, rfl, outside, .inl ⟨rfl, rfl⟩⟩
  | some c =>
    obtain ⟨r, rfl, hline⟩ := m.isComment _ _ hc
    rw [hc] at rest
    obtain ⟨k, kind, text, hk, ends, after, hstep⟩ :=
      step_of_comment (s := { t with cursor := place, spaced := spaced }) rest hline
    dsimp only at hk ends hstep
    rw [outside] at hstep walk
    refine ⟨_, _, walk.trans (.one hstep), ?_, ?_, rfl, rfl, rfl, .inr ⟨k, rfl, kind, hk.trans line,
      ends.trans line, after, by rw [text]⟩⟩
    · show (place.advance (r.length + 1)).rest = _
      have drop : place.rest.drop (r.length + 1) = '\n' :: x := by
        rw [show place.rest = '#' :: (r ++ '\n' :: x) from rest, List.drop_succ_cons,
          List.drop_left]
      rw [Cursor.rest_advance, drop]
    · show (place.advance (r.length + 1)).line = _
      rw [← line]
      apply Cursor.line_advance_of_notMem
      rw [show place.rest = '#' :: (r ++ '\n' :: x) from rest, List.take_succ_cons, List.take_left,
        List.mem_cons, not_or]
      exact ⟨by decide, hline⟩

/-- The end of a line is read alike in both programs, whatever stands before it. -/
theorem follows_lineFeed {keep : Nat} (joint : Joint keep p) (seam : Seam y p q)
    (left : s.cursor.rest = '\n' :: (y ++ p)) (right : t.cursor.rest = '\n' :: (y ++ q))
    (line : t.cursor.line = s.cursor.line) (memory : t.unnamed.memory = s.unnamed.memory)
    (heredocs : t.heredocs = s.heredocs) (outside : s.suspended = [])
    (outside' : t.suspended = []) :
    s.step.Follows p q keep t.step := by
  have twin : Twin ('\n' :: y) p q
      { s.unnamed with cursor := { s.unnamed.cursor with atLineStart := false } }
      { t.unnamed with cursor := { t.unnamed.cursor with atLineStart := false } } := by
    refine ⟨⟨left, right, line, rfl, seam.imp_left (Text.Closed.append (t := ['\n']) (.inr rfl))⟩,
      rfl, memory, heredocs, ?_⟩
    show List.Forall₂ _ s.suspended t.suspended
    rw [outside, outside']
    exact .nil
  rw [step_of_lineFeed left, ← takeNewline_lineStart (s := s.unnamed) left false,
    step_of_lineFeed right, ← takeNewline_lineStart (s := t.unnamed) right false]
  exact follows_takeNewline joint twin

section Walk

variable (whole : s₀.Whole) (fits : Fits m s₀) (reach : Reaches s₀ s)

include whole fits reach

/-- The line feed behind a margin, where the heredocs of the line follow. -/
theorem along_step_of_lineFeed {w : Text}
    (left : s.cursor.rest = '\n' :: (y ++ p))
    (right : t.cursor.rest = w ++ ((m.comment s.cursor.line).getD [] ++ '\n' :: (y ++ q)))
    (padding : Blanks w) (stretch : m.Stretch (s.cursor.line + 1) y p q)
    (line : t.cursor.line = s.cursor.line) (memory : t.memory = s.memory)
    (heredocs : t.heredocs = s.heredocs) (outside : s.suspended = []) (outside' : t.suspended = [])
    (h : s.step = .next found u) :
    ∃ more v, Finds t more v ∧ Along m u v ∧ Weaves m found more := by
  rw [← line] at right
  obtain ⟨before, t', walk, rest, line', memory', heredocs', outside'', comment⟩ :=
    finds_margin right padding outside'
  -- both walks are at the line feed
  have last : ∀ c, ('\n' :: y).getLast? = some c → Text.isAsciiBlank c = false ∨ c = '\n' := by
    intro c hc
    cases hy : y with
    | nil =>
      rw [hy] at hc
      exact .inr (Option.some.inj hc).symm
    | cons d y' =>
      refine stretch.visible c ?_
      rw [hy] at hc ⊢
      rw [← hc, List.getLast?_cons_cons]
  have finished : y.Closed → Text.Closed ('\n' :: y) :=
    Text.Closed.append (t := ['\n']) (.inr rfl)
  have count : Text.lineFeeds ('\n' :: y) = Text.lineFeeds y + 1 := List.count_cons_self
  have next : s.cursor.line + Text.lineFeeds ('\n' :: y) =
      s.cursor.line + 1 + Text.lineFeeds y := by
    omega
  have memory'' : t'.unnamed.memory = s.unnamed.memory := by
    refine memory'.trans ?_
    show { t.memory with namesMethod := false } = { s.memory with namesMethod := false }
    rw [memory]
  have split : m.Split (s.cursor.line + Text.lineFeeds ('\n' :: y)) p q := by
    rw [next]
    exact stretch.split
  obtain ⟨keep, joint, kept⟩ :=
    exists_kept whole fits reach h (y := '\n' :: y) left (List.cons_ne_nil _ _) split
  obtain ⟨z, more, v, hstep, twins, twin'⟩ := follows_lineFeed joint stretch.seam left rest
    (line'.trans line) memory'' (heredocs'.trans heredocs) outside outside'' found u h kept
  -- behind the line feed the next line starts with the same text
  have below : s.cursor.line + 0 < u.cursor.line := by
    refine whole.line_lt reach h (y := []) left ?_
    have lt := rest_lt_of_step h
    rw [left] at lt
    exact Nat.le_of_lt_succ lt
  have stretch' : m.Stretch u.cursor.line z p q := by
    refine stretch_of_next whole reach h (y := '\n' :: y) left twin'.cursor.left ?_ last
      (fun hp => finished (stretch.closed hp)) split
    rw [next]
    exact fun i h1 h2 => stretch.plain i (Nat.le_trans below h1) h2
  have pairs : List.Forall₂ (Pair m) found more :=
    twins.imp fun _ _ twin => ⟨_, p, q, stretch.split, twin⟩
  have along := along_of_twin whole fits reach h twin' stretch'
  refine ⟨before ++ more, v, walk.trans (.one hstep), along, ?_⟩
  rw [step_of_lineFeed left] at h
  obtain ⟨k, kind, hk, only⟩ := newline_of_takeNewline h
  have only : tokensOf found = [k] := by
    rw [only, if_pos]
    show s.suspended.isEmpty = true
    rw [outside]
    rfl
  have hk : k.line = t.cursor.line := hk.trans line.symm
  -- the first walk finds the end of the line, the second the comment before it as well
  rcases comment with ⟨none, rfl⟩ | ⟨c, rfl, remark, hc, ends, after, text⟩
  · refine .plain pairs fun l hl _ => ?_
    rw [only, List.mem_singleton] at hl
    rw [hl, hk]
    exact none
  · refine .commented pairs only kind remark ?_ (hc.trans hk.symm) (ends.trans hk.symm) ?_
    · rw [hk]
      exact text
    · have lines := stretch.split.lineFeeds_eq
      have last := stretch.split.last_eq
      rw [hc, line, after, Text.lineFeeds_lineFeed, Text.lineFeeds_append]
      omega

/-- While the code ahead is clear, the second walk finds what the first finds. -/
theorem along_step (along : Along m s t) (h : s.step = .next found u) :
    (∃ more v, Finds t more v ∧ Along m u v ∧ Weaves m found more) ∨
      ∃ y p q, s.Twin y p q t ∧ m.Stretch s.cursor.line y p q ∧ y ≠ [] ∧ '\n' ∉ y ∧
        ¬ s.Clear y p q := by
  cases along with
  | @code y p q twin stretch ahead =>
    have hy : y ≠ [] := by
      intro hy
      have lt := rest_lt_of_step h
      rw [twin.cursor.left, hy, ahead hy] at lt
      cases lt
    by_cases clear : '\n' ∉ y → s.Clear y p q
    · exact .inl (along_step_of_code whole fits reach twin stretch hy clear h)
    · obtain ⟨line, hinge⟩ := Classical.not_imp.1 clear
      exact .inr ⟨y, p, q, twin, stretch, hy, line, hinge⟩
  | @margin v w y p q differs left right blanks padding stretch line memory heredocs outside
    outside' =>
    left
    -- in the margin the first walk passes its blanks, while the second waits for the line feed
    cases v with
    | nil =>
      exact along_step_of_lineFeed whole fits reach left right padding stretch line memory heredocs
        outside outside' h
    | cons c v =>
      have hc := blanks c List.mem_cons_self
      rw [step_of_blank left hc] at h
      cases h
      have place : (s.cursor.advance 1).line = s.cursor.line := by
        apply Cursor.line_advance_of_notMem
        rw [left]
        show '\n' ∉ [c]
        rw [List.mem_singleton]
        exact Ne.symm hc.2
      refine ⟨[], t, .here, ?_, .plain .nil nofun⟩
      refine .margin (u := v) (w := w) (y := y) (p := p) (q := q) ?_ ?_ ?_ ?_ padding ?_ ?_ memory
        heredocs outside outside'
      · show m.differs (s.cursor.advance 1).line
        rw [place]
        exact differs
      · show (s.cursor.advance 1).rest = _
        rw [Cursor.rest_advance, left]
        rfl
      · show t.cursor.rest = w ++ ((m.comment (s.cursor.advance 1).line).getD [] ++ _)
        rw [place]
        exact right
      · exact fun c hc => blanks c (List.mem_cons_of_mem _ hc)
      · show m.Stretch ((s.cursor.advance 1).line + 1) y p q
        rw [place]
        exact stretch
      · exact line.trans place.symm

end Walk

end Tokenizer

end Marginalia.Source
