import Marginalia.Proofs.Source.Dashes
import Marginalia.Proofs.Source.Enclosed
import Marginalia.Proofs.Source.Hinges
import Marginalia.Proofs.Source.Row
import Marginalia.Proofs.Source.Seals

/-!
# Programs without some of their comments

What is left of a program when comments are taken out of it: behind code a comment goes with the
blanks before it, and a line with nothing else on it goes altogether (`Stripped`). The walk over
what is left finds no comment but those that are left (`retains_of_twin`). For this, no hinge and no
backslash may end the code before a comment that goes, and a line that goes has to begin where the
end of a line has been read.
-/

namespace Marginalia.Source

/-! ## What is left -/

/-- A text of spaces and tabs. -/
def Spaces (u : Text) : Prop := ∀ c ∈ u, c = ' ' ∨ c = '\t'

instance (u : Text) : Decidable (Spaces u) := List.decidableBAll (fun c => c = ' ' ∨ c = '\t') u

namespace Spaces

variable {u : Text}

/-- Spaces are blanks. -/
theorem blanks (h : Spaces u) : Blanks u := fun c hc => by
  rcases h c hc with rfl | rfl
  · decide
  · decide

/-- Spaces are a stop. -/
theorem stops (h : Spaces u) (some : u ≠ []) (a : Text) : Stops (u ++ a) := by
  obtain ⟨c, u, rfl⟩ := List.exists_cons_of_ne_nil some
  exact stops_cons (h.blanks c List.mem_cons_self).1 _

/-- A word ends before spaces. -/
theorem wordEnds (h : Spaces u) (some : u ≠ []) (a : Text) : wordEnds (u ++ a) := by
  obtain ⟨c, u, rfl⟩ := List.exists_cons_of_ne_nil some
  rcases h c List.mem_cons_self with rfl | rfl <;> rfl

end Spaces

/-- Places in a program, each of them given by what follows it. -/
structure Places where
  /-- Comments that go start there. -/
  comments : Text → Prop
  /-- The code before such a comment ends there. -/
  ends : Text → Prop
  /-- Lines that go start there. -/
  lines : Text → Prop

mutual

/-- What follows some text in a program, and what follows it in what is left of the program. -/
inductive Stripped (l : Places) : Text → Text → Prop where
  /-- Nothing is left. -/
  | ended {p : Text} (gone : p ≠ [] → l.lines p) : Stripped l p []
  /-- The comment goes from the last line, which is not finished. -/
  | last {w r u : Text} (ends : l.ends (w ++ '#' :: r)) (comment : l.comments ('#' :: r))
    (spaces : Spaces w)
      (apart : w ≠ []) (line : '\n' ∉ r) (returns : ∀ c ∈ u, c = '\r') :
        Stripped l (w ++ '#' :: r) u
  /-- The comment goes from behind code. -/
  | cut {w r u y p q : Text} (ends : l.ends (w ++ '#' :: (r ++ '\n' :: (y ++ p))))
      (comment : l.comments ('#' :: (r ++ '\n' :: (y ++ p)))) (spaces : Spaces w) (apart : w ≠ [])
      (line : '\n' ∉ r) (returns : ∀ c ∈ u, c = '\r') (common : Common l y p q) :
      Stripped l (w ++ '#' :: (r ++ '\n' :: (y ++ p))) (u ++ '\n' :: (y ++ q))
  /-- The line goes. -/
  | gone {w r y p q : Text} (gone : l.lines (w ++ '#' :: (r ++ '\n' :: (y ++ p))))
      (comment : l.comments ('#' :: (r ++ '\n' :: (y ++ p)))) (spaces : Spaces w) (line : '\n' ∉ r)
      (common : Common l y p q) : Stripped l (w ++ '#' :: (r ++ '\n' :: (y ++ p))) (y ++ q)

/-- A text that a program and what is left of it share, and what follows it in the one and in the
other. -/
inductive Common (l : Places) : Text → Text → Text → Prop where
  | intro {y p q : Text} (seam : Seam y p q) (starts : l.lines p → y.Closed)
      (visible : l.ends p → ∀ c, y.getLast? = some c → Text.isAsciiBlank c = false)
      (plain : ∀ x z, y = x ++ z → z ≠ [] → ¬ l.comments (z ++ p)) (stripped : Stripped l p q) :
      Common l y p q

end

variable {l : Places} {y z p q : Text}

/-- What is common to two programs may be read on. -/
theorem Common.of_suffix (h : Common l y p q) (hz : z <:+ y) : Common l z p q := by
  obtain ⟨x, rfl⟩ := hz
  obtain ⟨seam, starts, visible, plain, stripped⟩ := h
  refine ⟨seam.of_suffix (List.suffix_append x z), fun gone =>
    (starts gone).of_suffix (List.suffix_append x z), fun ends c hc =>
    visible ends c ?_, fun x' z' h => plain (x ++ x') z' ?_, stripped⟩
  · rw [List.getLast?_append, hc]
    rfl
  · rw [h, List.append_assoc]

/-- Returns before a line feed are the end of a line. -/
theorem lineStops_of_returns {u a : Text} (h : ∀ c ∈ u, c = '\r') : LineStops (u ++ '\n' :: a) := by
  cases u with
  | nil => exact ⟨'\n', a, rfl, .inl rfl⟩
  | cons c u => exact ⟨c, _, rfl, .inr (h c List.mem_cons_self)⟩

/-- Returns are blanks. -/
theorem blanks_of_returns {u : Text} (h : ∀ c ∈ u, c = '\r') : Blanks u := fun c hc => by
  rw [h c hc]
  decide

/-- A word ends before the end of a line. -/
theorem LineStops.wordEnds (h : LineStops p) : wordEnds p := by
  obtain ⟨d, a, rfl, rfl | rfl⟩ := h <;> rfl

theorem Stripped.eq_nil (h : Stripped l p q) (none : p = []) : q = [] := by
  cases h with
  | ended => rfl
  | last | cut | gone =>
    exact absurd none (List.append_ne_nil_of_right_ne_nil _ (List.cons_ne_nil _ _))

/-- What follows is nothing, a line that goes, or the blanks before a comment that goes from behind
code. -/
theorem Stripped.cases_place (h : Stripped l p q) : p = [] ∨ p ≠ [] ∧ l.lines p ∨
    ∃ w a, p = w ++ '#' :: a ∧ Spaces w ∧ w ≠ [] ∧ l.comments ('#' :: a) ∧ l.ends p ∧
      (q = [] ∨ LineStops q) := by
  cases h with
  | ended gone =>
    by_cases hp : p = []
    · exact .inl hp
    · exact .inr (.inl ⟨hp, gone hp⟩)
  | @last w r u ends comment spaces apart line returns =>
    refine .inr (.inr ⟨w, r, rfl, spaces, apart, comment, ends, ?_⟩)
    cases q with
    | nil => exact .inl rfl
    | cons c u => exact .inr ⟨c, u, rfl, .inr (returns c List.mem_cons_self)⟩
  | @cut w _ _ _ _ _ ends comment spaces apart _ returns =>
    exact .inr (.inr ⟨w, _, rfl, spaces, apart, comment, ends, .inr (lineStops_of_returns returns)⟩)
  | @gone w _ _ _ _ gone =>
    exact .inr (.inl ⟨List.append_ne_nil_of_right_ne_nil w (List.cons_ne_nil _ _), gone⟩)

namespace Tokenizer

variable {s₀ s t u v : Tokenizer} {found : List Finding} {P : Text → Prop}

/-! ## Places of a walk -/

/-- At the start of a line, where nothing precedes or the end of a line has been read. -/
structure Fresh (s : Tokenizer) : Prop where
  memory : ∀ k : Token, k.kind = .newline → s.memory.note k = s.memory
  unnamed : s.memory.namesMethod = false
  spaced : s.spaced = false
  heredocs : s.heredocs = []
  suspended : s.suspended = []
  lineStart : s.cursor.atLineStart

/-- At the start of a line no name of a method is waited for. -/
theorem Fresh.unnamed_eq (h : s.Fresh) : s.unnamed = s := by
  have memory : { s.memory with namesMethod := false } = s.memory := by rw [← h.unnamed]
  show { s with memory := { s.memory with namesMethod := false }, spaced := false } = s
  rw [memory, ← h.spaced]

/-- At the start no token has been found. -/
theorem fresh_ofSource (source : Text) : (ofSource source).Fresh where
  memory k newline := by
    obtain ⟨_, _, _, _, _, _, _⟩ := k
    cases newline
    rfl
  unnamed := rfl
  spaced := rfl
  heredocs := rfl
  suspended := rfl
  lineStart := rfl

/-- A second end of a line adds nothing to what is remembered of the first. -/
theorem note_note_newline {j k : Token} (hj : j.kind = .newline) (hk : k.kind = .newline)
    (m : Memory) :
    (m.note k).note j = m.note k := by
  obtain ⟨_, _, _, _, _, _, _⟩ := j
  obtain ⟨_, _, _, _, _, _, _⟩ := k
  cases hj
  cases hk
  obtain ⟨_, _, _, names, _, _, _, _, opens, params, header⟩ := m
  rcases header with none | outside | depth
  all_goals cases names <;> cases opens <;> cases params <;> rfl

/-- Behind the end of a line the next line is at its start. -/
theorem fresh_of_next {k : Token} (h : s.step = .next found u) (hk : k ∈ tokensOf found)
    (newline : k.kind = .newline) (start : u.cursor.atLineStart) : u.Fresh := by
  obtain ⟨r, hr⟩ := List.head?_eq_some_iff.1 (line_of_newline h k hk newline).1
  rw [step_of_lineFeed hr] at h
  obtain ⟨j, -, -, only⟩ := newline_of_takeNewline h
  have outside : s.suspended = [] := by
    rw [only] at hk
    split at hk
    · next outside => exact List.isEmpty_iff.1 outside
    · cases hk
  obtain ⟨_, _, _, _, -, -, -, rfl⟩ := exists_of_takeNewline h
  exact ⟨fun j hj => note_note_newline hj rfl _, Memory.namesMethod_note _ _, rfl, rfl,
    outside, start⟩

/-- The walk comes to where a token ends that is the end of a line. -/
theorem exists_fresh {source : Text} (placed : s.Placed source) {k : Token} (hk : k ∈ s.run.tokens)
    (newline : k.kind = .newline) (start : AtLineStart source k.stop) :
    ∃ t, Reaches s t ∧ t.cursor.rest = source.drop k.stop ∧ t.Fresh := by
  induction s using walk_induction with
  | stop s found ending h =>
    rw [tokens_run_of_stop h] at hk
    rw [eof_of_stop h k hk] at newline
    cases newline
  | next s found u h ih =>
    have sound := sound_step placed
    rw [h] at sound
    rw [tokens_run_of_next h, List.mem_append] at hk
    rcases hk with hk | hk
    · obtain ⟨-, -, ⟨j, only, -, stop, -⟩ | ⟨none, -⟩⟩ := next_cases h
      · rw [only, List.mem_singleton] at hk
        rw [hk, stop] at start ⊢
        exact ⟨u, .step .here h, sound.1.cursor.rest,
          fresh_of_next h (only ▸ List.mem_singleton_self j) (hk ▸ newline)
            (sound.1.cursor.lineStart.2 start)⟩
      · rw [none] at hk
        cases hk
    · obtain ⟨t, reach, behind⟩ := ih sound.1 hk
      exact ⟨t, Reaches.trans (.step .here h) reach, behind⟩

/-- The walk comes to the places with nothing open, and no comment but those of the places is one
that `P` rules out. -/
structure Passes (l : Places) (P : Text → Prop) (s : Tokenizer) : Prop where
  complete : s.run.ending = .complete
  outside : ∀ a, l.comments a → ∃ t, Reaches s t ∧ t.cursor.rest = a ∧ t.suspended = []
  fresh : ∀ a, l.lines a → ∃ t, Reaches s t ∧ t.cursor.rest = a ∧ t.Fresh
  steady : ∀ t x a, Reaches s t → t.cursor.rest = x ++ a → l.ends a → x ≠ [] → '\n' ∉ x →
    Lexeme.hinges t.memory x = false ∧ x ≠ ['\\']
  others : ∀ t u found k, Reaches s t → t.step = .next found u → k ∈ tokensOf found →
    k.kind = .comment →
    ¬ l.comments t.cursor.rest → P k.text

/-- A state of the walk with less before the end is reached by the next step, or later. -/
theorem next_of_rest {w : Text} (hs : Reaches s₀ s) (hv : Reaches s₀ v)
    (hr : s.cursor.rest = y ++ (w ++ v.cursor.rest)) (hy : y ≠ []) :
    ∃ found u, s.step = .next found u ∧ Reaches u v := by
  have lt : v.cursor.rest.length < s.cursor.rest.length := by
    have pos := List.length_pos_iff.2 hy
    rw [hr, List.length_append, List.length_append]
    omega
  rcases hs.linear hv with after | before
  · rcases after.head with rfl | next
    · exact absurd lt (Nat.lt_irrefl _)
    · exact next
  · exact absurd before.leads.suffix.length_le (Nat.not_le_of_lt lt)

/-- No step goes over a state of the walk. -/
theorem rest_le_of_next {w : Text} (hs : Reaches s₀ s) (hv : Reaches s₀ v)
    (hr : s.cursor.rest = y ++ (w ++ v.cursor.rest)) (hy : y ≠ []) (h : s.step = .next found u) :
    v.cursor.rest.length ≤ u.cursor.rest.length := by
  obtain ⟨_, u', h', reach⟩ := next_of_rest hs hv hr hy
  rw [h] at h'
  cases h'
  exact reach.leads.suffix.length_le

/-- Without a closing brace nothing that is open is closed. -/
theorem open_of_reaches {x : Text} (h : Reaches s v) (hs : s.suspended ≠ [])
    (hr : s.cursor.rest = x ++ v.cursor.rest) (hx : '}' ∉ x) : v.suspended ≠ [] := by
  induction h generalizing x with
  | here => exact hs
  | @step t u found before hstep ih =>
    obtain ⟨b, hb⟩ := before.leads.suffix
    obtain ⟨c, hc⟩ := (next_cases hstep).2.1.suffix
    rw [← hb, ← hc, ← List.append_assoc, List.append_cancel_right_eq] at hr
    rw [← hr, List.mem_append, not_or] at hx
    have opens := open_step (ih hb.symm hx.1) fun brace => ?_
    · rw [hstep] at opens
      exact opens
    · have lt := rest_lt_of_step hstep
      cases c with
      | nil =>
        rw [← hc] at lt
        exact absurd lt (Nat.lt_irrefl _)
      | cons d c =>
        rw [← hc] at brace
        rw [Option.some.inj brace] at hx
        exact hx.2 List.mem_cons_self

/-- A walk is at a place once. -/
theorem eq_of_rest (hs : Reaches s₀ s) (hv : Reaches s₀ v) (same : v.cursor.rest = s.cursor.rest) :
    v = s := by
  have once : ∀ {a b : Tokenizer}, Reaches a b → b.cursor.rest = a.cursor.rest → b = a := by
    intro a b reach same
    rcases reach.head with h | ⟨_, w, hstep, behind⟩
    · exact h
    · have lt := rest_lt_of_step hstep
      have le := behind.leads.suffix.length_le
      rw [same] at le
      omega
  rcases hs.linear hv with after | before
  · exact once after same
  · exact (once before same.symm).symm

/-! ## Steps over what is shared -/

section Walk

variable (passes : s₀.Passes l P) (reach : Reaches s₀ s)

include passes reach

/-- No step goes over a place. -/
theorem exists_joint (stripped : Stripped l p q) (hr : s.cursor.rest = y ++ p) (hy : y ≠ [])
    (h : s.step = .next found u) : ∃ keep, Joint keep p ∧ keep ≤ u.cursor.rest.length := by
  have kept : ∀ w a v, p = w ++ a → a ≠ [] → Blanks w → Reaches s₀ v → v.cursor.rest = a →
      ∃ keep, Joint keep p ∧ keep ≤ u.cursor.rest.length := by
    rintro w a v rfl some blanks hv rfl
    exact ⟨v.cursor.rest.length,
      ⟨fun none => absurd (List.eq_nil_of_length_eq_zero none) some, w, _, rfl, rfl, blanks⟩,
      rest_le_of_next reach hv hr hy h⟩
  obtain rfl | ⟨some, gone⟩ | ⟨w, a, hp, spaces, -, comment, -⟩ := stripped.cases_place
  · exact ⟨0, joint_length [], Nat.zero_le _⟩
  · obtain ⟨v, hv, rest, -⟩ := passes.fresh p gone
    exact kept [] p v rfl some nofun hv rest
  · obtain ⟨v, hv, rest, -⟩ := passes.outside _ comment
    exact kept w _ v hp (List.cons_ne_nil _ _) spaces.blanks hv rest

/-- An embedded document ends before a place. -/
theorem document_lt_of_common (common : Common l y p q) (hr : s.cursor.rest = y ++ p) (hy : y ≠ [])
    (hp : p ≠ []) {n : Nat} (hn : s.document? = some n) : n < y.length := by
  obtain ⟨-, starts, -, -, stripped⟩ := common
  have hstep := step_of_document hn
  unfold document? at hn
  split at hn
  · obtain ⟨⟨length, lines⟩, hdoc, rfl⟩ := Option.map_eq_some_iff.1 hn
    obtain ⟨x, a, split, rfl, ended, last⟩ := exists_embeddedDocument hdoc
    refine Nat.lt_of_not_le fun le => ?_
    -- the document would reach over the end of what is shared
    obtain ⟨m, rfl⟩ := List.prefix_of_prefix_length_le (List.prefix_append y p)
      (hr ▸ split ▸ List.prefix_append x a) le
    rw [hr, List.append_assoc, List.append_cancel_left_eq] at split
    have behind : (s.cursor.advance (y ++ m).length).rest = a := by
      rw [Cursor.rest_advance, hr, split, ← List.append_assoc, List.drop_left]
    obtain rfl | ⟨-, gone⟩ | ⟨w, b, rfl, spaces, -, comment, -⟩ := stripped.cases_place
    · exact hp rfl
    · obtain ⟨v, hv, rest, -⟩ := passes.fresh p gone
      have kept := rest_le_of_next (w := []) reach hv (by rw [hr, rest]; rfl) hy hstep
      rw [behind, rest, split, List.length_append] at kept
      obtain rfl : m = [] := List.eq_nil_of_length_eq_zero (by omega)
      obtain ⟨c, hc, visible⟩ := last
      rw [List.append_nil, ((starts gone).resolve_left hy)] at hc
      exact visible (Option.some.inj hc).symm
    · obtain ⟨v, hv, rest, -⟩ := passes.outside _ comment
      have kept := rest_le_of_next reach hv (by rw [hr, rest]) hy hstep
      rw [behind, rest] at kept
      -- what follows the document would start with one of the blanks, or with the hash
      have lengths := congrArg List.length split
      rw [List.length_append, List.length_append] at lengths
      obtain ⟨w', rfl⟩ := List.prefix_of_prefix_length_le (List.prefix_append m a)
        (split ▸ List.prefix_append w ('#' :: b)) (by omega)
      rw [List.append_assoc, List.append_cancel_left_eq] at split
      rcases ended with rfl | ⟨r, rfl⟩
      · exact absurd split (List.append_ne_nil_of_right_ne_nil w' (List.cons_ne_nil _ _))
      · cases w' with
        | nil => exact absurd (List.cons.inj split).1 (by decide)
        | cons c w' =>
          refine (spaces.blanks c (List.mem_append_right m List.mem_cons_self)).2 ?_
          exact (List.cons.inj split).1
  · cases hn

/-- No comment starts in what is shared of a line and reaches over its end. -/
theorem head?_ne_hash {w a : Text} (hr : s.cursor.rest = y ++ (w ++ '#' :: a)) (hy : y ≠ [])
    (line : '\n' ∉ y) (spaces : Spaces w) (comment : l.comments ('#' :: a))
    (h : s.step = .next found u) :
    y.head? ≠ some '#' := by
  intro hash
  obtain ⟨x, rfl⟩ := List.head?_eq_some_iff.1 hash
  obtain ⟨v, hv, rest, -⟩ := passes.outside _ comment
  rw [List.mem_cons, not_or] at line
  have kept := rest_le_of_next reach hv (by rw [hr, rest]) hy h
  have step := (step_of_hash hr).1
  rw [h] at step
  obtain ⟨-, rfl⟩ := Step.next.inj step
  have pass : ∀ c ∈ x ++ w, (c != '\n') = true := by
    refine bne_lineFeed ?_
    rw [List.mem_append, not_or]
    exact ⟨line.2, spaces.blanks.notMem (.inr rfl)⟩
  have reaches : x.length + w.length < ((x ++ (w ++ '#' :: a)).takeWhile (· != '\n')).length := by
    rw [← List.append_assoc, List.takeWhile_append_of_pos pass, List.takeWhile_cons,
      if_pos (by decide), List.length_append, List.length_append, List.length_cons]
    omega
  change v.cursor.rest.length ≤ (s.cursor.advance _).rest.length at kept
  rw [Cursor.rest_advance, List.length_drop, hr, rest] at kept
  simp only [List.length_append, List.length_cons] at kept
  simp only [List.append_eq] at kept
  omega

/-- What is shared is steady, unless what is left of the program ends there. -/
theorem steady_of_common (common : Common l y p q) (hr : s.cursor.rest = y ++ p) (hy : y ≠ [])
    (h : s.step = .next found u)
    (unmarked : s.cursor.atLineStart → wordAhead "__END__" lineEnds (y ++ q) = false) :
    Steady y p q s := by
  have document := fun hp n => document_lt_of_common passes reach common hr hy hp (n := n)
  obtain ⟨seam, starts, visible, -, stripped⟩ := common
  have behind : '\n' ∉ y → p ≠ [] → ∃ w a, p = w ++ '#' :: a ∧ Spaces w ∧ w ≠ [] ∧
    l.comments ('#' :: a) ∧
      l.ends p ∧ (q = [] ∨ LineStops q) := by
    intro line some
    obtain none | ⟨-, gone⟩ | behind := stripped.cases_place
    · exact absurd none some
    · exact absurd ((starts gone).mem_of_ne_nil hy) line
    · exact behind
  refine ⟨fun line some => ?_, fun line some => ?_, fun line some => ?_, fun line some start mark =>
    ?_, fun line some w hw join => ?_, document⟩
  · obtain ⟨w, a, hp, -, -, -, ends, -⟩ := behind line some
    exact (passes.steady s y p reach hr ends hy line).1
  · obtain ⟨w, a, rfl, spaces, -, comment, -⟩ := behind line some
    exact head?_ne_hash passes reach hr hy line spaces comment h
  · obtain ⟨w, a, rfl, spaces, apart, -, -, ended⟩ := behind line some
    obtain ⟨left, right⟩ := seam.stops hy line
    refine begins_append left right ((?_ : wordEnds q = true).trans (spaces.wordEnds apart _).symm)
    rcases ended with rfl | ended
    · rfl
    · exact ended.wordEnds
  · rw [unmarked start] at mark
    cases mark
  · obtain ⟨-, a, -, -, -, -, ends, -⟩ := behind line some
    -- the backslash would stand alone before the end of the line
    have start := List.isPrefixOf_iff_prefix.1 join
    rcases List.prefix_or_prefix_of_prefix start (List.prefix_append y q) with short | long
    · exact absurd (short.subset (List.mem_append_right w List.mem_cons_self)) line
    · have front : y <+: w := by
        rcases List.prefix_concat_iff.1 long with rfl | front
        · exact absurd (List.mem_append_right w List.mem_cons_self) line
        · exact front
      have short : ¬ y <+: ['\\'] := fun front => by
        rcases List.prefix_concat_iff.1 (show y <+: [] ++ ['\\'] from front) with alone | none
        · exact (passes.steady s y p reach hr ends hy line).2 alone
        · exact hy (List.prefix_nil.1 none)
      rcases List.mem_cons.1 hw with rfl | hw
      · exact absurd front short
      · rw [List.mem_singleton.1 hw] at front
        rcases List.prefix_concat_iff.1 (show y <+: ['\\'] ++ ['\r'] from front) with rfl | front
        · exact absurd (visible ends '\r' rfl) (by decide)
        · exact absurd front short

end Walk

/-! ## Comments of a walk -/

/-- The walk comes to the end of the program, and all its comments are ones that `P` allows. -/
structure Retains (P : Text → Prop) (s : Tokenizer) : Prop where
  complete : s.run.ending = .complete
  comments : ∀ k ∈ s.run.tokens, k.kind = .comment → P k.text

/-- A walk that ends retains all comments. -/
theorem retains_of_stop (h : s.step = .stop found .complete) : Retains P s where
  complete := by rw [run_of_stop h]
  comments k hk comment := by
    rw [tokens_run_of_stop h, (stop_cases h).1, List.mem_singleton] at hk
    rw [hk] at comment
    cases comment

/-- A walk retains what its rest does, if it finds no other comments before. -/
theorem Retains.of_finds (h : Retains P t) (walk : Finds s found t)
    (allowed : ∀ k ∈ tokensOf found, k.kind = .comment → P k.text) : Retains P s where
  complete := by
    rw [walk.run_eq]
    exact h.complete
  comments k hk := by
    rw [walk.run_eq, Tokenization.tokens_eq, tokensOf_append, List.mem_append] at hk
    rcases hk with hk | hk
    · exact allowed k hk
    · exact h.comments k (by rw [Tokenization.tokens_eq]; exact hk)

/-- The numbers of the lines play no role. -/
theorem Retains.of_down {n : Nat} (h : Retains P (s.down n)) : Retains P s where
  complete := by
    have complete := h.complete
    rw [run_down] at complete
    generalize s.run.ending = ending at complete
    cases ending with
    | complete => rfl
    | refused | broken => cases complete
  comments k hk comment := by
    refine h.comments (k.down n) ?_ comment
    rw [run_down, Tokenization.tokens_eq, tokensOf_down]
    rw [Tokenization.tokens_eq] at hk
    exact List.mem_map_of_mem hk

/-- At the end of a program nothing is left but blanks. -/
theorem retains_of_end (blanks : Blanks s.cursor.rest) (heredocs : s.heredocs = [])
    (outside : s.suspended = []) :
    Retains P s := by
  obtain ⟨cursor, spaced, walk, rest, -⟩ := finds_blanks (r := []) (List.append_nil _).symm blanks
  let u : Tokenizer := { s with cursor := cursor, spaced := spaced }
  have ended : u.step = .stop [.token (u.cut .eof [] cursor)] .complete :=
    (step_of_end (s := u) rest heredocs).trans (finish_of_outside (s := u) outside)
  exact (retains_of_stop ended).of_finds walk nofun

/-- Where a program ends, nothing is open. -/
theorem closed_of_end (complete : s.run.ending = .complete) (hr : s.cursor.rest = []) :
    s.heredocs = [] ∧ s.suspended = [] := by
  cases hs : s.step with
  | next found u =>
    have lt := rest_lt_of_step hs
    rw [hr] at lt
    cases lt
  | stop found ending =>
    rw [run_of_stop hs] at complete
    dsimp only at complete
    subst complete
    exact ⟨heredocs_of_end hr hs, not_suspended_of_stop hs⟩

/-! ## The walk over what is left -/

/-- States of the same memory have it also where no method is named. -/
theorem unnamed_memory (same : t.memory = s.memory) : t.unnamed.memory = s.unnamed.memory := by
  unfold unnamed
  rw [same]

/-- A step takes the character ahead of it. -/
theorem suffix_of_next {c : Char} (h : s.step = .next found u)
    (left : s.cursor.rest = c :: (y ++ p)) (left' : u.cursor.rest = z ++ p) : z <:+ y := by
  obtain ⟨x, hx⟩ := (next_cases h).2.1.suffix
  have lt := rest_lt_of_step h
  rw [left, left'] at hx lt
  cases x with
  | nil =>
    rw [← hx] at lt
    exact absurd lt (Nat.lt_irrefl _)
  | cons d x =>
    rw [List.cons_append, ← List.append_assoc] at hx
    exact ⟨x, List.append_cancel_right (List.cons.inj hx).2⟩

/-- A token of the one walk is a token of the other. -/
theorem exists_twin_of_mem {more : List Finding}
    (twins : List.Forall₂ (Finding.Twin p q) found more) {k : Token} (hk : k ∈ tokensOf more) :
    ∃ j ∈ tokensOf found, j.Twin p q k := by
  induction twins with
  | nil => cases hk
  | @cons f g _ _ twin _ ih =>
    cases twin with
    | token twin =>
      rw [tokensOf_token, List.mem_cons] at hk
      rcases hk with rfl | hk
      · exact ⟨_, by rw [tokensOf_token]; exact List.mem_cons_self, twin⟩
      · obtain ⟨j, hj, same⟩ := ih hk
        exact ⟨j, by rw [tokensOf_token]; exact List.mem_cons_of_mem _ hj, same⟩
    | same silent =>
      rw [tokensOf_cons_of_none silent] at hk ⊢
      exact ih hk

section Walk

variable (passes : s₀.Passes l P)

include passes

/-- From the blanks before a comment that goes, the walk comes to the end of the line. -/
theorem finds_comment (reach : Reaches s₀ s) {w r a : Text}
    (hr : s.cursor.rest = w ++ '#' :: (r ++ a)) (spaces : Spaces w)
    (comment : l.comments ('#' :: (r ++ a))) (line : '\n' ∉ r)
    (ended : a = [] ∨ ∃ b, a = '\n' :: b) : s.suspended = [] ∧ ∃ found cursor,
      Finds s found { s.unnamed with cursor := cursor } ∧ cursor.rest = a ∧
        cursor.line = s.cursor.line := by
  obtain ⟨cursor, spaced, walk, rest, place⟩ := finds_blanks hr spaces.blanks
  obtain ⟨v, hv, restv, outside⟩ := passes.outside _ comment
  have same := eq_of_rest (reach.trans walk.reaches) hv (restv.trans rest.symm)
  have outside : s.suspended = [] := by
    rw [same] at outside
    exact outside
  obtain ⟨step, below⟩ := step_of_hash (s := { s with cursor := cursor, spaced := spaced }) rest
  have whole : (r ++ a).takeWhile (· != '\n') = r := by
    rw [List.takeWhile_append_of_pos (bne_lineFeed line)]
    rcases ended with rfl | ⟨b, rfl⟩
    · exact List.append_nil r
    · exact List.append_nil r
  refine ⟨outside, _, _, walk.trans (.one step), ?_, below.trans place⟩
  rw [Cursor.rest_advance, whole]
  show cursor.rest.drop (r.length + 1) = a
  rw [rest, List.drop_succ_cons, List.drop_left]

/-- Over a line that goes, the walk changes its place and nothing else. -/
theorem finds_line (reach : Reaches s₀ s) (fresh : s.Fresh) {w r a : Text}
    (hr : s.cursor.rest = w ++ '#' :: (r ++ '\n' :: a)) (spaces : Spaces w)
    (comment : l.comments ('#' :: (r ++ '\n' :: a))) (line : '\n' ∉ r) :
    ∃ found cursor, Finds s found { s with cursor := cursor } ∧ cursor.rest = a ∧
      cursor.line = s.cursor.line + 1 ∧ cursor.atLineStart := by
  obtain ⟨outside, found, cursor, walk, rest, place⟩ :=
    finds_comment passes reach hr spaces comment line (.inr ⟨a, rfl⟩)
  rw [fresh.unnamed_eq] at walk
  let newline := { s with cursor := cursor }.cut .newline ['\n'] (cursor.advance 1)
  have hstep : { s with cursor := cursor }.step =
      .next [.token newline] { s with cursor := cursor.advance 1 } := by
    have unnamed := fresh.unnamed_eq
    have memory : s.unnamed.memory.note newline = s.memory := by
      rw [unnamed]
      exact fresh.memory _ rfl
    refine (step_of_line (s := { s with cursor := cursor }) rest fresh.heredocs outside).trans ?_
    show Step.next _ { s.unnamed
      with cursor := cursor.advance 1, memory := s.unnamed.memory.note newline } = _
    rw [memory, unnamed]
  have below : (cursor.advance 1).rest = a ∧ (cursor.advance 1).line = cursor.line + 1 ∧
      (cursor.advance 1).atLineStart := by
    unfold Cursor.advance
    rw [rest]
    exact ⟨rfl, rfl, rfl⟩
  exact ⟨_, _, walk.trans (.one hstep), below.1, below.2.1.trans (by rw [place]), below.2.2⟩

/-- The walk goes on at the end of a line. -/
theorem next_of_lineFeed (reach : Reaches s₀ s) {a : Text} (hr : s.cursor.rest = '\n' :: a) :
    ∃ found u, s.step = .next found u := by
  cases hstep : s.step with
  | next found u => exact ⟨found, u, rfl⟩
  | stop found ending =>
    have complete := ending_of_reaches reach passes.complete
    rw [run_of_stop hstep] at complete
    cases complete
    rcases (stop_cases hstep).2 with none | ⟨mark, -⟩
    · rw [hr] at none
      cases none
    · have unmarked := not_atEndMark hr (by decide)
      rw [mark] at unmarked
      cases unmarked

/-- The step from what is shared, where what is left goes on. -/
theorem exists_next (reach : Reaches s₀ s) (twin : s.Twin y p q t) (common : Common l y p q)
    (hy : y ≠ []) (unmarked : t.atEndMark = false) : ∃ found u, s.step = .next found u := by
  cases hstep : s.step with
  | next found u => exact ⟨found, u, rfl⟩
  | stop found ending =>
    exfalso
    have complete := ending_of_reaches reach passes.complete
    rw [run_of_stop hstep] at complete
    cases complete
    have left := twin.cursor.left
    obtain none | ⟨mark, -⟩ := (stop_cases hstep).2
    · rw [left] at none
      exact hy (List.append_eq_nil_iff.1 none).1
    -- both programs would have the mark of the end
    have same : wordAhead "__END__" lineEnds (y ++ q) = wordAhead "__END__" lineEnds (y ++ p) := by
      by_cases line : '\n' ∈ y
      · exact wordAhead_append lineEnds_cons (by decide) line p q
      · obtain ⟨seam, starts, -, -, stripped⟩ := common
        obtain none | ⟨-, gone⟩ | ⟨w, a, rfl, -, -, comment, -⟩ := stripped.cases_place
        · rw [seam.eq_of_nil hy line none]
        · exact absurd ((starts gone).mem_of_ne_nil hy) line
        · obtain ⟨v, hv, rest, -⟩ := passes.outside _ comment
          obtain ⟨_, _, next, -⟩ := next_of_rest reach hv (by rw [left, rest]) hy
          rw [hstep] at next
          cases next
    unfold atEndMark at mark unmarked
    rw [twin.cursor.lineStart, twin.cursor.right, same, ← left, mark] at unmarked
    cases unmarked

/-- Where what is left of a program ends by its mark, nothing is open. -/
theorem outside_of_mark (reach : Reaches s₀ s) (twin : s.Twin y p q t) (common : Common l y p q)
    (hy : y ≠ []) (mark : t.atEndMark) : t.suspended = [] := by
  have outside : s.suspended = [] := by
    by_cases here : s.atEndMark
    · -- the program ends there, too
      refine Classical.byContradiction fun opens => ?_
      obtain ⟨d, ds, hs⟩ := List.exists_cons_of_ne_nil opens
      have complete := ending_of_reaches reach passes.complete
      rw [run_of_stop ((step_eq_finish_of_atEndMark here).trans (by rw [finish, hs]; rfl))]
        at complete
      cases complete
    · unfold atEndMark at mark here
      rw [twin.cursor.lineStart, twin.cursor.right, Bool.and_eq_true] at mark
      rw [twin.cursor.left, mark.1, Bool.true_and] at here
      have differ : wordAhead "__END__" lineEnds (y ++ q) ≠ wordAhead "__END__" lineEnds (y ++ p) :=
        fun same => here (same ▸ mark.2)
      have line : '\n' ∉ y :=
        fun line => differ (wordAhead_append lineEnds_cons (by decide) line p q)
      obtain ⟨seam, starts, -, -, stripped⟩ := common
      obtain none | ⟨-, gone⟩ | ⟨w, a, rfl, spaces, -, comment, -⟩ := stripped.cases_place
      · exact absurd (by rw [seam.eq_of_nil hy line none]) differ
      · exact absurd ((starts gone).mem_of_ne_nil hy) line
      -- the mark is a name in the program, and the comment stands behind it
      obtain ⟨left, right⟩ := seam.stops hy line
      have name : y = "__END__".toList :=
        Classical.byContradiction fun other => here (mark_append left right other mark.2)
      obtain ⟨v, hv, rest, outside⟩ := passes.outside _ comment
      have hr : s.cursor.rest = y ++ (w ++ v.cursor.rest) := by rw [twin.cursor.left, rest]
      obtain ⟨found, u, hstep, reach'⟩ := next_of_rest reach hv hr hy
      refine Classical.byContradiction fun opens => ?_
      refine open_of_reaches (x := y ++ w) ((Reaches.step .here hstep).trans reach') opens ?_
        ?_ outside
      · rw [hr, List.append_assoc]
      · rw [List.mem_append, not_or, name]
        exact ⟨by decide, spaces.blanks.notMem (.inl (by decide))⟩
  exact twin.outside outside

/-! ## One step of both walks -/

/-- Both walks go on: that over the program comes to a later state, and that over what is left
retains what it retains from a twin of that state on. -/
def GoesOn (s₀ : Tokenizer) (l : Places) (P : Text → Prop) (s t : Tokenizer) : Prop := ∃ y p q u v,
  Reaches s₀ u ∧ u.cursor.rest.length < s.cursor.rest.length ∧ u.Twin y p q v ∧ Common l y p q ∧
    (Retains P v → Retains P t)

/-- Nothing is left. -/
theorem retains_of_ended (reach : Reaches s₀ s) (twin : s.Twin [] p [] t)
    (gone : p ≠ [] → l.lines p) :
    Retains P t := by
  have nothing : s.heredocs = [] ∧ s.suspended = [] := by
    by_cases hp : p = []
    · exact closed_of_end (ending_of_reaches reach passes.complete) (twin.cursor.left.trans hp)
    · obtain ⟨v, hv, rest, fresh⟩ := passes.fresh p (gone hp)
      rw [eq_of_rest reach hv (rest.trans twin.cursor.left.symm)] at fresh
      exact ⟨fresh.heredocs, fresh.suspended⟩
  refine retains_of_end ?_ (twin.heredocs.trans nothing.1) (twin.outside nothing.2)
  rw [twin.cursor.right]
  exact nofun

/-- Behind code a comment goes that ends with the program. -/
theorem retains_of_last (reach : Reaches s₀ s) {w r u : Text} (twin : s.Twin [] (w ++ '#' :: r) u t)
    (comment : l.comments ('#' :: r)) (spaces : Spaces w) (line : '\n' ∉ r)
    (returns : ∀ c ∈ u, c = '\r') :
    Retains P t := by
  have left : s.cursor.rest = w ++ '#' :: r := twin.cursor.left
  rw [← List.append_nil r] at left comment
  obtain ⟨outside, found, cursor, walk, rest, -⟩ :=
    finds_comment passes reach left spaces comment line (.inl rfl)
  have heredocs : s.heredocs = [] :=
    (closed_of_end (ending_of_reaches (reach.trans walk.reaches) passes.complete) rest).1
  refine retains_of_end ?_ (twin.heredocs.trans heredocs) (twin.outside outside)
  rw [twin.cursor.right]
  exact blanks_of_returns returns

/-- Behind code a comment goes, and both walks come to the end of the line. -/
theorem goesOn_of_cut (reach : Reaches s₀ s) {w r u : Text}
    (twin : s.Twin [] (w ++ '#' :: (r ++ '\n' :: (y ++ p))) (u ++ '\n' :: (y ++ q)) t)
    (comment : l.comments ('#' :: (r ++ '\n' :: (y ++ p)))) (spaces : Spaces w) (line : '\n' ∉ r)
    (returns : ∀ c ∈ u, c = '\r') (common : Common l y p q) : GoesOn s₀ l P s t := by
  obtain ⟨outside, found, cursor, walk, rest, place⟩ :=
    finds_comment passes reach twin.cursor.left spaces comment line (.inr ⟨_, rfl⟩)
  have right : t.cursor.rest = u ++ '\n' :: (y ++ q) := twin.cursor.right
  obtain ⟨cursor', spaced, walk', rest', place'⟩ := finds_blanks right (blanks_of_returns returns)
  have reach := reach.trans walk.reaches
  obtain ⟨more, v, hstep⟩ := next_of_lineFeed passes reach rest
  obtain ⟨seam, -, -, -, stripped⟩ := id common
  -- both walks meet at the line feed, one behind the comment and one behind the returns
  obtain ⟨keep, joint, kept⟩ :=
    exists_joint passes reach stripped (y := '\n' :: y) rest (List.cons_ne_nil _ _) hstep
  obtain ⟨z, more', v', next, twins, twin'⟩ :=
    follows_lineFeed (s := { s.unnamed with cursor := cursor })
    (t := { t with cursor := cursor', spaced := spaced }) joint seam rest rest'
    (place'.trans (twin.cursor.line.trans place.symm))
    (unnamed_memory (s := s) (t := t) twin.memory)
    twin.heredocs outside (twin.outside outside) more v hstep kept
  have lt : v.cursor.rest.length < s.cursor.rest.length :=
    Nat.lt_of_lt_of_le (rest_lt_of_step hstep) walk.reaches.leads.suffix.length_le
  refine ⟨z, p, q, v, v', reach.step hstep, lt, twin',
    common.of_suffix (suffix_of_next hstep rest twin'.cursor.left), fun retains => ?_⟩
  refine retains.of_finds (walk'.trans (.one next)) fun k hk comment => ?_
  obtain ⟨j, hj, same⟩ := exists_twin_of_mem twins hk
  have newline := newline_of_lineFeed rest hstep j hj
  rw [← same.kind, comment] at newline
  cases newline

/-- A line goes, and the walk over what is left stays where it is. -/
theorem goesOn_of_gone (reach : Reaches s₀ s) {w r : Text}
    (twin : s.Twin [] (w ++ '#' :: (r ++ '\n' :: (y ++ p))) (y ++ q) t)
    (gone : l.lines (w ++ '#' :: (r ++ '\n' :: (y ++ p))))
    (comment : l.comments ('#' :: (r ++ '\n' :: (y ++ p)))) (spaces : Spaces w) (line : '\n' ∉ r)
    (common : Common l y p q) : GoesOn s₀ l P s t := by
  have left : s.cursor.rest = w ++ '#' :: (r ++ '\n' :: (y ++ p)) := twin.cursor.left
  obtain ⟨v, hv, there, fresh⟩ := passes.fresh _ gone
  rw [eq_of_rest reach hv (there.trans left.symm)] at fresh
  obtain ⟨found, cursor, walk, rest, below, start⟩ :=
    finds_line passes reach fresh left spaces comment line
  obtain ⟨seam, -⟩ := id common
  have lt : cursor.rest.length < s.cursor.rest.length := by
    rw [rest, left]
    simp only [List.length_append, List.length_cons]
    omega
  refine ⟨y, p, q, _, t.down 1, reach.trans walk.reaches, lt, ?_, common, Retains.of_down⟩
  refine ⟨⟨rest, twin.cursor.right, ?_, ?_, seam⟩, twin.spaced, twin.memory, ?_, ?_⟩
  · rw [cursor_down, Cursor.line_down, twin.cursor.line, below]
  · rw [cursor_down, Cursor.atLineStart_down, twin.cursor.lineStart, start, fresh.lineStart]
  · rw [heredocs_down, twin.heredocs, fresh.heredocs, List.map_nil]
  · rw [suspended_down, twin.outside fresh.suspended, fresh.suspended]
    exact .nil

/-- Over what is shared, both walks take the same step. -/
theorem goesOn_of_common (reach : Reaches s₀ s) (twin : s.Twin y p q t) (common : Common l y p q)
    (hy : y ≠ []) (unmarked : t.atEndMark = false) : GoesOn s₀ l P s t := by
  obtain ⟨found, u, hstep⟩ := exists_next passes reach twin common hy unmarked
  have left := twin.cursor.left
  have steady := steady_of_common passes reach common left hy hstep fun start => by
    unfold atEndMark at unmarked
    rw [twin.cursor.lineStart, start, Bool.true_and, twin.cursor.right] at unmarked
    exact unmarked
  obtain ⟨-, -, -, plain, stripped⟩ := id common
  obtain ⟨keep, joint, kept⟩ := exists_joint passes reach stripped left hy hstep
  obtain ⟨z, more, v, next, twins, twin'⟩ := follows_step joint twin hy steady found u hstep kept
  have shorter : z <:+ y := by
    obtain ⟨c, x, rfl⟩ := List.exists_cons_of_ne_nil hy
    exact (suffix_of_next hstep left twin'.cursor.left).trans (List.suffix_cons c x)
  refine ⟨z, p, q, u, v, reach.step hstep, rest_lt_of_step hstep, twin', common.of_suffix shorter,
    fun retains => retains.of_finds (.one next) fun k hk comment => ?_⟩
  obtain ⟨j, hj, same⟩ := exists_twin_of_mem twins hk
  rw [same.text]
  exact passes.others s u found j reach hstep hj (same.kind ▸ comment) (left ▸ plain [] y rfl hy)

/-- The walk over what is left comes to its end, or both walks go on. -/
theorem retains_or_goesOn (reach : Reaches s₀ s) (twin : s.Twin y p q t) (common : Common l y p q) :
    Retains P t ∨ GoesOn s₀ l P s t := by
  by_cases hy : y = []
  · subst hy
    obtain ⟨-, -, -, -, stripped⟩ := common
    cases stripped with
    | ended gone => exact .inl (retains_of_ended passes reach twin gone)
    | last _ comment spaces _ line returns =>
      exact .inl (retains_of_last passes reach twin comment spaces line returns)
    | cut _ comment spaces _ line returns common =>
      exact .inr (goesOn_of_cut passes reach twin comment spaces line returns common)
    | gone gone comment spaces line common =>
      exact .inr (goesOn_of_gone passes reach twin gone comment spaces line common)
  · cases mark : t.atEndMark with
    | true =>
      obtain ⟨found, hstep⟩ :=
        step_of_atEndMark mark (outside_of_mark passes reach twin common hy mark)
      exact .inl (retains_of_stop hstep)
    | false => exact .inr (goesOn_of_common passes reach twin common hy mark)

/-- The walk over what is left comes to the places where the walk over the program comes, and finds
no comment but those that are left. -/
theorem retains_of_twin (reach : Reaches s₀ s) (twin : s.Twin y p q t) (common : Common l y p q) :
    Retains P t := by
  -- on the length of what is ahead in the program
  induction n : s.cursor.rest.length using Nat.strong_induction_on generalizing s t y p q with
  | _ n ih =>
    rcases retains_or_goesOn passes reach twin common with retains
      | ⟨_, _, _, u, v, reach, lt, twin, common, back⟩
    · exact retains
    · exact back (ih _ (n ▸ lt) reach twin common rfl)

end Walk

end Tokenizer

end Marginalia.Source
