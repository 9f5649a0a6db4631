import Marginalia.Proofs.Source.Steps

/-!
# The walk of the tokenizer

What holds of every walk over a program, whatever its tokens are. A step moves the cursor forward
over what was left to read; it finds at most one token of the program itself, and that token reaches
from the place where its reading began (`Tokenizer.origin`) to the place behind it. From this one
description of a step (`does_step`) follow the facts about whole walks: the tokens stand in order
and do not overlap, and no stretch that a single step passes is cut by the end of a token.
-/

namespace Marginalia.Source

/-! ## Cursors that move forward -/

namespace Cursor

/-- `d` stands further on than `c` in the same text, or at the same place. -/
structure Leads (c d : Cursor) : Prop where
  suffix : d.rest <:+ c.rest
  measure : d.position + d.rest.length = c.position + c.rest.length

theorem Leads.refl (c : Cursor) : c.Leads c := ⟨List.suffix_rfl, rfl⟩

theorem Leads.trans {a b c : Cursor} (hab : a.Leads b) (hbc : b.Leads c) : a.Leads c :=
  ⟨hbc.suffix.trans hab.suffix, hbc.measure.trans hab.measure⟩

/-- A cursor leads to no place before its own. -/
theorem Leads.position_le {c d : Cursor} (h : c.Leads d) : c.position ≤ d.position := by
  have hlen := h.suffix.length_le
  have hsum := h.measure
  omega

/-- A cursor with less to read stands strictly further on. -/
theorem Leads.position_lt {c d : Cursor} (h : c.Leads d) (hlt : d.rest.length < c.rest.length) :
    c.position < d.position := by
  have hsum := h.measure
  omega

/-- The line of a cursor plays no role for where it stands. -/
theorem leads_withLine (c : Cursor) (line : Nat) : c.Leads { c with line := line } :=
  ⟨List.suffix_rfl, rfl⟩

/-- A cursor leads to where it is advanced to. -/
theorem leads_advance (n : Nat) (c : Cursor) : c.Leads (c.advance n) := by
  induction n generalizing c with
  | zero => exact Leads.refl c
  | succ n ih =>
    unfold advance
    split
    · exact Leads.refl c
    · next x r hr =>
      refine Leads.trans ⟨?_, ?_⟩ (ih _)
      · rw [hr]
        exact List.suffix_cons x r
      · simp only [hr, List.length_cons]
        omega

end Cursor

/-! ## Findings -/

/-- The token that was found, if it is one. -/
def Finding.token? : Finding → Option Token
  | .token t => some t
  | _ => none

/-- The tokens among some findings. -/
def tokensOf (found : List Finding) : List Token := found.filterMap Finding.token?

@[simp] theorem tokensOf_nil : tokensOf [] = [] := rfl

@[simp] theorem tokensOf_append (a b : List Finding) :
    tokensOf (a ++ b) = tokensOf a ++ tokensOf b := List.filterMap_append ..

@[simp] theorem tokensOf_token (t : Token) (found : List Finding) :
    tokensOf (.token t :: found) = t :: tokensOf found := rfl

@[simp] theorem tokensOf_sealed (lines : LineRange) (found : List Finding) :
    tokensOf (.sealed lines :: found) = tokensOf found := rfl

@[simp] theorem tokensOf_heredocOpened (h : Heredoc) (found : List Finding) :
    tokensOf (.heredocOpened h :: found) = tokensOf found := rfl

@[simp] theorem tokensOf_heredocRead (h : Heredoc) (lines : LineRange) (found : List Finding) :
    tokensOf (.heredocRead h lines :: found) = tokensOf found := rfl

theorem tokensOf_cons_of_none {f : Finding} (none : f.token? = none) (found : List Finding) :
    tokensOf (f :: found) = tokensOf found := by
  unfold tokensOf
  rw [List.filterMap_cons, none]

theorem mem_tokensOf {found : List Finding} {k : Token} :
    k ∈ tokensOf found ↔ .token k ∈ found := by
  rw [tokensOf, List.mem_filterMap]
  constructor
  · rintro ⟨f, hf, hk⟩
    cases f with
    | token =>
      cases hk
      exact hf
    | sealed | heredocOpened | heredocRead => cases hk
  · exact fun h => ⟨_, h, rfl⟩

/-- The tokens of a tokenization are those of its findings. -/
theorem Tokenization.tokens_eq (t : Tokenization) : t.tokens = tokensOf t.found := by
  unfold Tokenization.tokens tokensOf
  congr 1

namespace Tokenizer

/-! ## Walks -/

/-- The tokenizer comes from one state to another. -/
inductive Reaches (s : Tokenizer) : Tokenizer → Prop where
  | here : Reaches s s
  | step {t u : Tokenizer} {found : List Finding} (before : Reaches s t)
      (h : t.step = .next found u) : Reaches s u

/-- A walk goes on behind its first step. -/
theorem run_of_next {s t : Tokenizer} {found : List Finding} (h : s.step = .next found t) :
    s.run = ⟨found ++ t.run.found, t.run.ending⟩ := by
  rw [run]
  split
  · next h' => rw [h] at h'; cases h'
  · next h' => rw [h] at h'; cases h'; rfl

/-- A walk ends with a step that stops. -/
theorem run_of_stop {s : Tokenizer} {found : List Finding} {ending : Ending}
    (h : s.step = .stop found ending) : s.run = ⟨found, ending⟩ := by
  rw [run]
  split
  · next h' => rw [h] at h'; cases h'; rfl
  · next h' => rw [h] at h'; cases h'

/-- What is found at the end of a walk, and in a step before it. -/
theorem tokens_run_of_stop {s : Tokenizer} {found : List Finding} {ending : Ending}
    (h : s.step = .stop found ending) : s.run.tokens = tokensOf found := by
  rw [run_of_stop h, Tokenization.tokens_eq]

/-- The tokens of a walk are those of its first step, and those of the rest. -/
theorem tokens_run_of_next {s t : Tokenizer} {found : List Finding} (h : s.step = .next found t) :
    s.run.tokens = tokensOf found ++ t.run.tokens := by
  rw [run_of_next h, Tokenization.tokens_eq, tokensOf_append, Tokenization.tokens_eq]

/-- A walk of at most a given number of steps. -/
def runFor : Nat → Tokenizer → Option Tokenization
  | 0, _ => none
  | n + 1, s =>
    match s.step with
    | .stop found ending => some ⟨found, ending⟩
    | .next found t => (runFor n t).map fun tail => ⟨found ++ tail.found, tail.ending⟩

/-- A walk that ends within some number of steps is the whole walk. -/
theorem run_eq_of_runFor {n : Nat} {s : Tokenizer} {t : Tokenization} (h : runFor n s = some t) :
    s.run = t := by
  induction n generalizing s t with
  | zero => cases h
  | succ n ih =>
    unfold runFor at h
    split at h
    · next hstep =>
      rw [run_of_stop hstep]
      exact Option.some.inj h
    · next hstep =>
      obtain ⟨tail, htail, rfl⟩ := Option.map_eq_some_iff.1 h
      rw [run_of_next hstep, ih htail]

/-- Induction along the walk from a state. -/
theorem walk_induction {motive : Tokenizer → Prop}
    (stop : ∀ s found ending, s.step = .stop found ending → motive s)
    (next : ∀ s found t, s.step = .next found t → motive t → motive s) (s : Tokenizer) :
    motive s := by
  -- the measure is what is left to read
  generalize hn : s.cursor.rest.length = n
  induction n using Nat.strongRecOn generalizing s with
  | ind n ih =>
    cases h : s.step with
    | stop found ending => exact stop s found ending h
    | next found t =>
      have hlt := rest_lt_of_step h
      exact next s found t h (ih _ (hn ▸ hlt) t rfl)

/-- A walk that is cut in two at a state that it comes to. -/
theorem Reaches.run_eq {s t : Tokenizer} (h : Reaches s t) :
    ∃ before, s.run = ⟨before ++ t.run.found, t.run.ending⟩ := by
  induction h with
  | here => exact ⟨[], rfl⟩
  | @step t u found _ hstep ih =>
    obtain ⟨before, hrun⟩ := ih
    refine ⟨before ++ found, ?_⟩
    rw [hrun, run_of_next hstep, List.append_assoc]

/-- What is found from a state on is found from every state before it, too. -/
theorem Reaches.mem_tokens {s t : Tokenizer} (h : Reaches s t) {k : Token} (hk : k ∈ t.run.tokens) :
    k ∈ s.run.tokens := by
  obtain ⟨found, whole⟩ := h.run_eq
  rw [whole, Tokenization.tokens_eq, tokensOf_append, ← Tokenization.tokens_eq]
  exact List.mem_append_right _ hk

/-! ## The end of a program -/

section Finish

variable {s : Tokenizer} {found before : List Finding}

/-- Outside of all literals the walk ends with an end token, and all is well. -/
theorem finish_of_outside (outside : s.suspended = []) :
    s.finish before = .stop (before ++ [.token (s.cut .eof [] s.cursor)]) .complete := by
  unfold finish
  rw [outside]

/-- The walk ends well only outside of all literals. -/
theorem finish_eq_complete (h : s.finish before = .stop found .complete) :
    s.suspended = [] ∧ found = before ++ [.token (s.cut .eof [] s.cursor)] := by
  unfold finish at h
  split at h
  · next hs =>
    cases h
    exact ⟨hs, rfl⟩
  · cases h

/-- At the end of the program, with no here-document open, the walk ends. -/
theorem step_of_end (hr : s.cursor.rest = []) (heredocs : s.heredocs = []) :
    s.step = s.finish [] := by
  unfold step
  rw [hr, heredocs]

/-- A walk that is complete at the end of the program leaves no heredoc without its body. -/
theorem heredocs_of_end (hr : s.cursor.rest = []) (h : s.step = .stop found .complete) :
    s.heredocs = [] := by
  unfold step at h
  rw [hr] at h
  cases heredocs : s.heredocs with
  | nil => rfl
  | cons d ds =>
    rw [heredocs] at h
    cases h

end Finish

/-! ## One step -/

/-- Where the reading of a token began that is read inside some literals: where the outermost of
them starts, or at `start` if there is none. -/
def originOf (suspended : List OpenLiteral) (start : Nat) : Nat :=
  match suspended.getLast? with
  | some l => l.start
  | none => start

@[simp] theorem originOf_nil (start : Nat) : originOf [] start = start := rfl

theorem originOf_cons (l : OpenLiteral) (outer : List OpenLiteral) (start : Nat) :
    originOf (l :: outer) start = originOf outer l.start := by
  unfold originOf
  cases outer with
  | nil => rfl
  | cons m ms =>
    rw [List.getLast?_cons_cons, List.getLast?_eq_some_getLast (List.cons_ne_nil m ms)]

/-- Where the reading of the next token of the program itself begins. -/
def origin (s : Tokenizer) : Nat := originOf s.suspended s.cursor.position

/-- What reading from a cursor comes to, where the reading began at `start`: a token of the program,
or a place inside a literal. A stop has no token to show. -/
inductive Reads (start : Nat) (c : Cursor) : Step → Prop where
  | token {found : List Finding} {s : Tokenizer} (t : Token) (only : tokensOf found = [t])
      (starts : t.start = start) (stops : t.stop = s.cursor.position)
      (after : t.after = s.cursor.rest) (outside : s.suspended = [])
      (forward : c.Leads s.cursor) : Reads start c (.next found s)
  | inside {found : List Finding} {s : Tokenizer} (none : tokensOf found = [])
      (suspended : s.suspended ≠ []) (begins : s.origin = start)
      (forward : c.Leads s.cursor) : Reads start c (.next found s)
  | stopped {found : List Finding} {ending : Ending} (none : tokensOf found = [])
      (incomplete : ending ≠ .complete) : Reads start c (.stop found ending)

theorem Reads.mono {start : Nat} {c d : Cursor} {s : Step} (hcd : c.Leads d) (h : Reads start d s) :
    Reads start c s := by
  cases h with
  | token t only starts stops after outside forward =>
    exact .token t only starts stops after outside (hcd.trans forward)
  | inside none suspended begins forward => exact .inside none suspended begins (hcd.trans forward)
  | stopped none incomplete => exact .stopped none incomplete

theorem Reads.prepend {start : Nat} {c : Cursor} {s : Step} {found : List Finding}
    (hfound : tokensOf found = []) (h : Reads start c s) : Reads start c (s.prepend found) := by
  cases h with
  | token t only starts stops after outside forward =>
    exact .token t (by simp [hfound, only]) starts stops after outside forward
  | inside none suspended begins forward =>
    exact .inside (by simp [hfound, none]) suspended begins forward
  | stopped none incomplete => exact .stopped (by simp [hfound, none]) incomplete

theorem reads_refuse {start : Nat} {c : Cursor} {found : List Finding} {line : Nat}
    {fault : SyntaxFault} (hfound : tokensOf found = []) :
    Reads start c (refuse found line fault) :=
  .stopped hfound (by nofun)

theorem reads_record {s : Tokenizer} {t : Token} {start : Nat}
    (begins : originOf s.suspended t.start = start) (stops : t.stop = s.cursor.position)
    (after : t.after = s.cursor.rest) : Reads start s.cursor (s.record t) := by
  unfold record
  by_cases hs : s.suspended = []
  · rw [hs] at begins ⊢
    exact .token t rfl begins stops after rfl (Cursor.Leads.refl _)
  · obtain ⟨l, outer, hl⟩ := List.exists_cons_of_ne_nil hs
    rw [hl] at begins ⊢
    refine .inside rfl (List.cons_ne_nil l outer) ?_ (Cursor.Leads.refl _)
    rw [originOf_cons] at begins
    exact (originOf_cons l outer _).trans begins

theorem ReadsOn.reads {s : Tokenizer} {l : OpenLiteral} {start : Nat} {step : Step}
    (h : s.ReadsOn l step) (begins : originOf s.suspended l.start = start) :
    Reads start s.cursor step := by
  cases h with
  | closed n =>
    exact Reads.mono (Cursor.leads_advance n s.cursor)
      (reads_record (s := { s with cursor := _ }) begins rfl rfl)
  | interpolation =>
    refine .inside rfl (List.cons_ne_nil _ _) ?_ (Cursor.leads_advance _ _)
    exact (originOf_cons _ _ _).trans begins
  | unterminated => exact reads_refuse rfl
  | split => exact .stopped rfl (by nofun)

theorem Settles.reads {s : Tokenizer} {t : Token} {start : Nat} {step : Step} (h : s.Settles t step)
    (begins : originOf s.suspended t.start = start) (stops : t.stop = s.cursor.position)
    (after : t.after = s.cursor.rest) : Reads start s.cursor step := by
  cases h with
  | record => exact reads_record begins stops after
  | count l outer hs braces =>
    -- counting braces does not touch where a literal starts
    rw [hs, originOf_cons] at begins
    exact reads_record (s := { s with suspended := { l with braces } :: outer })
      ((originOf_cons _ _ _).trans begins) stops after
  | close l outer hs =>
    rw [hs, originOf_cons] at begins
    exact (readsOn { s with suspended := outer, heredocs := _, memory := _ } l).reads begins

/-- The cursor leads to the place behind a token. -/
theorem leads_behind (s : Tokenizer) (kind : TokenKind) (more : Nat) :
    s.cursor.Leads (s.behind kind more) := by
  unfold behind
  dsimp only
  split
  · exact (Cursor.leads_advance _ _).trans (Cursor.leads_withLine _ _)
  · exact Cursor.leads_advance _ _

/-- A token that is taken is read from the origin on. -/
theorem reads_take (s : Tokenizer) (kind : TokenKind) (more : Nat) :
    Reads s.origin s.cursor (s.take kind more) :=
  Reads.mono (leads_behind s kind more)
    ((settles { s with cursor := s.behind kind more } _).reads rfl rfl rfl)

theorem tokensOf_readBodies (hs : List Heredoc) (line : Nat) (t : Text) :
    tokensOf (readBodies hs line t).1 = [] := by
  induction hs generalizing line t with
  | nil => rfl
  | cons h hs ih =>
    unfold readBodies
    split
    · rfl
    · rw [tokensOf_heredocRead]
      exact ih _ _

theorem tokensOf_bodies {hs : List Heredoc} {line : Nat} {t : Text} {bodies : List Finding}
    {taken : Except Heredoc (Nat × Nat)} (read : readBodies hs line t = (bodies, taken)) :
    tokensOf bodies = [] := by
  have none := tokensOf_readBodies hs line t
  rwa [read] at none

theorem Breaks.reads {s : Tokenizer} {step : Step} (h : s.Breaks step) :
    Reads s.origin s.cursor step := by
  cases h with
  | unterminated _ _ read => exact reads_refuse (tokensOf_bodies read)
  | below _ length lines behind read place =>
    have forward : s.cursor.Leads behind := by
      rw [place]
      exact ((Cursor.leads_advance 1 s.cursor).trans (Cursor.leads_advance length _)).trans
        (Cursor.leads_withLine _ _)
    have noted : Reads s.origin behind
        ({ s with cursor := behind, heredocs := [] }.record (s.cut .newline ['\n'] behind)) :=
      reads_record (s := { s with cursor := behind, heredocs := [] }) rfl rfl rfl
    exact (noted.mono forward).prepend (tokensOf_bodies read)

/-- Whatever a character starts is read from the origin on. -/
theorem Takes.reads {s : Tokenizer} {c : Char} {r : Text} {step : Step} (h : s.Takes c r step) :
    Reads s.origin s.cursor step := by
  cases h with
  | name kind more pending => exact reads_take (s.readied s.spaced pending) kind more
  | token spaced waits kind more => exact reads_take (s.readied spaced waits) kind more
  | newline spaced waits => exact (s.readied spaced waits).breaks.reads
  | literal spaced waits more =>
    exact Reads.mono (Cursor.leads_advance (more + 1) s.cursor)
      ((readsOn { s.readied spaced waits with cursor := _ } _).reads rfl)
  | heredoc spaced waits more =>
    exact Reads.prepend rfl (reads_take { s.readied spaced waits with heredocs := _ } .literal more)
  | refuse => exact reads_refuse rfl
  | split => exact .stopped rfl (by nofun)

/-- The embedded document that starts at a place, if one does: how many characters it takes. -/
def document? (s : Tokenizer) : Option Nat :=
  if s.cursor.atLineStart && wordAhead "=begin" wordEnds s.cursor.rest then
    (embeddedDocument? s.cursor.rest).map Prod.fst
  else none

/-- Whether the line that ends the program starts at a place. -/
def atEndMark (s : Tokenizer) : Bool :=
  s.cursor.atLineStart && wordAhead "__END__" lineEnds s.cursor.rest

/-- What a step does: it passes over what separates tokens, or it reads; or it comes to the end of
the program, whose token has no characters. -/
inductive Does (s : Tokenizer) : Step → Prop where
  | skips {found : List Finding} (c : Cursor) (spaced : Bool) (none : tokensOf found = [])
      (forward : s.cursor.Leads c) :
      Does s (.next found { s with cursor := c, spaced := spaced })
  | reads {step : Step} (h : Reads s.origin s.cursor step) : Does s step
  | ends {found : List Finding} (t : Token) (only : tokensOf found = [t]) (eof : t.kind = .eof)
      (starts : t.start = s.cursor.position) (stops : t.stop = s.cursor.position)
      (outside : s.suspended = []) : Does s (.stop found .complete)

theorem does_finish (s : Tokenizer) {found : List Finding} (hfound : tokensOf found = []) :
    s.Does (s.finish found) := by
  unfold finish
  split
  · next hs =>
    exact .ends (s.cut .eof [] s.cursor) (by simp [hfound]) rfl rfl rfl hs
  · exact .reads (reads_refuse hfound)

/-- Each step reads at most one token, and goes on behind it. -/
theorem does_step (s : Tokenizer) : s.Does s.step := by
  have acts := s.acts
  generalize s.step = step at acts ⊢
  cases acts with
  | document => exact .skips _ s.spaced rfl (Cursor.leads_advance _ s.cursor)
  | blank | join => exact .skips _ true rfl (Cursor.leads_advance _ s.cursor)
  | refuse => exact .reads (reads_refuse rfl)
  | ends | mark => exact does_finish s rfl
  | reads _ _ _ takes => exact .reads takes.reads

/-! ## Whole walks -/

/-- A step that goes on moves forward, and it keeps the place where the reading of a token began
until that token is found. -/
theorem next_cases {s t : Tokenizer} {found : List Finding} (h : s.step = .next found t) :
    s.cursor.position < t.cursor.position ∧ s.cursor.Leads t.cursor ∧
      ((∃ k, tokensOf found = [k] ∧ k.start = s.origin ∧ k.stop = t.cursor.position ∧
          k.after = t.cursor.rest ∧ t.origin = t.cursor.position) ∨
        (tokensOf found = [] ∧ (t.origin = s.origin ∨ t.origin = t.cursor.position))) := by
  have lt := rest_lt_of_step h
  have does := does_step s
  rw [h] at does
  cases does with
  | skips c spaced none forward =>
    refine ⟨forward.position_lt lt, forward, .inr ⟨none, ?_⟩⟩
    cases hs : s.suspended with
    | nil => exact .inr rfl
    | cons l outer => exact .inl (by simp only [origin, hs, originOf_cons])
  | reads read =>
    cases read with
    | token k only starts stops after outside forward =>
      refine ⟨forward.position_lt lt, forward, .inl ⟨k, only, starts, stops, after, ?_⟩⟩
      simp [origin, outside]
    | inside none suspended begins forward =>
      exact ⟨forward.position_lt lt, forward, .inr ⟨none, .inl begins⟩⟩

/-- A step that ends the walk finds nothing, or the end of the program. -/
theorem found_of_stop {s : Tokenizer} {found : List Finding} {ending : Ending}
    (h : s.step = .stop found ending) : tokensOf found = [] ∧ ending ≠ .complete ∨
      ∃ t, tokensOf found = [t] ∧ t.kind = .eof ∧ t.start = s.cursor.position ∧
        t.stop = s.cursor.position ∧ s.suspended = [] := by
  have does := does_step s
  rw [h] at does
  cases does with
  | reads read => cases read with
    | stopped none incomplete => exact .inl ⟨none, incomplete⟩
  | ends t only eof starts stops outside => exact .inr ⟨t, only, eof, starts, stops, outside⟩

/-- A step moves neither the origin nor the cursor back, and the origin stays before the cursor. -/
theorem origin_le_of_next {s t : Tokenizer} {found : List Finding} (h : s.step = .next found t)
    (hs : s.origin ≤ s.cursor.position) : s.origin ≤ t.origin ∧ t.origin ≤ t.cursor.position := by
  obtain ⟨lt, -, ⟨k, -, -, -, -, ht⟩ | ⟨-, ht | ht⟩⟩ := next_cases h
  all_goals omega

/-- What holds of each token that a walk finds: it has characters unless it is the end of the
program. -/
def Spans (k : Token) : Prop := k.start ≤ k.stop ∧ (k.kind ≠ .eof → k.start < k.stop)

/-- The first token that a walk finds may have begun before the place; no token ends before it. -/
theorem token_of_run (s : Tokenizer) (hs : s.origin ≤ s.cursor.position) :
    ∀ k ∈ s.run.tokens, Spans k ∧
      (s.cursor.position ≤ k.start ∨ k.start = s.origin ∧ s.cursor.position ≤ k.stop) := by
  -- along the walk; a token starts where the cursor is, or where the tokenizer has begun it before
  induction s using walk_induction with
  | stop s found ending h =>
    rw [tokens_run_of_stop h]
    intro k hk
    obtain ⟨none, -⟩ | ⟨t, only, eof, starts, stops, -⟩ := found_of_stop h
    · rw [none] at hk
      cases hk
    · rw [only, List.mem_singleton] at hk
      subst hk
      refine ⟨⟨by omega, fun h => absurd eof h⟩, .inl (by omega)⟩
  | next s found t h ih =>
    rw [tokens_run_of_next h]
    have ⟨lt, _, cases⟩ := next_cases h
    have ⟨_, ht⟩ := origin_le_of_next h hs
    intro k hk
    rcases List.mem_append.1 hk with hk | hk
    · obtain ⟨j, only, starts, stops, -⟩ | ⟨none, -⟩ := cases
      · rw [only, List.mem_singleton] at hk
        subst hk
        exact ⟨⟨by omega, fun _ => by omega⟩, .inr ⟨starts, by omega⟩⟩
      · rw [none] at hk
        cases hk
    · obtain ⟨spans, later⟩ := ih ht k hk
      refine ⟨spans, ?_⟩
      rcases later with later | ⟨begins, later⟩
      · exact .inl (by omega)
      · obtain ⟨j, -, -, -, -, ho⟩ | ⟨-, ho | ho⟩ := cases
        · exact .inl (by omega)
        · exact .inr ⟨by omega, by omega⟩
        · exact .inl (by omega)

/-- The tokens of a walk stand in order and do not overlap. -/
theorem pairwise_tokens_run (s : Tokenizer) (hs : s.origin ≤ s.cursor.position) :
    s.run.tokens.Pairwise fun a b => a.stop ≤ b.start := by
  induction s using walk_induction with
  | stop s found ending h =>
    rw [tokens_run_of_stop h]
    obtain ⟨none, -⟩ | ⟨t, only, -⟩ := found_of_stop h
    · rw [none]
      exact .nil
    · rw [only]
      exact List.pairwise_singleton _ t
  | next s found t h ih =>
    rw [tokens_run_of_next h]
    have ⟨_, ht⟩ := origin_le_of_next h hs
    have tail := ih ht
    obtain ⟨-, -, ⟨k, only, -, stops, -, ho⟩ | ⟨none, -⟩⟩ := next_cases h
    · rw [only]
      refine List.pairwise_cons.2 ⟨fun j hj => ?_, tail⟩
      obtain ⟨-, later | ⟨begins, -⟩⟩ := token_of_run t ht j hj
      all_goals omega
    · rw [none]
      exact tail

/-- Two tokens of one walk are the same, or one ends before the other starts. -/
theorem eq_or_apart {s : Tokenizer} (hs : s.origin ≤ s.cursor.position) :
    ∀ ⦃a⦄, a ∈ s.run.tokens → ∀ ⦃b⦄, b ∈ s.run.tokens → a = b ∨ a.stop ≤ b.start ∨
      b.stop ≤ a.start := by
  have pairs := pairwise_tokens_run s hs
  exact List.Pairwise.forall_of_forall_of_flip (fun _ _ => .inl rfl)
    (pairs.imp fun h => .inr (.inl h)) (pairs.imp fun h => .inr (.inr h))

/-- The origin is never behind the cursor. -/
theorem origin_le_of_reaches {s t : Tokenizer} (h : Reaches s t)
    (hs : s.origin ≤ s.cursor.position) : t.origin ≤ t.cursor.position := by
  induction h with
  | here => exact hs
  | step _ hstep ih => exact (origin_le_of_next hstep ih).2

/-- The tokens found on the way to a state end before the reading of the next one begins. -/
theorem token_before_of_reaches {s t : Tokenizer} (h : Reaches s t)
    (hs : s.origin ≤ s.cursor.position) :
    ∃ before, s.run = ⟨before ++ t.run.found, t.run.ending⟩ ∧
      ∀ k ∈ tokensOf before, k.stop ≤ t.origin := by
  induction h with
  | here => exact ⟨[], rfl, fun k hk => nomatch hk⟩
  | @step t u found reach hstep ih =>
    obtain ⟨before, hrun, hbefore⟩ := ih
    have ht := origin_le_of_reaches reach hs
    have hu := origin_le_of_next hstep ht
    refine ⟨before ++ found, by rw [hrun, run_of_next hstep, List.append_assoc], fun k hk => ?_⟩
    rw [tokensOf_append] at hk
    rcases List.mem_append.1 hk with hk | hk
    · have := hbefore k hk
      omega
    · obtain ⟨-, -, ⟨j, only, -, stops, -, ho⟩ | ⟨none, -⟩⟩ := next_cases hstep
      · rw [only, List.mem_singleton] at hk
        subst hk
        omega
      · rw [none] at hk
        cases hk

/-- The stretch that one step passes is never cut by a token: a token ends before it, or starts
behind it, or covers it. -/
theorem token_of_passed {s t u : Tokenizer} {found : List Finding} (reach : Reaches s t)
    (hs : s.origin ≤ s.cursor.position) (h : t.step = .next found u) :
    ∀ k ∈ s.run.tokens, k.stop ≤ t.cursor.position ∨ u.cursor.position ≤ k.start ∨
      (k.start ≤ t.cursor.position ∧ u.cursor.position ≤ k.stop) := by
  intro k hk
  obtain ⟨before, hrun, hbefore⟩ := token_before_of_reaches reach hs
  have ht := origin_le_of_reaches reach hs
  have hu := origin_le_of_next h ht
  rw [hrun, run_of_next h, Tokenization.tokens_eq, tokensOf_append, tokensOf_append] at hk
  -- found before the step, by it, or later
  rcases List.mem_append.1 hk with hk | hk
  · have := hbefore k hk
    exact .inl (by omega)
  · obtain ⟨lt, -, cases⟩ := next_cases h
    rcases List.mem_append.1 hk with hk | hk
    · obtain ⟨j, only, starts, stops, -⟩ | ⟨none, -⟩ := cases
      · rw [only, List.mem_singleton] at hk
        subst hk
        exact .inr (.inr ⟨by omega, by omega⟩)
      · rw [none] at hk
        cases hk
    · rw [← Tokenization.tokens_eq] at hk
      obtain ⟨-, later | ⟨begins, later⟩⟩ := token_of_run u hu.2 k hk
      · exact .inr (.inl later)
      · obtain ⟨j, -, -, -, -, ho⟩ | ⟨-, ho | ho⟩ := cases
        · exact .inr (.inl (by omega))
        · exact .inr (.inr ⟨by omega, later⟩)
        · exact .inr (.inl (by omega))

/-- Tokens stand within the program. -/
theorem stop_le_of_run (s : Tokenizer) :
    ∀ k ∈ s.run.tokens, k.stop ≤ s.cursor.position + s.cursor.rest.length := by
  induction s using walk_induction with
  | stop s found ending h =>
    rw [tokens_run_of_stop h]
    intro k hk
    obtain ⟨none, -⟩ | ⟨t, only, -, -, stops, -⟩ := found_of_stop h
    · rw [none] at hk
      cases hk
    · rw [only, List.mem_singleton] at hk
      subst hk
      omega
  | next s found t h ih =>
    rw [tokens_run_of_next h]
    obtain ⟨-, forward, cases⟩ := next_cases h
    have measure := forward.measure
    intro k hk
    rcases List.mem_append.1 hk with hk | hk
    · obtain ⟨j, only, -, stops, -⟩ | ⟨none, -⟩ := cases
      · rw [only, List.mem_singleton] at hk
        subst hk
        omega
      · rw [none] at hk
        cases hk
    · have := ih k hk
      omega

/-! ## Embedded documents and the end mark -/

/-- Within the program an advance moves on by as many characters as it is told. -/
theorem advance_position (n : Nat) (c : Cursor) (h : n ≤ c.rest.length) :
    (c.advance n).position = c.position + n := by
  have measure := (Cursor.leads_advance n c).measure
  rw [Cursor.rest_advance, List.length_drop] at measure
  omega

theorem length_le_of_embeddedDocument? {t : Text} {length lines : Nat}
    (h : embeddedDocument? t = some (length, lines)) : length ≤ t.length := by
  unfold embeddedDocument? at h
  split at h
  · cases h
  · next p ps hp =>
    split at h
    · cases h
    · next k hk =>
      cases h
      have whole := congrArg List.length (Text.flatten_pieces t)
      have hlt := (List.findIdx?_eq_some_iff_findIdx_eq.1 hk).1
      have last : ((ps[k]?.getD []).takeWhile (· != '\n')).length ≤ (ps[k]?.getD []).length :=
        (List.takeWhile_sublist _).length_le
      rw [List.getElem?_eq_getElem hlt, Option.getD_some] at last
      have rest : ps = ps.take k ++ (ps[k] :: ps.drop (k + 1)) := by
        rw [List.getElem_cons_drop, List.take_append_drop]
      rw [hp, List.flatten_cons, List.length_append, rest, List.flatten_append, List.flatten_cons,
        List.length_append, List.length_append] at whole
      rw [List.flatten_cons, List.length_append, List.getElem?_eq_getElem hlt, Option.getD_some]
      omega

/-- No token has an end inside an embedded document that the tokenizer passes. -/
theorem token_of_document {s t : Tokenizer} {n : Nat} (reach : Reaches s t)
    (hs : s.origin ≤ s.cursor.position) (h : t.document? = some n) {k : Token}
    (hk : k ∈ s.run.tokens) : k.stop ≤ t.cursor.position ∨ t.cursor.position + n ≤ k.start ∨
      (k.start ≤ t.cursor.position ∧ t.cursor.position + n ≤ k.stop) := by
  unfold document? at h
  split at h
  · next ahead =>
    obtain ⟨⟨length, lines⟩, hdoc, heq⟩ := Option.map_eq_some_iff.1 h
    cases heq
    have hstep : t.step = .next [.sealed ⟨t.cursor.line, t.cursor.line + lines⟩]
        { t with cursor := t.cursor.advance length } := by
      unfold step
      split
      · next hr =>
        rw [hr] at hdoc
        cases hdoc
      · next c r hr =>
        rw [hr] at ahead hdoc
        dsimp only
        rw [if_pos ahead, hdoc]
    have passed := token_of_passed reach hs hstep k hk
    dsimp only at passed
    rw [advance_position _ _ (length_le_of_embeddedDocument? hdoc)] at passed
    exact passed
  · cases h

/-- A text that starts with the end mark does not start with an embedded document. -/
theorem not_begin_of_atEndMark {t : Text} (h : wordAhead "__END__" lineEnds t) :
    wordAhead "=begin" wordEnds t = false := by
  cases t with
  | nil => rfl
  | cons c r =>
    unfold wordAhead at h ⊢
    by_cases hc : '=' = c
    · subst hc
      simp [List.isPrefixOf?] at h
    · simp [List.isPrefixOf?, hc]

/-- At the end mark the program ends. -/
theorem step_eq_finish_of_atEndMark {t : Tokenizer} (h : t.atEndMark) :
    t.step = t.finish [.sealed ⟨t.cursor.line, max t.lineCount t.cursor.line⟩] := by
  unfold atEndMark at h
  rw [Bool.and_eq_true] at h
  unfold step
  split
  · next hr =>
    rw [hr] at h
    cases h.2
  · next c r hr =>
    rw [hr] at h
    dsimp only
    rw [not_begin_of_atEndMark h.2, h.1, h.2]
    rfl

/-- Where a complete walk comes to the end mark, every token ends before it or there. -/
theorem token_of_atEndMark {s t : Tokenizer} (reach : Reaches s t)
    (hs : s.origin ≤ s.cursor.position) (complete : s.run.ending = .complete) (h : t.atEndMark)
    {k : Token} (hk : k ∈ s.run.tokens) : k.stop ≤ t.cursor.position := by
  obtain ⟨before, hrun, hbefore⟩ := token_before_of_reaches reach hs
  have ht := origin_le_of_reaches reach hs
  have hstep := step_eq_finish_of_atEndMark h
  unfold finish at hstep
  split at hstep
  · rw [run_of_stop hstep] at hrun
    rw [hrun, Tokenization.tokens_eq, tokensOf_append] at hk
    rcases List.mem_append.1 hk with hk | hk
    · have := hbefore k hk
      omega
    · rw [List.mem_singleton.1 hk]
      exact Nat.le_refl _
  · rw [run_of_stop hstep] at hrun
    rw [hrun] at complete
    cases complete

end Tokenizer

end Marginalia.Source
