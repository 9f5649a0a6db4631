import Marginalia.Proofs.Source.Accepted
import Marginalia.Proofs.Source.Insertion
import Marginalia.Proofs.Source.Spans

/-!
# Here-documents that wait for their bodies

A here-document that is opened waits until its body is read, at the end of the line or, for one
inside an interpolation, at the end of a line of that interpolation. Each literal that is suspended
keeps a queue of its own (`Tokenizer.waiting`). A step opens one here-document, reads the bodies of
a whole queue, or leaves all of them waiting; or it forgets a queue: that of an interpolation, at
the brace that closes it, or that of the program, at the end mark (`Tokenizer.handles_step`). What
is opened in a complete walk is therefore what is read in it and what it forgets
(`Tokenizer.exists_lost_of_complete`).
-/

namespace Marginalia.Source

/-! ## Findings -/

/-- The here-document that was opened, if one was. -/
def Finding.opened? : Finding → Option Heredoc
  | .heredocOpened h => some h
  | _ => none

/-- The here-document whose body was read, with the lines of the body, if one was. -/
def Finding.body? : Finding → Option (Heredoc × LineRange)
  | .heredocRead h lines => some (h, lines)
  | _ => none

/-- The here-documents that were opened, in that order. -/
def openedOf (found : List Finding) : List Heredoc := found.filterMap Finding.opened?

/-- The here-documents whose bodies were read, in that order, with the lines of the bodies. -/
def bodiesOf (found : List Finding) : List (Heredoc × LineRange) := found.filterMap Finding.body?

/-- The here-documents whose bodies were read, in that order. -/
def readOf (found : List Finding) : List Heredoc := (bodiesOf found).map Prod.fst

@[simp] theorem openedOf_append (a b : List Finding) :
    openedOf (a ++ b) = openedOf a ++ openedOf b := List.filterMap_append ..

@[simp] theorem bodiesOf_append (a b : List Finding) :
    bodiesOf (a ++ b) = bodiesOf a ++ bodiesOf b := List.filterMap_append ..

@[simp] theorem readOf_append (a b : List Finding) : readOf (a ++ b) = readOf a ++ readOf b := by
  rw [readOf, bodiesOf_append, List.map_append, readOf, readOf]

theorem readOf_eq_nil {found : List Finding} (h : bodiesOf found = []) : readOf found = [] := by
  rw [readOf, h, List.map_nil]

namespace Tokenizer

variable {s t u : Tokenizer} {found : List Finding} {w : List Heredoc}

/-! ## Queues -/

/-- The here-documents that wait outside of the interpolation in which the place is, outermost
first. -/
def outside (s : Tokenizer) : List Heredoc := s.suspended.reverse.flatMap (·.pending)

/-- The here-documents that wait. -/
def waiting (s : Tokenizer) : List Heredoc := s.outside ++ s.heredocs

/-- Whether a brace follows that closes the innermost interpolation. -/
def closesInterpolation (s : Tokenizer) : Bool :=
  match s.suspended with
  | [] => false
  | l :: _ => l.braces == 0 && s.cursor.rest.head? == some '}'

/-- The here-documents that wait in the innermost queue and that the next step gives up without
their bodies: at the brace that closes an interpolation, and at the end mark. -/
def forgotten (s : Tokenizer) : List Heredoc :=
  if s.closesInterpolation || s.atEndMark then s.heredocs else []

/-! ## Steps that leave the queues as they are -/

/-- A step after which the here-documents of a list wait; no other was opened, and no body was
read. -/
def Leaves (w : List Heredoc) : Step → Prop
  | .next found s => openedOf found = [] ∧ bodiesOf found = [] ∧ s.waiting = w
  | .stop _ _ => True

theorem leaves_record (k : Token) : Leaves s.waiting (s.record k) := by
  unfold record
  split
  · exact ⟨rfl, rfl, rfl⟩
  · exact ⟨rfl, rfl, rfl⟩

theorem outside_cons (l : OpenLiteral) (outer : List OpenLiteral)
    (h : s.suspended = l :: outer) :
    s.outside = outer.reverse.flatMap (·.pending) ++ l.pending := by
  rw [outside, h, List.reverse_cons, List.flatMap_append, List.flatMap_singleton]

/-- An interpolation takes the innermost queue with it. -/
theorem ReadsOn.leaves {l : OpenLiteral} {step : Step} (h : s.ReadsOn l step) :
    Leaves s.waiting step := by
  cases h with
  | closed => exact leaves_record (s := { s with cursor := _ }) _
  | interpolation =>
    refine ⟨rfl, rfl, ?_⟩
    rw [waiting, outside_cons _ _ rfl, List.append_nil]
    rfl
  | unterminated | split => trivial

/-- The brace that closes an interpolation brings back the queue that waited outside of it. -/
theorem leaves_settle_closing {k : Token} {l : OpenLiteral} {outer : List OpenLiteral}
    (hs : s.suspended = l :: outer) (braces : l.braces = 0) (closing : k.isPunct rightBrace) :
    Leaves s.outside (s.settle k) := by
  have other : k.isPunct leftBrace = false := Scanner.isPunct_eq_beq closing _
  unfold settle
  rw [hs]
  dsimp only
  rw [if_neg (by rw [other]; exact Bool.false_ne_true), if_pos closing, braces]
  dsimp only
  rw [outside_cons l outer hs]
  exact (readsOn { s with suspended := outer, heredocs := l.pending, memory := _ } l).leaves

theorem Settles.leaves {k : Token} {step : Step} (h : s.Settles k step)
    (stays : ∀ l outer, s.suspended = l :: outer → k.isPunct rightBrace → l.braces ≠ 0) :
    Leaves s.waiting step := by
  cases h with
  | record => exact leaves_record k
  | count l outer hs braces =>
    -- counting braces leaves the queues alone
    have same : s.waiting = waiting { s with suspended := { l with braces } :: outer } := by
      rw [waiting, waiting, outside_cons l outer hs, outside_cons _ _ rfl]
    rw [same]
    exact leaves_record k
  | close l outer hs braces closing => exact absurd braces (stays l outer hs closing)

/-- What closes an interpolation is a brace. -/
theorem head?_of_closing {r : Text} {n : Nat} (h : r.take n = ['}']) : r.head? = some '}' := by
  rw [← List.take_append_drop n r, h]
  rfl

/-- A token that does not close an interpolation. -/
theorem leaves_take {kind : TokenKind} {more : Nat} (stays : s.closesInterpolation = false) :
    Leaves s.waiting (s.take kind more) := by
  refine (settles { s with cursor := s.behind kind more } _).leaves fun l outer hs closing braces =>
    ?_
  have text := (Bool.and_eq_true_iff.1 closing).2
  rw [beq_iff_eq] at text
  have closes : s.closesInterpolation = true := by
    unfold closesInterpolation
    rw [show s.suspended = l :: outer from hs]
    dsimp only
    rw [braces, head?_of_closing text]
    rfl
  rw [closes] at stays
  cases stays

theorem leaves_finish : Leaves w (s.finish found) := by
  unfold finish
  split
  · trivial
  · trivial

/-! ## What a step does with the queues -/

/-- What a step does with the here-documents that wait. -/
inductive Handles (s : Tokenizer) (found : List Finding) (t : Tokenizer) : Prop where
  | leaves (opened : openedOf found = []) (bodies : bodiesOf found = []) (none : s.forgotten = [])
      (waits : t.waiting = s.waiting)
  | opens (h : Heredoc) (opened : openedOf found = [h]) (bodies : bodiesOf found = [])
      (none : s.forgotten = []) (waits : t.waiting = s.waiting ++ [h])
  /-- At a line feed the bodies of the whole innermost queue are read. -/
  | reads (ahead : s.cursor.rest.head? = some '\n') (opened : openedOf found = [])
      (bodies : readOf found = s.heredocs) (none : s.forgotten = []) (waits : t.waiting = s.outside)
  /-- The innermost queue is given up. -/
  | forgets (opened : openedOf found = []) (bodies : bodiesOf found = [])
      (all : s.forgotten = s.heredocs) (waits : t.waiting = s.outside)

/-- If all bodies are found, all that was asked for is read. -/
theorem readBodies_ok {hs : List Heredoc} {line : Nat} {x : Text} {taken : Nat × Nat}
    (h : readBodies hs line x = (found, .ok taken)) :
    openedOf found = [] ∧ readOf found = hs := by
  induction hs generalizing line x found taken with
  | nil =>
    cases h
    exact ⟨rfl, rfl⟩
  | cons d ds ih =>
    obtain ⟨n, k, bodies, m, j, -, hrest, rfl, -⟩ := readBodies_cons_eq_ok.1 h
    obtain ⟨opened, read⟩ := ih hrest
    exact ⟨opened, congrArg (d :: ·) read⟩

theorem forgotten_eq_nil (closes : s.closesInterpolation = false) (mark : s.atEndMark = false) :
    s.forgotten = [] := by
  rw [forgotten, closes, mark]
  rfl

/-- At the end of a line all that waits there is read, and nothing else. -/
theorem takeNewline_eq_next (h : s.takeNewline = .next found t) :
    openedOf found = [] ∧ readOf found = s.heredocs ∧ t.waiting = s.outside := by
  obtain ⟨bodies, _, _, _, hread, rfl, rfl, rfl⟩ := exists_of_takeNewline h
  obtain ⟨opened, read⟩ := readBodies_ok hread
  refine ⟨?_, ?_, List.append_nil _⟩
  · rw [openedOf_append, opened, List.nil_append]
    split <;> rfl
  · rw [readOf_append, read]
    split <;> exact List.append_nil _

/-- A step that leaves the queues as they are, or that opens a here-document. -/
def Adds (w : List Heredoc) (step : Step) : Prop :=
  Leaves w step ∨ ∃ h next, step = next.prepend [.heredocOpened h] ∧ Leaves (w ++ [h]) next

/-- What a character starts adds what it opens to what waits. -/
theorem Takes.adds {c : Char} {r : Text} {step : Step} (h : s.Takes c r step) (hc : c ≠ '\n')
    (stays : s.closesInterpolation = false) : Adds s.waiting step := by
  cases h with
  | name kind more pending => exact .inl (leaves_take (s := s.readied s.spaced pending) stays)
  | token spaced waits => exact .inl (leaves_take (s := s.readied spaced waits) stays)
  | newline _ _ read => exact absurd read (Lexeme.read_ne_newline hc _ _ _)
  | literal spaced waits =>
    exact .inl (readsOn { s.readied spaced waits with cursor := _ } _).leaves
  | heredoc spaced waits more h =>
    refine .inr ⟨h, _, rfl, ?_⟩
    have same : s.waiting ++ [h] = waiting { s with heredocs := s.heredocs ++ [h] } :=
      List.append_assoc ..
    rw [same]
    exact leaves_take (s := { s.readied spaced waits with heredocs := s.heredocs ++ [h] }) stays
  | refuse | split => exact .inl trivial

/-- Where no line feed follows, and no brace that closes an interpolation. -/
theorem adds_step (head : s.cursor.rest.head? ≠ some '\n') (stays : s.closesInterpolation = false) :
    Adds s.waiting s.step := by
  have acts := s.acts
  generalize s.step = step at acts ⊢
  cases acts with
  | document | blank | join => exact .inl ⟨rfl, rfl, rfl⟩
  | refuse => exact .inl trivial
  | ends | mark => exact .inl leaves_finish
  | reads c r hr takes => exact takes.adds (fun hc => head (by rw [hr, hc]; rfl)) stays

/-- What closes an interpolation is a brace in a literal that has no brace of its own open. -/
theorem cursor_of_closing (h : s.closesInterpolation = true) : ∃ l outer r,
    s.suspended = l :: outer ∧ l.braces = 0 ∧ s.cursor.rest = '}' :: r := by
  unfold closesInterpolation at h
  split at h
  · cases h
  · next l outer hs =>
    rw [Bool.and_eq_true, beq_iff_eq, beq_iff_eq] at h
    obtain ⟨r, hr⟩ := List.head?_eq_some_iff.1 h.2
    exact ⟨l, outer, r, hs, h.1, hr⟩

/-- What closes an interpolation leaves what waits outside of it. -/
theorem leaves_step_closing (h : s.closesInterpolation = true) : Leaves s.outside s.step := by
  obtain ⟨l, outer, r, hs, braces, hr⟩ := cursor_of_closing h
  obtain ⟨spaced, hread⟩ := readToken_unnamed (s := s) (c := '}') (r := r) fun _ =>
    methodName?_eq_none (by decide) (by decide) (by decide) r
  have closing : Token.isPunct (s.cut .punct (s.cursor.rest.take 1) (s.behind .punct 0))
      rightBrace := by
    rw [hr]
    rfl
  rw [step_eq_readToken hr (.inl (by decide)) (by decide) (by decide)
    (not_atEndMark hr (by decide)), hread]
  exact leaves_settle_closing
    (s := { s.unnamed with spaced := spaced, cursor := s.behind .punct 0 }) hs braces closing

/-- Each step handles what waits. -/
theorem handles_step (h : s.step = .next found t) : s.Handles found t := by
  cases closes : s.closesInterpolation with
  | true =>
    have leaves := leaves_step_closing closes
    rw [h] at leaves
    obtain ⟨opened, bodies, waits⟩ := leaves
    exact .forgets opened bodies (by rw [forgotten, closes]; rfl) waits
  | false =>
    by_cases head : s.cursor.rest.head? = some '\n'
    · obtain ⟨r, hr⟩ := List.head?_eq_some_iff.1 head
      rw [step_of_lineFeed hr] at h
      obtain ⟨opened, read, waits⟩ := takeNewline_eq_next h
      exact .reads head opened read (forgotten_eq_nil closes (not_atEndMark hr (by decide))) waits
    · have adds := adds_step head closes
      rw [h] at adds
      have none : s.forgotten = [] := forgotten_eq_nil closes <| by
        -- at the end mark the walk would stop
        rw [Bool.eq_false_iff]
        intro mark
        rw [step_eq_finish_of_atEndMark mark] at h
        unfold finish at h
        split at h <;> cases h
      obtain ⟨opened, bodies, waits⟩ | ⟨d, next, hnext, leaves⟩ := adds
      · exact .leaves opened bodies none waits
      · cases next with
        | stop => cases hnext
        | next more u =>
          obtain ⟨rfl, rfl⟩ := Step.next.inj hnext
          obtain ⟨opened, bodies, waits⟩ := leaves
          exact .opens d (congrArg (d :: ·) opened) bodies none waits

/-! ## Complete walks -/

/-- At the end of a complete walk nothing is waiting but what is forgotten there. -/
theorem waiting_of_complete (h : s.step = .stop found .complete) :
    openedOf found = [] ∧ readOf found = [] ∧ s.waiting = s.forgotten := by
  obtain ⟨-, ends | ⟨mark, -⟩⟩ := stop_cases h
  · have heredocs := heredocs_of_end ends h
    rw [step_of_end ends heredocs] at h
    obtain ⟨hs, rfl⟩ := finish_eq_complete h
    refine ⟨rfl, rfl, ?_⟩
    rw [waiting, outside, hs, forgotten, heredocs, ite_self]
    rfl
  · rw [step_eq_finish_of_atEndMark mark] at h
    obtain ⟨hs, rfl⟩ := finish_eq_complete h
    refine ⟨rfl, rfl, ?_⟩
    rw [waiting, outside, hs, forgotten, mark, Bool.or_true]
    rfl

/-- One step of the account: what waits before it and what it opens is what it reads, what it
forgets and what waits behind it. -/
theorem Handles.perm (h : s.Handles found t) :
    (s.waiting ++ openedOf found).Perm (readOf found ++ s.forgotten ++ t.waiting) := by
  cases h with
  | leaves opened bodies none waits =>
    rw [opened, readOf_eq_nil bodies, none, waits, List.append_nil]
    rfl
  | opens h opened bodies none waits =>
    rw [opened, readOf_eq_nil bodies, none, waits]
    rfl
  | reads ahead opened bodies none waits =>
    rw [opened, bodies, none, waits, List.append_nil, List.append_nil]
    exact List.perm_append_comm
  | forgets opened bodies all waits =>
    rw [opened, readOf_eq_nil bodies, all, waits, List.append_nil, List.nil_append]
    exact List.perm_append_comm

/-- The account of a complete walk. -/
theorem exists_lost_of_complete (s : Tokenizer) (complete : s.run.ending = .complete) :
    ∃ lost, (s.waiting ++ openedOf s.run.found).Perm (readOf s.run.found ++ lost) ∧
      ∀ h, h ∈ lost ↔ ∃ t, Reaches s t ∧ h ∈ t.forgotten := by
  -- along the walk; what a step forgets is lost, and what is lost behind it
  induction s using walk_induction with
  | stop s found ending hstep =>
    rw [run_of_stop hstep] at complete ⊢
    subst complete
    obtain ⟨opened, read, waits⟩ := waiting_of_complete hstep
    refine ⟨s.forgotten, by rw [opened, read, waits, List.append_nil]; rfl, fun h =>
      ⟨fun hh => ?_, ?_⟩⟩
    · exact ⟨s, .here, hh⟩
    · rintro ⟨t, reach, ht⟩
      obtain rfl | ⟨_, _, hnext, -⟩ := reach.head
      · exact ht
      · rw [hstep] at hnext
        cases hnext
  | next s found t hstep ih =>
    rw [run_of_next hstep] at complete ⊢
    obtain ⟨lost, perm, mem⟩ := ih complete
    refine ⟨s.forgotten ++ lost, ?_, fun h => ?_⟩
    · rw [openedOf_append, readOf_append, ← List.append_assoc]
      have first := (handles_step hstep).perm.append_right (openedOf t.run.found)
      have later := perm.append_left (readOf found ++ s.forgotten)
      rw [← List.append_assoc] at later
      refine (first.trans later).trans ?_
      simp only [List.append_assoc]
      exact (List.perm_append_comm_assoc _ _ _).append_left _
    · rw [List.mem_append, mem]
      constructor
      · rintro (hh | ⟨u, reach, hu⟩)
        · exact ⟨s, .here, hh⟩
        · exact ⟨u, Reaches.trans (.step .here hstep) reach, hu⟩
      · rintro ⟨u, reach, hu⟩
        obtain rfl | ⟨_, _, hnext, reach⟩ := reach.head
        · exact .inl hu
        · rw [hstep] at hnext
          cases hnext
          exact .inr ⟨u, reach, hu⟩

/-- Nothing is lost just if nothing is forgotten. -/
theorem perm_iff_of_complete (waits : s.waiting = []) (complete : s.run.ending = .complete) :
    (openedOf s.run.found).Perm (readOf s.run.found) ↔ ∀ t, Reaches s t → t.forgotten = [] := by
  obtain ⟨lost, perm, mem⟩ := exists_lost_of_complete s complete
  rw [waits, List.nil_append] at perm
  constructor
  · intro kept t reach
    have none : lost = [] := by
      have length := perm.length_eq.symm.trans kept.length_eq
      rw [List.length_append] at length
      exact List.length_eq_zero_iff.1 (by omega)
    refine List.eq_nil_iff_forall_not_mem.2 fun h hh => ?_
    have lost := (mem h).2 ⟨t, reach, hh⟩
    rw [none] at lost
    cases lost
  · intro none
    have nothing : lost = [] := List.eq_nil_iff_forall_not_mem.2 fun h hh => by
      obtain ⟨t, reach, ht⟩ := (mem h).1 hh
      rw [none t reach] at ht
      cases ht
    rw [nothing, List.append_nil] at perm
    exact perm

/-- The bodies come in the order in which the here-documents were opened, if none is read inside an
interpolation while others wait outside of it. -/
theorem opened_eq_read (s : Tokenizer) (complete : s.run.ending = .complete)
    (kept : ∀ t, Reaches s t → t.forgotten = [])
    (inner : ∀ t, Reaches s t → t.cursor.rest.head? = some '\n' → t.heredocs = [] ∨
      t.outside = []) :
    s.waiting ++ openedOf s.run.found = readOf s.run.found := by
  induction s using walk_induction with
  | stop s found ending hstep =>
    rw [run_of_stop hstep] at complete ⊢
    subst complete
    obtain ⟨opened, read, waits⟩ := waiting_of_complete hstep
    rw [opened, read, waits, kept s .here]
    rfl
  | next s found t hstep ih =>
    rw [run_of_next hstep] at complete ⊢
    have behind {u : Tokenizer} (reach : Reaches t u) : Reaches s u :=
      Reaches.trans (.step .here hstep) reach
    have rest := ih complete (fun u reach => kept u (behind reach))
      (fun u reach => inner u (behind reach))
    rw [openedOf_append, readOf_append, ← rest]
    -- what waits comes first, so that a step must not read what came later before it
    cases handles_step hstep with
    | leaves opened bodies none waits => rw [opened, readOf_eq_nil bodies, waits]; rfl
    | opens h opened bodies none waits =>
      rw [opened, readOf_eq_nil bodies, waits, List.append_assoc]
      rfl
    | reads ahead opened bodies none waits =>
      rw [opened, bodies, waits, waiting]
      obtain none | none := inner s .here ahead
      · rw [none, List.append_nil]
        rfl
      · rw [none]
        rfl
    | forgets opened bodies all waits =>
      rw [opened, readOf_eq_nil bodies, waits, waiting, ← all, kept s .here, List.append_nil]
      rfl

end Tokenizer

end Marginalia.Source
