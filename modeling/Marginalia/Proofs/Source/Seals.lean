import Marginalia.Proofs.Source.Insertion

/-!
# What the steps seal

What a step of the tokenizer finds besides tokens (`Tokenizer.seals_step`): the lines of an embedded
document, a line that a backslash joins to the next, the lines from the end mark on, or nothing that
is sealed; and at a line feed the bodies of the here-documents that wait
(`Tokenizer.bodies_of_next`).
-/

namespace Marginalia.Source

/-- Lines and their parts have one line feed at most. -/
theorem lineFeeds_flatten_le {ps : List Text} (h : ∀ q ∈ ps, Text.IsLine q ∨ '\n' ∉ q) :
    Text.lineFeeds ps.flatten ≤ ps.length := by
  induction ps with
  | nil => exact Nat.le_refl 0
  | cons q qs ih =>
    obtain ⟨here, later⟩ := List.forall_mem_cons.1 h
    have first : Text.lineFeeds q ≤ 1 :=
      here.elim (fun line => Nat.le_of_eq (Text.lineFeeds_isLine line))
      fun none => by rw [Text.lineFeeds_eq_zero none]; exact Nat.zero_le 1
    have others := ih later
    rw [List.flatten_cons, Text.lineFeeds_append, List.length_cons]
    omega

/-- What a step finds. -/
def Step.found : Step → List Finding
  | .next found _ => found
  | .stop found _ => found

namespace Tokenizer

variable {s t u : Tokenizer} {found : List Finding} {n : Nat}

/-! ## What a step seals -/

/-- What is found in some walk is found in one of its steps. -/
theorem mem_found_run_iff {f : Finding} :
    f ∈ s.run.found ↔ ∃ t, Reaches s t ∧ f ∈ t.step.found := by
  constructor
  · -- along the walk, each step has its own findings
    induction s using walk_induction with
    | stop s found ending h =>
      rw [run_of_stop h]
      exact fun hf => ⟨s, .here, by rw [h]; exact hf⟩
    | next s found u h ih =>
      rw [run_of_next h]
      intro hf
      rcases List.mem_append.1 hf with hf | hf
      · exact ⟨s, .here, by rw [h]; exact hf⟩
      · obtain ⟨t, reach, hf⟩ := ih hf
        exact ⟨t, Reaches.trans (.step .here h) reach, hf⟩
  · rintro ⟨t, reach, hf⟩
    obtain ⟨before, hrun⟩ := reach.run_eq
    rw [hrun]
    refine List.mem_append_right _ ?_
    cases h : t.step with
    | next found u =>
      rw [h] at hf
      rw [run_of_next h]
      exact List.mem_append_left _ hf
    | stop found ending =>
      rw [h] at hf
      rw [run_of_stop h]
      exact hf

/-- A step that goes on without sealing lines, or that ends the walk with a refusal. How many lines
the program has stays known. -/
def Unsealed (count : Nat) : Step → Prop
  | .next found s => s.lineCount = count ∧ ∀ lines, .sealed lines ∉ found
  | .stop _ ending => ending ≠ .complete

theorem Unsealed.prepend {count : Nat} {step : Step} (h : Unsealed count step)
    (none : ∀ lines, .sealed lines ∉ found) : Unsealed count (step.prepend found) := by
  cases step with
  | stop => exact h
  | next more u => exact ⟨h.1, fun lines hl => (List.mem_append.1 hl).elim (none lines) (h.2 lines)⟩

theorem unsealed_record (k : Token) : Unsealed s.lineCount (s.record k) := by
  refine ⟨rfl, fun lines hl => ?_⟩
  split at hl
  · cases List.mem_singleton.1 hl
  · cases hl

theorem ReadsOn.unsealed {l : OpenLiteral} {step : Step} (h : s.ReadsOn l step) :
    Unsealed s.lineCount step := by
  cases h with
  | closed => exact unsealed_record (s := { s with cursor := _ }) _
  | interpolation => exact ⟨rfl, fun _ => List.not_mem_nil⟩
  | unterminated | split => nofun

theorem Settles.unsealed {k : Token} {step : Step} (h : s.Settles k step) :
    Unsealed s.lineCount step := by
  cases h with
  | record => exact unsealed_record k
  | count => exact unsealed_record (s := { s with suspended := _ }) k
  | close l outer =>
    exact (readsOn { s with suspended := outer, heredocs := _, memory := _ } l).unsealed

/-- Bodies are read, not sealed. -/
theorem unsealed_readBodies (hs : List Heredoc) (line : Nat) (r : Text) :
    ∀ lines, .sealed lines ∉ (readBodies hs line r).1 := by
  induction hs generalizing line r with
  | nil => exact fun _ => List.not_mem_nil
  | cons h hs ih =>
    unfold readBodies
    split
    · exact fun _ => List.not_mem_nil
    · intro lines hl
      rcases List.mem_cons.1 hl with hl | hl
      · cases hl
      · exact ih _ _ lines hl

theorem Breaks.unsealed {step : Step} (h : s.Breaks step) : Unsealed s.lineCount step := by
  cases h with
  | unterminated => nofun
  | below bodies length lines behind read =>
    have none := unsealed_readBodies s.heredocs (s.cursor.advance 1).line (s.cursor.advance 1).rest
    rw [read] at none
    exact (unsealed_record (s := { s with cursor := behind, heredocs := [] }) _).prepend none

/-- What a character starts seals nothing. -/
theorem Takes.unsealed {c : Char} {r : Text} {step : Step} (h : s.Takes c r step) :
    Unsealed s.lineCount step := by
  cases h with
  | name kind more pending =>
    exact (settles { s.readied s.spaced pending with cursor := _ } _).unsealed
  | token spaced waits kind more =>
    exact (settles { s.readied spaced waits with cursor := _ } _).unsealed
  | newline spaced waits => exact (breaks (s.readied spaced waits)).unsealed
  | literal spaced waits => exact (readsOn { s.readied spaced waits with cursor := _ } _).unsealed
  | heredoc spaced waits more h =>
    exact (settles { s.readied spaced waits with heredocs := s.heredocs ++ [h], cursor := _ }
      _).unsealed.prepend
      fun _ hl => nomatch List.mem_singleton.1 hl
  | refuse | split => nofun

/-- What the steps seal: the lines of an embedded document, a line that is joined to the next, and
those from the end mark on. -/
inductive Seals (s : Tokenizer) : Step → Prop where
  | document {n : Nat} (h : s.document? = some n) :
      Seals s (.next [.sealed
        ⟨s.cursor.line, s.cursor.line + Text.lineFeeds (s.cursor.rest.take n)⟩]
        { s with cursor := s.cursor.advance n })
  | joined {sep : Text} (join : sep ∈ joins) (ahead : sep <+: s.cursor.rest) :
      Seals s (.next [.sealed ⟨s.cursor.line, s.cursor.line⟩] (s.skip sep.length))
  | ended (mark : s.atEndMark) :
      Seals s (.stop [.sealed ⟨s.cursor.line, max s.lineCount s.cursor.line⟩,
        .token (s.cut .eof [] s.cursor)] .complete)
  | finished : Seals s (.stop [.token (s.cut .eof [] s.cursor)] .complete)
  | reads {step : Step} (unsealed : Unsealed s.lineCount step) : Seals s step

/-- An embedded document is sealed, with the line that closes it. -/
theorem step_of_document (h : s.document? = some n) :
    s.step = .next [.sealed ⟨s.cursor.line, s.cursor.line + Text.lineFeeds (s.cursor.rest.take n)⟩]
      { s with cursor := s.cursor.advance n } := by
  unfold document? at h
  split at h
  · next ahead =>
    obtain ⟨⟨length, lines⟩, hdoc, rfl⟩ := Option.map_eq_some_iff.1 h
    rw [(lineFeeds_embeddedDocument? hdoc).1]
    cases hr : s.cursor.rest with
    | nil =>
      rw [hr] at hdoc
      cases hdoc
    | cons c r =>
      rw [hr] at ahead hdoc
      unfold step
      rw [hr]
      dsimp only
      rw [if_pos ahead, hdoc]
  · cases h

/-- An embedded document starts with an equals sign. -/
theorem head?_of_document (h : s.document? = some n) : s.cursor.rest.head? = some '=' := by
  unfold document? at h
  split at h
  · next begins =>
    obtain ⟨r, hr, -⟩ := exists_of_wordAhead (Bool.and_eq_true_iff.1 begins).2
    rw [hr]
    rfl
  · cases h

/-- A line that is joined to the next is sealed. -/
theorem step_of_join {sep : Text} (join : sep ∈ joins) (ahead : sep <+: s.cursor.rest) :
    s.step = .next [.sealed ⟨s.cursor.line, s.cursor.line⟩] (s.skip sep.length) := by
  obtain ⟨r, hr⟩ := ahead
  have noDocument : ∀ x, wordAhead "=begin" wordEnds ('\\' :: x) = false := fun _ => rfl
  have noMark : ∀ x, wordAhead "__END__" lineEnds ('\\' :: x) = false := fun _ => rfl
  rw [joins, List.mem_cons, List.mem_singleton] at join
  unfold step
  rw [← hr]
  rcases join with rfl | rfl
  all_goals
    dsimp only [List.cons_append, List.nil_append]
    rw [noDocument, noMark, Bool.and_false, if_neg Bool.false_ne_true, if_neg Bool.false_ne_true]
    rfl

/-- Each step seals what it should. -/
theorem seals_step (s : Tokenizer) : s.Seals s.step := by
  have acts := s.acts
  generalize s.step = step at acts ⊢
  cases acts with
  | document length lines begins document =>
    rw [← (lineFeeds_embeddedDocument? document).1]
    refine .document ?_
    unfold document?
    rw [if_pos begins, document]
    rfl
  | blank => exact .reads ⟨rfl, fun _ => List.not_mem_nil⟩
  | join sep join ahead => exact .joined join ahead
  | refuse => exact .reads (by nofun)
  | ends =>
    unfold finish
    split
    · exact .finished
    · exact .reads (by nofun)
  | mark mark =>
    unfold finish
    split
    · exact .ended mark
    · exact .reads (by nofun)
  | reads c r hr takes => exact .reads takes.unsealed

/-- A step leaves the count of lines. -/
theorem lineCount_of_next (h : s.step = .next found u) : u.lineCount = s.lineCount := by
  have seals := seals_step s
  rw [h] at seals
  cases seals with
  | document | joined => rfl
  | reads unsealed => exact unsealed.1

/-- Wherever the walk comes, the count of lines is the same. -/
theorem lineCount_of_reaches (h : Reaches s t) : t.lineCount = s.lineCount := by
  induction h with
  | here => rfl
  | step _ hstep ih => exact (lineCount_of_next hstep).trans ih

/-! ## Bodies of here-documents -/

/-- Bodies have no more line feeds than lines. -/
theorem lineFeeds_readBodies_le {hs : List Heredoc} {line : Nat} {t : Text} {length lines : Nat}
    (h : readBodies hs line t = (found, .ok (length, lines))) :
    Text.lineFeeds (t.take length) ≤ lines := by
  induction hs generalizing line t found length lines with
  | nil =>
    cases h
    exact Nat.le_refl 0
  | cons d ds ih =>
    obtain ⟨n, k, bodies, m, j, hb, hrest, rfl, rfl, rfl⟩ := readBodies_cons_eq_ok.1 h
    have others := ih hrest
    obtain ⟨i, -, rfl, rfl⟩ := body?_eq_some hb
    have whole : ((Text.pieces t).take (i + 1)).flatten ++
        ((Text.pieces t).drop (i + 1)).flatten = t := by
      rw [← List.flatten_append, List.take_append_drop, Text.flatten_pieces]
    have first : t.take ((Text.pieces t).take (i + 1)).flatten.length =
        ((Text.pieces t).take (i + 1)).flatten := by
      conv => lhs; arg 2; rw [← whole]
      exact List.take_left
    have parts : ∀ q ∈ (Text.pieces t).take (i + 1), Text.IsLine q ∨ '\n' ∉ q := fun q hq =>
      Text.notMem_of_mem_pieces (List.mem_of_mem_take hq)
    have count := lineFeeds_flatten_le parts
    rw [List.length_take] at count
    rw [List.take_add, Text.lineFeeds_append, first]
    omega

/-- Each body lies within the lines that are read. -/
theorem within_readBodies {hs : List Heredoc} {line : Nat} {t : Text} {length lines : Nat}
    (h : readBodies hs line t = (found, .ok (length, lines))) {d : Heredoc} {r : LineRange}
    (hr : .heredocRead d r ∈ found) : line ≤ r.first ∧ r.last < line + lines := by
  induction hs generalizing line t found length lines with
  | nil =>
    cases h
    cases hr
  | cons e es ih =>
    obtain ⟨n, k, bodies, m, j, hb, hrest, rfl, rfl, rfl⟩ := readBodies_cons_eq_ok.1 h
    obtain ⟨i, -, -, rfl⟩ := body?_eq_some hb
    rcases List.mem_cons.1 hr with hr | hr
    · cases hr
      dsimp only
      omega
    · have others := ih hrest hr
      omega

/-- What is found at a line feed: the bodies of the here-documents that wait, and the end of the
line. -/
theorem bodies_of_next {r : Text} (hr : s.cursor.rest = '\n' :: r) (h : s.step = .next found u) :
    ∃ bodies length lines ts, readBodies s.heredocs (s.cursor.line + 1) r =
      (bodies, .ok (length, lines)) ∧
      u.cursor.line = s.cursor.line + 1 + lines ∧ u.cursor.rest = r.drop length ∧
      found = bodies ++ ts ∧ ∀ f ∈ ts, ∃ k, f = .token k := by
  have below : s.cursor.advance 1 = ⟨r, s.cursor.position + 1, s.cursor.line + 1, true⟩ := by
    unfold Cursor.advance
    rw [hr]
    rfl
  rw [step_of_lineFeed hr] at h
  obtain ⟨bodies, length, lines, behind, read, rfl, rfl, rfl⟩ := exists_of_takeNewline h
  rw [show s.unnamed.cursor = s.cursor from rfl, show s.unnamed.heredocs = s.heredocs from rfl,
    below] at read
  rw [show s.unnamed.cursor = s.cursor from rfl, below]
  refine ⟨bodies, length, lines, _, read, rfl, Cursor.rest_advance _ _, rfl, fun f hf => ?_⟩
  split at hf
  · exact ⟨_, List.mem_singleton.1 hf⟩
  · cases hf

end Tokenizer

end Marginalia.Source
