import Mathlib.Data.List.Forall2
import Marginalia.Proofs.Annotation.Remains
import Marginalia.Proofs.Source.Stripped

/-!
# Removal twice

Where no comment of a program is an annotation (`Plain`), removal leaves it as it is, and only there
(`removeAnnotations_eq_self_iff`). What removal leaves of a program need not be such a program: code
is read otherwise once the blanks behind it are cut off, and what was a literal may come to light as
an annotation. If the annotations are set apart from what stands before them (`Detached`), this does
not happen, and what is left has settled (`removeAnnotations_settles`).
-/

namespace Marginalia

open Source

variable {body cleaned piece code blanks y p q : Text} {before after : List Text} {m : Markers}
  {s : Scan} {c : Comment} {k : Kept} {fates : List Kept}

/-! ## Programs without annotations -/

/-- No comment of a program is an annotation. A program that is refused has none. -/
def Plain (body : Text) (m : Markers) : Prop := ∃ answer, scan body = .ok answer ∧
  ∀ s, answer = .ok s → ∀ c ∈ s.layout.comments, ¬ m.isAnnotation (c.text body)

/-- A line stays as it is, or it gets shorter. -/
theorem Fate.whole_or_lt (accepted : scan body = .ok (.ok s))
    (fate : Fate body s.layout m before piece k) :
    k = .whole piece ∨ k.text.length < piece.length := by
  cases fate with
  | whole => exact .inl rfl
  | @cut code blanks c noted =>
    right
    -- the hash is no part of the end of the line
    obtain ⟨-, hash, -⟩ := comment_text_of_scan accepted noted.mem
    obtain ⟨r, hr⟩ := List.head?_eq_some_iff.1 hash
    obtain ⟨feed, -, split⟩ := noted.split
    rw [hr, List.append_assoc, List.cons_append] at split
    have front : Text.lineText piece = code ++ blanks ++ Text.lineText ('#' :: (r ++ feed)) := by
      rw [split, Text.lineText_append_visible _ (by decide)]
    have some : Text.lineText ('#' :: (r ++ feed)) ≠ [] := fun none => by
      have blank := List.rdropWhile_eq_nil_iff.1 none '#' List.mem_cons_self
      cases blank
    have pos := List.length_pos_iff.2 some
    have whole := congrArg List.length (Text.lineText_append_terminator piece)
    rw [front, List.length_append, List.length_append, List.length_append] at whole
    show (code ++ Text.terminator piece).length < piece.length
    rw [List.length_append]
    omega
  | noted noted =>
    right
    have := noted.starts accepted
    show 0 < piece.length
    omega
  | empty empty =>
    right
    rcases empty with rfl | rfl
    all_goals decide

/-- If no line gets longer, and the text does not get shorter, all lines stay as they are. -/
theorem whole_of_length {ks : List Kept} {ps : List Text}
    (h : List.Forall₂ (fun k p => k = .whole p ∨ k.text.length < p.length) ks ps) :
    (ks.flatMap Kept.text).length ≤ ps.flatten.length ∧
      ((ks.flatMap Kept.text).length = ps.flatten.length → ks = ps.map .whole) := by
  induction h with
  | nil => exact ⟨Nat.le_refl _, fun _ => rfl⟩
  | @cons k p ks ps first _ ih =>
    rw [List.flatMap_cons, List.flatten_cons, List.length_append, List.length_append]
    rcases first with rfl | lt
    · have same : (Kept.whole p).text = p := rfl
      rw [same]
      exact ⟨Nat.add_le_add_left ih.1 _, fun h => congrArg _ (ih.2 (Nat.add_left_cancel h))⟩
    · exact ⟨by omega, fun h => by omega⟩

/-- Removal leaves a program as it is just if none of its comments is an annotation. -/
theorem removeAnnotations_eq_self_iff : removeAnnotations body m = .ok body ↔ Plain body m := by
  constructor
  · intro removes
    obtain ⟨e, hscan, -⟩ | ⟨s, hscan, -⟩ := removeAnnotations_eq_ok removes
    · exact ⟨_, hscan, fun _ h => nomatch h⟩
    · refine ⟨.ok s, hscan, ?_⟩
      rintro _ ⟨⟩ c hc marked
      obtain ⟨fates, pared, text⟩ := exists_pared hscan removes
      have each : List.Forall₂ (fun k p => k = .whole p ∨ k.text.length < p.length) fates
          (Text.pieces body) := by
        refine List.forall₂_iff_get.2 ⟨pared.length, fun j hj hj' => ?_⟩
        obtain ⟨before, piece, after, hp, rfl, fate⟩ :=
          pared.exists_line (List.getElem?_eq_getElem hj)
        have here : (Text.pieces body)[before.length] = piece := by
          simp only [hp, List.getElem_append_right (Nat.le_refl _), Nat.sub_self,
            List.getElem_cons_zero]
        have alone := fate.whole_or_lt hscan
        rw [← here] at alone
        exact alone
      have whole := (whole_of_length each).2 (by rw [← text, Text.flatten_pieces])
      -- the line on which the annotation starts would stay
      obtain ⟨before, piece, after, hp, stands⟩ := Text.exists_piece (start_lt_of_scan hscan hc)
      obtain ⟨k, hk, fate⟩ := pared.fate before piece after hp
      rw [whole, hp, List.getElem?_map, List.getElem?_append_right (Nat.le_refl _), Nat.sub_self]
        at hk
      cases hk
      cases fate with
      | whole unmarked => exact unmarked c hc marked stands
  · rintro ⟨answer, hscan, plain⟩
    cases answer with
    | error e =>
      rw [removeAnnotations, hscan]
      rfl
    | ok s =>
      have plain := plain s rfl
      obtain ⟨text, removed⟩ := (removeWith_answers_iff hscan).2
        fun c hc marked => absurd marked (plain c hc)
      have removes := (removeAnnotations_of_scan m hscan).trans removed
      obtain ⟨fates, pared, rfl⟩ := exists_pared hscan removes
      rw [removes, pared.text_of_plain plain]

/-! ## Annotations that are set apart -/

/-- Of the code that is ahead of a state on its line, before some text, nothing depends on what
follows it: it is no hinge, and no backslash. -/
def Source.Tokenizer.Decided (t : Tokenizer) (a : Text) : Prop := ∀ i < t.cursor.rest.length,
  t.cursor.rest.drop (i + 1) = a → '\n' ∉ t.cursor.rest.take (i + 1) →
    Lexeme.hinges t.memory (t.cursor.rest.take (i + 1)) = false ∧
      t.cursor.rest.take (i + 1) ≠ ['\\']

instance (t : Tokenizer) (a : Text) : Decidable (t.Decided a) :=
  inferInstanceAs (Decidable (∀ i < t.cursor.rest.length, _))

/-- In an accepted program, annotations are set apart from what stands before them. -/
structure Detached (body : Text) (s : Scan) (m : Markers) : Prop where
  /-- An annotation has spaces and tabs before it, and behind code at least one. -/
  blanks : ∀ before piece after code blanks c, Text.pieces body = before ++ piece :: after →
    Noted body s.layout m before.flatten.length piece code blanks c →
      Spaces blanks ∧ (code ≠ [] → blanks ≠ [])
  /-- The code before an annotation depends on nothing that follows it. -/
  code : ∀ before piece after code blanks c, Text.pieces body = before ++ piece :: after →
    Noted body s.layout m before.flatten.length piece code blanks c → code ≠ [] →
      ∀ t, Tokenizer.Reaches (.ofSource body) t → t.Decided (blanks ++ body.drop c.start)
  /-- A line that goes is the first, or starts behind a token that is the end of a line. -/
  starts : ∀ before piece after, Text.pieces body = before ++ piece :: after →
    Fate body s.layout m before piece .dropped →
      before = [] ∨ ∃ t ∈ (tokenize body).tokens, t.kind = .newline ∧ t.stop = before.flatten.length

/-- The places at which something of a program is removed. -/
def gaps (body : Text) (l : Layout) (m : Markers) : Places where
  comments a := ∃ c ∈ l.comments, m.isAnnotation (c.text body) ∧ a = body.drop c.start
  ends a := ∃ before piece after code blanks c, Text.pieces body = before ++ piece :: after ∧
    Noted body l m before.flatten.length piece code blanks c ∧ code ≠ [] ∧
      a = body.drop (before.flatten.length + code.length)
  lines a := ∃ before piece after, Text.pieces body = before ++ piece :: after ∧
    Fate body l m before piece .dropped ∧ a = body.drop before.flatten.length

/-- What stands on a line with an annotation, and what follows. -/
theorem Noted.exists_split (accepted : scan body = .ok (.ok s))
    (hp : Text.pieces body = before ++ piece :: after)
    (h : Noted body s.layout m before.flatten.length piece code blanks c) : ∃ r feed : Text, '\n' ∉
    r ∧ (feed = [] ∧ after = [] ∨ feed = ['\n']) ∧ piece = code ++ (blanks ++ '#' :: (r ++ feed)) ∧
      body.drop c.start = '#' :: (r ++ (feed ++ after.flatten)) ∧
      body.drop (before.flatten.length + code.length) = blanks ++ body.drop c.start := by
  obtain ⟨text, hash, -⟩ := comment_text_of_scan accepted h.mem
  obtain ⟨r, hr⟩ := List.head?_eq_some_iff.1 hash
  obtain ⟨feed, hfeed, split⟩ := h.split
  have line : '\n' ∉ r :=
    fun hm => lineFeed_notMem_takeWhile _ (text ▸ hr ▸ List.mem_cons_of_mem _ hm)
  rw [hr, List.append_assoc, List.append_assoc, List.cons_append] at split
  have whole : body =
      before.flatten ++ (code ++ (blanks ++ '#' :: (r ++ (feed ++ after.flatten)))) := by
    rw [← Text.flatten_pieces body, hp, List.flatten_append, List.flatten_cons, split]
    simp only [List.append_assoc, List.cons_append]
  have behind : body.drop (before.flatten.length + code.length) =
      blanks ++ '#' :: (r ++ (feed ++ after.flatten)) := by
    rw [whole, ← List.append_assoc, ← List.length_append, List.drop_left]
  have comment : body.drop c.start = '#' :: (r ++ (feed ++ after.flatten)) := by
    rw [h.place, List.length_append, ← Nat.add_assoc, ← List.drop_drop, behind, List.drop_left]
  refine ⟨r, feed, line, ?_, split, comment, comment ▸ behind⟩
  rcases hfeed with rfl | rfl
  · cases after with
    | nil => exact .inl ⟨rfl, rfl⟩
    | cons next after =>
      -- a line that another follows ends in a line feed
      exfalso
      rw [List.append_cons] at hp
      obtain ⟨u, -, hu⟩ :=
        Text.isLine_before hp piece (List.mem_append_right before List.mem_cons_self)
      have last := congrArg List.getLast? (split.symm.trans hu)
      rw [← List.append_assoc, List.getLast?_append_of_ne_nil _ (List.cons_ne_nil _ _),
        List.getLast?_concat, List.append_nil] at last
      exact (List.mem_cons.1 (List.mem_of_getLast? last)).elim (by decide) line
  · exact .inr rfl

/-- Code ends within a line. -/
theorem not_ends_of_start (accepted : scan body = .ok (.ok s))
    (hp : Text.pieces body = before ++ after) :
    ¬ (gaps body s.layout m).ends after.flatten := by
  rintro ⟨before', piece', after', code, blanks, c, hp', noted, some, same⟩
  obtain ⟨r, feed, -, -, split, comment, behind⟩ := noted.exists_split accepted hp'
  have whole := Text.flatten_of_pieces hp
  have length := congrArg List.length same
  have rest := congrArg List.length behind
  have total := congrArg List.length whole
  have pos := List.length_pos_iff.2 some
  have within := congrArg List.length split
  rw [comment] at rest
  rw [List.length_append] at total within
  rw [List.length_append, List.length_cons] at rest within
  rw [List.length_drop] at length rest
  have place : before.flatten.length = before'.flatten.length + code.length := by omega
  cases after with
  | nil =>
    rw [List.flatten_nil, List.length_nil] at length
    omega
  | cons piece after =>
    have inside : before.flatten.length < body.length := by omega
    have here := (Text.lineFeeds_take_iff hp inside).1
      ⟨Nat.le_refl _, Nat.lt_add_of_pos_right
        (List.length_pos_iff.2 (Text.ne_nil_of_mem_pieces (t := body) (by
        rw [hp]
        exact List.mem_append_right before List.mem_cons_self)))⟩
    have there := (Text.lineFeeds_take_iff hp' inside).1 ⟨by omega, by omega⟩
    obtain ⟨rfl, -⟩ := List.append_inj (hp.symm.trans hp') (here.symm.trans there)
    omega

/-- A line that goes is not empty, and starts behind no code. -/
theorem not_ends_of_lines (accepted : scan body = .ok (.ok s))
    (gone : (gaps body s.layout m).lines p) :
    p ≠ [] ∧ ¬ (gaps body s.layout m).ends p := by
  obtain ⟨before, piece, after, hp, -, rfl⟩ := gone
  rw [Text.drop_of_pieces hp]
  refine ⟨?_, not_ends_of_start accepted hp⟩
  refine List.append_ne_nil_of_left_ne_nil (Text.ne_nil_of_mem_pieces (t := body) ?_) _
  rw [hp]
  exact List.mem_append_right before List.mem_cons_self

/-- A comment in a gap is an annotation of the program. -/
theorem start_of_comments (accepted : scan body = .ok (.ok s)) {u a : Text} (whole : body = u ++ a)
    (comment : (gaps body s.layout m).comments a) :
    ∃ c ∈ s.layout.comments, m.isAnnotation (c.text body) ∧ c.start = u.length := by
  obtain ⟨c, hc, marked, same⟩ := comment
  have inside := start_lt_of_scan accepted hc
  have length := congrArg List.length same
  have total := congrArg List.length whole
  rw [List.length_drop] at length
  rw [List.length_append] at total
  exact ⟨c, hc, marked, by omega⟩

/-! ## What is left -/

/-- Nothing is shared. -/
theorem common_nil (stripped : Stripped (gaps body s.layout m) p q) :
    Common (gaps body s.layout m) [] p q :=
  ⟨.inl (.inl rfl), fun _ => .inl rfl, fun _ _ h => (nomatch h),
    fun _ _ h hz => absurd (List.append_eq_nil_iff.1 h.symm).2 hz, stripped⟩

section Left

variable (accepted : scan body = .ok (.ok s))
  (counted : ∀ c ∈ s.layout.comments, m.isAnnotation (c.text body) → Counted body c.start)
  (detached : Detached body s m) (hp : Text.pieces body = before ++ piece :: after)
  (split : after.flatten = y ++ p) (common : Common (gaps body s.layout m) y p q)

include accepted hp split common in
/-- A line that stays is shared. -/
theorem common_of_whole (unmarked : Unmarked body s.layout m before.flatten.length piece) :
    Common (gaps body s.layout m) (piece ++ y) p q := by
  obtain ⟨seam, starts, visible, plain, stripped⟩ := common
  have below : Text.pieces body = before ++ [piece] ++ after := by
    rw [hp, List.append_assoc]
    rfl
  -- only the last line need not be finished
  have finished : Text.Closed piece ∨ y = [] ∧ p = [] := by
    rcases Text.isLine_or_last hp with line | ⟨-, length⟩
    · exact .inl line.closed
    · right
      have none := congrArg List.length (Text.drop_of_pieces below)
      rw [List.length_drop, List.flatten_append, List.length_append, List.flatten_singleton, length,
        Nat.sub_self] at none
      exact List.append_eq_nil_iff.1 (split ▸ List.eq_nil_of_length_eq_zero none.symm)
  refine ⟨?_, fun gone => ?_, fun ends c hc => ?_, fun x z hx hz comment => ?_, stripped⟩
  · rcases finished with line | ⟨-, rfl⟩
    · exact seam.imp_left line.append
    · exact .inr ⟨stops_nil, stripped.eq_nil rfl ▸ stops_nil, fun _ => stripped.eq_nil rfl⟩
  · rcases finished with line | ⟨-, none⟩
    · exact line.append (starts gone)
    · exact absurd none (not_ends_of_lines accepted gone).1
  · by_cases hy : y = []
    · rw [hy, List.nil_append] at split
      exact absurd ends (split ▸ not_ends_of_start accepted below)
    · rw [List.getLast?_append_of_ne_nil _ hy] at hc
      exact visible ends c hc
  · rcases List.append_eq_append_iff.1 hx with ⟨x', rfl, hy⟩ | ⟨e, rfl, rfl⟩
    · exact plain x' z hy hz comment
    · by_cases here : e = []
      · rw [here, List.nil_append] at hz comment
        exact plain [] y rfl hz comment
      · -- the comment would start on the line
        have behind : body = before.flatten ++ x ++ (e ++ y ++ p) := by
          rw [List.append_assoc, List.append_assoc e, ← List.append_assoc x, ← split]
          exact (Text.flatten_of_pieces hp).symm
        obtain ⟨c, hc, marked, start⟩ := start_of_comments accepted behind comment
        have pos := List.length_pos_iff.2 here
        rw [List.length_append] at start
        refine unmarked c hc marked ⟨by omega, ?_⟩
        rw [List.length_append]
        omega

include accepted counted detached hp split common in
/-- Of a line that is cut, the code is shared. -/
theorem common_of_cut (noted : Noted body s.layout m before.flatten.length piece code blanks c)
    (full : code ≠ []) : ∃ a, piece ++ after.flatten = code ++ a ∧
      Common (gaps body s.layout m) code a (Text.terminator piece ++ (y ++ q)) := by
  obtain ⟨r, feed, line, hfeed, hpiece, comment, behind⟩ := noted.exists_split accepted hp
  obtain ⟨spaces, apart⟩ := detached.blanks before piece after code blanks c hp noted
  have apart := apart full
  have ends : (gaps body s.layout m).ends (blanks ++ body.drop c.start) :=
    ⟨before, piece, after, code, blanks, c, hp, noted, full, behind.symm⟩
  have gone : (gaps body s.layout m).comments (body.drop c.start) :=
    ⟨c, noted.mem, noted.marked, rfl⟩
  have whole : piece ++ after.flatten = code ++ (blanks ++ body.drop c.start) := by
    rw [comment, hpiece]
    simp only [List.append_assoc, List.cons_append]
  -- behind the annotation stand returns at most, and then the line feed
  have terminator : ∃ u : Text, (∀ c ∈ u, c = '\r') ∧ Text.terminator piece = u ++ feed := by
    have hash : '\n' ∉ '#' :: r := List.not_mem_cons_of_ne_of_not_mem (by decide) line
    obtain ⟨u, returns, hu⟩ := Text.exists_terminator hash (hfeed.imp_left And.left)
    refine ⟨u, returns, ?_⟩
    rw [hpiece, ← List.append_assoc, Text.terminator_append_visible _ (by decide)]
    exact hu
  obtain ⟨u, returns, hu⟩ := terminator
  have stripped : Stripped (gaps body s.layout m) (blanks ++ body.drop c.start)
      (Text.terminator piece ++ (y ++ q)) := by
    rw [comment, split] at ends gone ⊢
    rcases hfeed with ⟨rfl, rfl⟩ | rfl
    · -- nothing follows the last line
      obtain ⟨rfl, rfl⟩ := List.append_eq_nil_iff.1 split.symm
      obtain ⟨-, -, -, -, ended⟩ := common
      rw [ended.eq_nil rfl, hu]
      simp only [List.append_nil] at ends gone ⊢
      exact .last ends gone spaces apart line returns
    · rw [hu, List.append_assoc]
      exact .cut (y := y) (p := p) ends gone spaces apart line returns common
  -- the code ends before the blanks, so that no lexeme reaches into the gap
  have goesOn : blanks ++ body.drop c.start ≠ [] := List.append_ne_nil_of_left_ne_nil apart _
  have within : ¬ (gaps body s.layout m).lines (blanks ++ body.drop c.start) := fun lines =>
    (not_ends_of_lines accepted lines).2 ends
  have stops : Stops (Text.terminator piece ++ (y ++ q)) := by
    obtain none | ⟨-, lines⟩ | ⟨_, _, -, -, -, -, -, ended⟩ := stripped.cases_place
    · exact absurd none goesOn
    · exact absurd lines within
    · rcases ended with none | ended
      · rw [none]
        exact stops_nil
      · exact ended.stops
  refine ⟨_, whole, .inr ⟨spaces.stops apart _, stops, fun none => absurd none goesOn⟩,
    fun lines => absurd lines within, fun _ c hc => isAsciiBlank_eq_false (noted.visible c hc),
    fun x z hx hz first => ?_, stripped⟩
  · -- the annotation is the only one of its line
    have behind : body = before.flatten ++ x ++ (z ++ (blanks ++ body.drop c.start)) := by
      rw [List.append_assoc, ← List.append_assoc x, ← hx, ← whole]
      exact (Text.flatten_of_pieces hp).symm
    obtain ⟨d, hd, marked, start⟩ := start_of_comments accepted behind first
    have place := noted.place
    have stands := noted.starts accepted
    have pos := List.length_pos_iff.2 hz
    rw [hx, List.length_append, List.length_append] at place
    rw [List.length_append] at start
    have same := noted.only accepted counted hp hd ⟨by omega, by omega⟩
    rw [same] at start
    omega

include accepted detached hp split common in
/-- Of a line that goes, nothing is shared. -/
theorem common_of_noted (noted : Noted body s.layout m before.flatten.length piece [] blanks c) :
    Common (gaps body s.layout m) [] (piece ++ after.flatten) (y ++ q) := by
  obtain ⟨r, feed, line, hfeed, hpiece, comment, behind⟩ := noted.exists_split accepted hp
  obtain ⟨spaces, -⟩ := detached.blanks before piece after [] blanks c hp noted
  have gone : (gaps body s.layout m).comments (body.drop c.start) :=
    ⟨c, noted.mem, noted.marked, rfl⟩
  have lines : (gaps body s.layout m).lines (piece ++ after.flatten) :=
    ⟨before, piece, after, hp, .noted noted, (Text.drop_of_pieces hp).symm⟩
  have whole : piece ++ after.flatten = blanks ++ body.drop c.start := by
    rw [comment, hpiece]
    simp only [List.append_assoc, List.cons_append, List.nil_append]
  have stripped : Stripped (gaps body s.layout m) (piece ++ after.flatten) (y ++ q) := by
    rw [whole, comment, split] at lines ⊢
    rw [comment, split] at gone
    rcases hfeed with ⟨rfl, rfl⟩ | rfl
    · obtain ⟨rfl, rfl⟩ := List.append_eq_nil_iff.1 split.symm
      obtain ⟨-, -, -, -, ended⟩ := common
      rw [ended.eq_nil rfl]
      exact .ended fun _ => lines
    · exact .gone (y := y) (p := p) lines gone spaces line common
  exact common_nil stripped

include accepted counted in
/-- Of lines at the end that are empty or annotations, nothing is left. -/
theorem Pared.flatMap_eq_nil (pared : Pared body s m fates) {n : Nat}
    (spent : Spent body s.layout m n) :
    (fates.drop n).flatMap Kept.text = [] := by
  refine List.flatMap_eq_nil_iff.2 fun k hk => ?_
  obtain ⟨j, hj⟩ := List.getElem?_of_mem hk
  rw [List.getElem?_drop] at hj
  obtain ⟨before, piece, after, hp, length, fate⟩ := pared.exists_line hj
  rw [fate.dropped_of_spent accepted counted hp (spent.mono (by omega))]
  rfl

end Left

/-- From the start of a line on: what a program shares with what is left of it. -/
theorem exists_common (accepted : scan body = .ok (.ok s))
    (counted : ∀ c ∈ s.layout.comments, m.isAnnotation (c.text body) → Counted body c.start)
    (detached : Detached body s m) (pared : Pared body s m fates)
    (hp : Text.pieces body = before ++ after) : ∃ y p q, after.flatten = y ++ p ∧
      (fates.drop before.length).flatMap Kept.text = y ++ q ∧ Common
      (gaps body s.layout m) y p q := by
  -- on the lines that follow
  induction after generalizing before with
  | nil =>
    have none : fates.drop before.length = [] := List.drop_eq_nil_iff.2 (by
      rw [pared.length, hp, List.append_nil])
    rw [none]
    exact ⟨[], [], [], rfl, rfl, common_nil (.ended (absurd rfl))⟩
  | cons piece after ih =>
    obtain ⟨k, hk, fate⟩ := pared.fate before piece after hp
    have below : Text.pieces body = before ++ [piece] ++ after := by
      rw [hp, List.append_assoc]
      rfl
    obtain ⟨y, p, q, split, left, common⟩ := ih below
    rw [List.length_append, List.length_singleton] at left
    obtain ⟨hj, rfl⟩ := List.getElem?_eq_some_iff.1 hk
    rw [List.flatten_cons, ← List.getElem_cons_drop hj, List.flatMap_cons, left]
    generalize fates[before.length] = k at fate
    cases fate with
    | whole unmarked =>
      refine ⟨piece ++ y, p, q, ?_, (List.append_assoc ..).symm, ?_⟩
      · rw [split, List.append_assoc]
      · exact common_of_whole accepted hp split common unmarked
    | cut noted some =>
      obtain ⟨a, whole, common⟩ :=
        common_of_cut accepted counted detached hp split common noted some
      exact ⟨_, a, _, whole, List.append_assoc .., common⟩
    | noted noted =>
      exact ⟨[], _, _, rfl, rfl, common_of_noted accepted detached hp split common noted⟩
    | empty empty spent =>
      have none := pared.flatMap_eq_nil accepted counted (spent.mono (Nat.le_succ _))
      have gone : (gaps body s.layout m).lines (piece ++ after.flatten) :=
        ⟨before, piece, after, hp, .empty empty spent, (Text.drop_of_pieces hp).symm⟩
      rw [← left, none]
      exact ⟨[], _, [], rfl, rfl, common_nil (.ended fun _ => gone)⟩

/-! ## The walk over a program with annotations -/

section Detached

variable (accepted : scan body = .ok (.ok s))
  (counted : ∀ c ∈ s.layout.comments, m.isAnnotation (c.text body) → Counted body c.start)
  (detached : Detached body s m)

include accepted detached in
/-- In a detached program the walk passes over the gaps. -/
theorem Detached.passes :
    (Tokenizer.ofSource body).Passes (gaps body s.layout m) fun t => ¬ m.isAnnotation t := by
  have placed := Tokenizer.placed_ofSource body
  refine ⟨?_, ?_, ?_, ?_, ?_⟩
  · -- the walk ends well
    obtain ⟨_, -, complete, -⟩ := Scan.eq_of_scan accepted
    exact complete
  · -- the tokenizer comes to each annotation outside of literals
    rintro _ ⟨c, hc, -, rfl⟩
    obtain ⟨k, hk, kind, -, start, -⟩ := exists_token_of_comment accepted hc
    obtain ⟨t, x, reach, -, place, -, -, outside⟩ :=
      Tokenizer.exists_comment (s := .ofSource body) hk kind
    refine ⟨t, reach, ?_, outside⟩
    rw [(Tokenizer.placed_of_reaches placed reach).cursor.rest, ← place, start]
  · -- and to each line that is dropped, at its start
    rintro _ ⟨before, piece, after, hp, fate, rfl⟩
    rcases detached.starts before piece after hp fate with rfl | ⟨k, hk, newline, stop⟩
    · exact ⟨_, .here, rfl, Tokenizer.fresh_ofSource body⟩
    · obtain ⟨t, reach, rest, fresh⟩ := Tokenizer.exists_fresh placed hk newline (by
        rw [stop]
        exact Text.atLineStart_of_pieces hp)
      exact ⟨t, reach, stop ▸ rest, fresh⟩
  · -- nothing hinges on the code before an annotation
    rintro t x _ reach hr ⟨before, piece, after, code, blanks, c, hp, noted, some, rfl⟩ hx line
    obtain ⟨-, -, -, -, -, -, behind⟩ := noted.exists_split accepted hp
    have decided := detached.code before piece after code blanks c hp noted some t reach
    have pos := List.length_pos_iff.2 hx
    have within : x.length - 1 < t.cursor.rest.length := by
      rw [hr, List.length_append]
      omega
    have decided := decided (x.length - 1) within
    rw [Nat.sub_add_cancel pos, hr, behind, List.drop_left, List.take_left] at decided
    exact decided rfl line
  · -- all other comments stay
    intro t u found k reach hstep hk kind other marked
    obtain ⟨x, hr, start, -⟩ := Tokenizer.comment_of_next hstep hk kind
    have mem : k ∈ (tokenize body).tokens := reach.mem_tokens (by
      rw [Tokenizer.tokens_run_of_next hstep]
      exact List.mem_append_left _ hk)
    obtain ⟨c, hc, text, place⟩ := exists_comment_of_token accepted mem kind
    refine other ⟨c, hc, text ▸ marked, ?_⟩
    rw [(Tokenizer.placed_of_reaches placed reach).cursor.rest, ← start, place]

end Detached

/-! ## Whole programs -/

/-- A walk that comes to its end without annotations is that of a program without annotations. -/
theorem plain_of_retains (retains : (Tokenizer.ofSource body).Retains fun t => ¬ m.isAnnotation t) :
    Plain body m := by
  have complete : (tokenize body).ending = .complete := retains.complete
  have answered : ∃ answer, scan body = .ok answer := by
    unfold scan Scan.ofTokens
    rw [complete]
    split
    · exact ⟨_, rfl⟩
    · exact ⟨_, rfl⟩
  obtain ⟨answer, hscan⟩ := answered
  refine ⟨answer, hscan, ?_⟩
  rintro s rfl c hc marked
  obtain ⟨k, hk, kind, text, -⟩ := exists_token_of_comment hscan hc
  exact retains.comments k hk kind (text ▸ marked)

/-- What removal leaves of a program is left as it is by a second removal just if none of its
comments is an annotation. This is so if the program is refused, or if its annotations are set
apart. -/
theorem removeAnnotations_settles (removes : removeAnnotations body m = .ok cleaned) :
    (removeAnnotations cleaned m = .ok cleaned ↔ Plain cleaned m) ∧
    ((∃ error, scan body = .ok (.error error)) → removeAnnotations cleaned m = .ok cleaned) ∧
    ∀ s, scan body = .ok (.ok s) → Detached body s m →
      removeAnnotations cleaned m = .ok cleaned := by
  refine ⟨removeAnnotations_eq_self_iff, ?_, ?_⟩
  · rintro ⟨error, refused⟩
    have same : cleaned = body := by
      rw [removeAnnotations, refused] at removes
      exact (Except.ok.inj removes).symm
    rw [same] at removes ⊢
    exact removes
  · intro s accepted detached
    have removed := removes
    rw [removeAnnotations_of_scan m accepted] at removed
    have counted := (removeWith_answers_iff accepted).1 ⟨cleaned, removed⟩
    obtain ⟨fates, pared, rfl⟩ := exists_pared accepted removes
    obtain ⟨y, p, q, whole, left, common⟩ := exists_common accepted counted detached pared
      (show Text.pieces body = [] ++ Text.pieces body from rfl)
    rw [Text.flatten_pieces] at whole
    rw [List.length_nil, List.drop_zero] at left
    rw [left]
    refine removeAnnotations_eq_self_iff.2 (plain_of_retains ?_)
    have twin : (Tokenizer.ofSource body).Twin y p q (Tokenizer.ofSource (y ++ q)) := by
      obtain ⟨seam, -⟩ := id common
      exact ⟨⟨whole, rfl, rfl, rfl, seam⟩, rfl, rfl, rfl, .nil⟩
    exact Tokenizer.retains_of_twin (detached.passes accepted) .here twin common

/-! ## Programs in hand -/

/-- The code and the blanks that stand before a comment set it apart, as far as some states are
concerned. -/
def SetsApart (body : Text) (states : List Tokenizer) (c : Comment) (front : Text × Text) : Prop :=
  Spaces front.2 ∧ (front.1 ≠ [] → front.2 ≠ [] ∧ ∀ t ∈ states,
    t.Decided (front.2 ++ body.drop c.start))

instance (body : Text) (states : List Tokenizer) (c : Comment) (front : Text × Text) :
    Decidable (SetsApart body states c front) :=
  inferInstanceAs (Decidable (_ ∧ (_ → _ ∧ ∀ t ∈ states, _)))

/-- The code and the blanks of a part of a line. -/
def cutAt (body : Text) (start stop : Nat) : Text × Text :=
  let front := (body.drop start).take (stop - start)
  (Text.trimEnd front, front.drop (Text.trimEnd front).length)

/-- A line is cut at its annotation into code and blanks. -/
theorem Noted.cutAt_eq (accepted : scan body = .ok (.ok s))
    (hp : Text.pieces body = before ++ piece :: after)
    (h : Noted body s.layout m before.flatten.length piece code blanks c) :
    cutAt body before.flatten.length c.start = (code, blanks) := by
  obtain ⟨r, feed, -, -, split, -⟩ := h.exists_split accepted hp
  have front : (body.drop before.flatten.length).take (c.start - before.flatten.length) =
      code ++ blanks := by
    rw [Text.drop_of_pieces hp, h.place, Nat.add_sub_cancel_left, List.flatten_cons, split,
      ← List.append_assoc code, List.append_assoc, List.take_left]
  unfold cutAt
  rw [front]
  dsimp only
  rw [← h.code_eq, List.drop_left]

/-- Whether the annotations of a program are set apart can be seen from its lines and from the
states of the walk. -/
theorem detached_of_states {n : Nat} {whole : Tokenization} (accepted : scan body = .ok (.ok s))
    (run : Tokenizer.runFor n (.ofSource body) = some whole)
    (apart : ∀ j < (Text.pieces body).length, ∀ c ∈ s.layout.comments,
      ((Text.pieces body).take j).flatten.length ≤ c.start →
      c.start < ((Text.pieces body).take (j + 1)).flatten.length →
        SetsApart body (Tokenizer.statesFor n (.ofSource body)) c
          (cutAt body ((Text.pieces body).take j).flatten.length c.start))
    (starts : ∀ j < (Text.pieces body).length, j = 0 ∨ ∃ t ∈ whole.tokens,
      t.kind = .newline ∧ t.stop = ((Text.pieces body).take j).flatten.length) : Detached body
        s m := by
  -- pieces are told by their number here, and by what stands before them in the definition
  have line {before after : List Text} {piece : Text}
    (hp : Text.pieces body = before ++ piece :: after) :
      before.length < (Text.pieces body).length ∧ (Text.pieces body).take before.length = before ∧
        (Text.pieces body).take (before.length + 1) = before ++ [piece] := by
    rw [hp, List.length_append, List.length_cons, List.take_left, List.take_length_add_append]
    exact ⟨by omega, rfl, rfl⟩
  have each {before after : List Text} {piece code blanks : Text} {c : Comment}
      (hp : Text.pieces body = before ++ piece :: after)
      (noted : Noted body s.layout m before.flatten.length piece code blanks c) :
      SetsApart body (Tokenizer.statesFor n (.ofSource body)) c (code, blanks) := by
    obtain ⟨within, upTo, further⟩ := line hp
    have stands := noted.starts accepted
    have here := apart before.length within c noted.mem
    rw [upTo, further, List.flatten_append, List.flatten_singleton, List.length_append] at here
    have here := here stands.1 stands.2
    rw [noted.cutAt_eq accepted hp] at here
    exact here
  refine ⟨fun before piece after code blanks c hp noted => ?_,
    fun before piece after code blanks c hp noted some t reach =>
      ?_, fun before piece after hp _ => ?_⟩
  · obtain ⟨spaces, behind⟩ := each hp noted
    exact ⟨spaces, fun some => (behind some).1⟩
  · exact ((each hp noted).2 some).2 t (Tokenizer.mem_statesFor run reach)
  · obtain ⟨within, upTo, -⟩ := line hp
    have start := starts before.length within
    rw [upTo, List.length_eq_zero_iff] at start
    rw [tokenize, Tokenizer.run_eq_of_runFor run]
    exact start

/-- Code with an annotation behind it, and lines at the end that go. -/
theorem removeAnnotations_settles_blocks :
    let body := "x = 1  # => 1\n\n# >> x\n\n".toList
    let cleaned := "x = 1\n".toList
    (∃ s, scan body = .ok (.ok s) ∧ Detached body s {}) ∧ removeAnnotations body {} = .ok cleaned ∧
      removeAnnotations cleaned {} = .ok cleaned := by
  intro body cleaned
  have scanned : (scanFor 20 body).map (fun s => (s.layout.comments, removeWith body s.layout {})) =
      some ([⟨1, 7, 13⟩, ⟨3, 15, 21⟩], .ok cleaned) := by
    decide +kernel
  have apart : ∀ j < (Text.pieces body).length, ∀ c ∈ [Comment.mk 1 7 13, ⟨3, 15, 21⟩],
      ((Text.pieces body).take j).flatten.length ≤ c.start →
      c.start < ((Text.pieces body).take (j + 1)).flatten.length →
        SetsApart body (Tokenizer.statesFor 20 (.ofSource body)) c
          (cutAt body ((Text.pieces body).take j).flatten.length c.start) := by
    decide +kernel
  have lines : ∃ whole ∈ Tokenizer.runFor 20 (.ofSource body),
      ∀ j < (Text.pieces body).length, j = 0 ∨ ∃ t ∈ whole.tokens,
        t.kind = .newline ∧ t.stop = ((Text.pieces body).take j).flatten.length := by
    decide +kernel
  obtain ⟨s, hs, answer⟩ := Option.map_eq_some_iff.1 scanned
  obtain ⟨comments, removed⟩ := Prod.mk.inj answer
  obtain ⟨whole, run, starts⟩ := lines
  have accepted := scan_of_scanFor hs
  have detached : Detached body s {} := detached_of_states accepted run (comments ▸ apart) starts
  have removes : removeAnnotations body {} = .ok cleaned :=
    (removeAnnotations_of_scan {} accepted).trans removed
  exact ⟨⟨s, accepted, detached⟩, removes,
    (removeAnnotations_settles removes).2.2 s accepted detached⟩

/-- The literal of a blank loses the blank, and becomes that of a line feed. What followed as the
literal of a pattern is read as a division then, with an annotation behind it. -/
theorem not_removeAnnotations_settles_literal :
    let body := "?\\  # => 1\n/ # => 2 /\n1\n".toList
    let cleaned := "?\\\n/ # => 2 /\n1\n".toList
    removeAnnotations body {} = .ok cleaned ∧ removeAnnotations cleaned {} ≠ .ok cleaned := by
  intro body cleaned
  have checked : ∃ s ∈ scanFor 20 body, removeWith body s.layout {} = .ok cleaned := by
    decide +kernel
  have again : ∃ s ∈ scanFor 20 cleaned, removeWith cleaned s.layout {} ≠ .ok cleaned := by
    decide +kernel
  obtain ⟨s, hs, removed⟩ := checked
  obtain ⟨t, ht, changed⟩ := again
  refine ⟨(removeAnnotations_of_scan {} (scan_of_scanFor hs)).trans removed, ?_⟩
  rw [removeAnnotations_of_scan {} (scan_of_scanFor ht)]
  exact changed

end Marginalia
