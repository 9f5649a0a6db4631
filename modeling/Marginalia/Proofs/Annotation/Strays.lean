import Mathlib.Data.List.Nodup
import Marginalia.Proofs.Annotation.Removal
import Marginalia.Proofs.Source.Dashes
import Marginalia.Proofs.Source.Slices

/-!
# Comments outside of their lines

Removing annotations looks for each comment on the line for which it is recorded. It stands there
unless its line was counted wrong, and so there is an answer exactly if no annotation stands behind
a line feed that a `$-` took (`removeAnnotations_answers_iff`).
-/

namespace Marginalia

/-! ## Places in lines -/

namespace Text

variable {t piece : Text} {before after : List Text} {p : Nat}

/-- The pieces before another one are lines. -/
theorem isLine_before (hp : pieces t = before ++ piece :: after) : ∀ q ∈ before, IsLine q := by
  have lines := isLine_of_mem_take (t := t) (k := before.length)
    (.inl (by rw [hp, List.length_append, List.length_cons]; omega))
  rwa [hp, List.take_left] at lines

/-- A piece is the last, or a finished line. -/
theorem isLine_or_last (hp : pieces t = before ++ piece :: after) :
    IsLine piece ∨ '\n' ∉ piece ∧ t.length = before.flatten.length + piece.length := by
  rcases notMem_of_mem_pieces (t := t) (p := piece) (by rw [hp]; simp) with line | last
  · exact .inl line
  · cases after with
    | nil =>
      refine .inr ⟨last, ?_⟩
      rw [← flatten_pieces t, hp, List.flatten_append, List.length_append, List.flatten_singleton]
    | cons q after =>
      rw [List.append_cons] at hp
      exact .inl (isLine_before hp piece (List.mem_append_right before List.mem_cons_self))

/-- Within a piece there is no line feed before its end. -/
theorem lineFeeds_take_of_lt {i : Nat} (h : IsLine piece ∨ '\n' ∉ piece) (hi : i < piece.length) :
    lineFeeds (piece.take i) = 0 := by
  refine lineFeeds_eq_zero fun hm => ?_
  rcases h with ⟨u, hu, rfl⟩ | last
  · rw [List.length_append, List.length_singleton] at hi
    rw [List.take_append_of_le_length (by omega)] at hm
    exact hu (List.mem_of_mem_take hm)
  · exact last (List.mem_of_mem_take hm)

/-- The pieces of a text make it. -/
theorem flatten_of_pieces (hp : pieces t = before ++ after) :
    before.flatten ++ after.flatten = t := by
  rw [← List.flatten_append, ← hp, flatten_pieces]

/-- Behind some pieces stand the others. -/
theorem drop_of_pieces (hp : pieces t = before ++ after) :
    t.drop before.flatten.length = after.flatten := by
  conv => lhs; rhs; rw [← flatten_of_pieces hp]
  exact List.drop_left

/-- A piece starts at the start of a line. -/
theorem atLineStart_of_pieces (hp : pieces t = before ++ piece :: after) :
    Source.AtLineStart t before.flatten.length := by
  rcases closed_flatten fun q hq => (isLine_before hp q hq).closed with none | last
  · exact .inl (congrArg List.length none)
  · right
    rw [List.getLast?_eq_getElem?] at last
    rw [← flatten_of_pieces hp,
      List.getElem?_append_left (List.getElem?_eq_some_iff.1 last).1, last]

/-- The line feeds before a place tell on which piece it is. -/
theorem lineFeeds_take_iff (hp : pieces t = before ++ piece :: after) (hlt : p < t.length) :
    (before.flatten.length ≤ p ∧ p < before.flatten.length + piece.length) ↔
      lineFeeds (t.take p) = before.length := by
  have lines := isLine_before hp
  have whole : t = before.flatten ++ (piece ++ after.flatten) := (flatten_of_pieces hp).symm
  have count := lineFeeds_flatten lines
  constructor
  · rintro ⟨le, lt⟩
    obtain ⟨i, rfl⟩ := Nat.exists_eq_add_of_le le
    rw [whole, List.take_length_add_append, lineFeeds_append, count,
      List.take_append_of_le_length (by omega),
      lineFeeds_take_of_lt ((isLine_or_last hp).imp_right And.left) (by omega), Nat.add_zero]
  · intro h
    refine ⟨Nat.le_of_not_lt fun early => ?_, Nat.lt_of_not_le fun late => ?_⟩
    · -- a line of those before ends behind the place
      have closed : Closed (before.flatten.drop p) :=
        (closed_flatten fun q hq => (lines q hq).closed).of_suffix (List.drop_suffix p _)
      have ne : before.flatten.drop p ≠ [] := fun none => by
        have := List.drop_eq_nil_iff.1 none
        omega
      have more : '\n' ∈ before.flatten.drop p := List.mem_of_getLast? (closed.resolve_left ne)
      have split := lineFeeds_append (before.flatten.take p) (before.flatten.drop p)
      rw [List.take_append_drop, count] at split
      rw [whole, List.take_append_of_le_length (by omega)] at h
      have pos : 0 < lineFeeds (before.flatten.drop p) := List.count_pos_iff.2 more
      omega
    · -- the piece ends before the place, and so it is a line
      rcases isLine_or_last hp with line | ⟨-, last⟩
      · obtain ⟨i, rfl⟩ := Nat.exists_eq_add_of_le late
        have front : t.take (before.flatten.length + piece.length + i) =
            before.flatten ++ piece ++ after.flatten.take i := by
          rw [whole, ← List.append_assoc, ← List.length_append, List.take_length_add_append]
        rw [front, lineFeeds_append, lineFeeds_append, count, lineFeeds_isLine line] at h
        omega
      · omega

/-- A character that ends no line is in the content of its piece. -/
theorem lt_lineText (hp : pieces t = before ++ piece :: after) {c : Char} (hc : t[p]? = some c)
    (visible : (c == '\n' || c == '\r') = false)
    (h : before.flatten.length ≤ p ∧ p < before.flatten.length + piece.length) :
    p < before.flatten.length + (lineText piece).length := by
  refine Nat.lt_of_not_le fun le => ?_
  have whole : t = before.flatten ++ (lineText piece ++ (terminator piece ++ after.flatten)) := by
    rw [← List.append_assoc (lineText piece), lineText_append_terminator]
    exact (flatten_of_pieces hp).symm
  have length := congrArg List.length (lineText_append_terminator piece)
  rw [List.length_append] at length
  rw [whole, List.getElem?_append_right h.1, List.getElem?_append_right (by omega),
    List.getElem?_append_left (by omega)] at hc
  have all := List.all_eq_true.1 (terminator_all piece) c (List.mem_of_getElem? hc)
  rw [visible] at all
  cases all

/-- A character that ends no line is on a line, at its end at most, just if it is in its piece. -/
theorem lineFeeds_take_iff_lineText (hp : pieces t = before ++ piece :: after) {c : Char}
    (hc : t[p]? = some c) (visible : (c == '\n' || c == '\r') = false) :
    (before.flatten.length ≤ p ∧ p ≤ before.flatten.length + (lineText piece).length) ↔
      lineFeeds (t.take p) = before.length := by
  have hlt := (List.getElem?_eq_some_iff.1 hc).1
  rw [← lineFeeds_take_iff hp hlt]
  refine ⟨fun ⟨le, within⟩ => ⟨le, ?_⟩, fun h => ⟨h.1, Nat.le_of_lt (lt_lineText hp hc visible h)⟩⟩
  rcases isLine_or_last hp with line | ⟨-, last⟩
  · obtain ⟨u, -, ended⟩ := (isLine_terminator line).2
    have length := congrArg List.length (lineText_append_terminator piece)
    rw [ended, List.length_append, List.length_append, List.length_singleton] at length
    omega
  · omega

/-- Every place of a text is in one of its pieces. -/
theorem exists_piece (hlt : p < t.length) :
    ∃ before piece after, pieces t = before ++ piece :: after ∧
    before.flatten.length ≤ p ∧ p < before.flatten.length + piece.length := by
  rw [← flatten_pieces t] at hlt
  generalize pieces t = ps at hlt
  induction ps generalizing p with
  | nil => cases hlt
  | cons q ps ih =>
    rw [List.flatten_cons, List.length_append] at hlt
    by_cases here : p < q.length
    · exact ⟨[], q, ps, rfl, Nat.zero_le _, by rw [List.flatten_nil]; simpa using here⟩
    · obtain ⟨before, piece, after, rfl, le, lt⟩ := ih (p := p - q.length) (by omega)
      refine ⟨q :: before, piece, after, rfl, ?_, ?_⟩
      all_goals
        rw [List.flatten_cons, List.length_append]
        omega

end Text

open Source

/-! ## Lines and their comments -/

variable {body : Text} {l : Layout} {m : Markers}

/-- A line is answered for if its annotation, if it has one, starts on it. -/
theorem keepLine_answers_iff {start line : Nat} {piece : Text} :
    (∃ k, keepLine body l m start line piece = .ok k) ↔ ∀ c, l.commentOn line = some c →
      m.isAnnotation (c.text body) → start ≤ c.start ∧
        c.start ≤ start + (Text.lineText piece).length := by
  unfold keepLine
  cases hc : l.commentOn line with
  | none => exact ⟨fun _ _ hc => (nomatch hc), fun _ => ⟨_, rfl⟩⟩
  | some c =>
    dsimp only
    constructor
    · rintro ⟨k, hk⟩ _ hsame annotation
      cases hsame
      rw [if_pos (show m.isAnnotation ((body.drop c.start).take (c.stop - c.start))
        from annotation)] at hk
      split at hk
      · next h => exact h
      · cases hk
    · intro h
      split
      · next annotation =>
        rw [if_pos (h c rfl annotation)]
        exact ⟨_, rfl⟩
      · exact ⟨_, rfl⟩

/-- All lines are kept if the first is and the others are. -/
theorem keepLines_cons_answers_iff {start line : Nat} {p : Text} {ps : List Text} :
    (∃ ks, keepLines body l m start line (p :: ps) = .ok ks) ↔
      (∃ k, keepLine body l m start line p = .ok k) ∧
        ∃ ks, keepLines body l m (start + p.length) (line + 1) ps = .ok ks := by
  rw [keepLines]
  cases keepLine body l m start line p with
  | error f =>
    constructor
    · rintro ⟨_, h⟩
      cases h
    · rintro ⟨⟨_, h⟩, -⟩
      cases h
  | ok k =>
    cases keepLines body l m (start + p.length) (line + 1) ps with
    | error f =>
      constructor
      · rintro ⟨_, h⟩
        cases h
      · rintro ⟨-, _, h⟩
        cases h
    | ok ks => exact ⟨fun _ => ⟨⟨k, rfl⟩, ks, rfl⟩, fun _ => ⟨_, rfl⟩⟩

/-- Lines are answered for if each of them is. -/
theorem keepLines_answers_iff {start line : Nat} {ps : List Text} :
    (∃ ks, keepLines body l m start line ps = .ok ks) ↔ ∀ before piece after,
      ps = before ++ piece :: after →
      ∃ k, keepLine body l m (start + before.flatten.length) (line + before.length) piece =
        .ok k := by
  induction ps generalizing start line with
  | nil => exact ⟨fun _ before _ _ h => absurd h.symm (by simp), fun _ => ⟨[], rfl⟩⟩
  | cons p ps ih =>
    rw [keepLines_cons_answers_iff, ih]
    constructor
    · rintro ⟨first, others⟩ before piece after h
      cases before with
      | nil =>
        obtain ⟨rfl, -⟩ := List.cons.inj h
        exact first
      | cons q before =>
        obtain ⟨rfl, rfl⟩ := List.cons.inj h
        have other := others before piece after rfl
        rwa [Nat.add_assoc, Nat.add_assoc, Nat.add_comm 1, ← List.length_append] at other
    · intro all
      refine ⟨all [] p ps rfl, fun before piece after h => ?_⟩
      have other := all (p :: before) piece after (by rw [h]; rfl)
      rwa [List.flatten_cons, List.length_append, List.length_cons, ← Nat.add_assoc,
        Nat.add_comm before.length, ← Nat.add_assoc] at other

/-! ## Comments of accepted programs -/

/-- No `$-` takes a line feed before a place of a program, so that all line feeds before it are
counted. -/
def Counted (body : Text) (p : Nat) : Prop :=
  ∀ t, Tokenizer.Reaches (.ofSource body) t → t.cursor.position < p → ¬ t.takesLineFeed

variable {s : Scan} {c : Comment}

/-- A comment starts with a hash and reaches to the end of its line. Its line is one of those up to
the one on which it stands, and that one just if all line feeds before it are counted. -/
theorem comment_of_scan (accepted : scan body = .ok (.ok s)) (hc : c ∈ s.layout.comments) :
    ∃ x, body.drop c.start = '#' :: x ∧ c.stop = c.start + ((x.takeWhile (· != '\n')).length + 1) ∧
      1 ≤ c.line ∧ c.line ≤ Text.lineFeeds (body.take c.start) + 1 ∧
      (c.line = Text.lineFeeds (body.take c.start) + 1 ↔ Counted body c.start) := by
  rw [comments_of_scan accepted] at hc
  obtain ⟨k, hk, rfl⟩ := List.mem_map.1 hc
  obtain ⟨mem, kind⟩ := List.mem_filter.1 hk
  obtain ⟨t, x, reach, hr, start, stop, line, -⟩ :=
    Tokenizer.exists_comment (s := .ofSource body) mem (beq_iff_eq.1 kind)
  have place := (Tokenizer.placed_of_reaches (Tokenizer.placed_ofSource body) reach).cursor
  have rest := place.rest
  obtain ⟨le, iff⟩ := Tokenizer.lineSum_of_reaches reach (by rw [hr]; exact List.cons_ne_nil _ _)
  have count := Text.lineFeeds_append (body.take t.cursor.position) (body.drop t.cursor.position)
  rw [List.take_append_drop, ← rest] at count
  have first : (Tokenizer.ofSource body).lineSum = 1 + Text.lineFeeds body := rfl
  rw [first] at le iff
  unfold Tokenizer.lineSum at le iff
  refine ⟨x, ?_, ?_, ?_, ?_, ?_⟩
  · show body.drop k.start = '#' :: x
    rw [start, ← rest, hr]
  · show k.stop = k.start + _
    rw [stop, start]
  · exact line ▸ place.line
  · show k.line ≤ Text.lineFeeds (body.take k.start) + 1
    rw [start, line]
    omega
  · show k.line = Text.lineFeeds (body.take k.start) + 1 ↔ Counted body k.start
    unfold Counted
    rw [start, line, ← iff]
    omega

/-- A comment starts within the program. -/
theorem start_lt_of_scan (accepted : scan body = .ok (.ok s)) (hc : c ∈ s.layout.comments) :
    c.start < body.length := by
  obtain ⟨x, hdrop, -⟩ := comment_of_scan accepted hc
  have length := congrArg List.length hdrop
  rw [List.length_drop, List.length_cons] at length
  omega

/-- A comment holds no line feed. -/
theorem lineFeeds_take_of_comment (accepted : scan body = .ok (.ok s)) (hc : c ∈ s.layout.comments)
    {p : Nat} (le : c.start ≤ p) (lt : p < c.stop) :
    p < body.length ∧ Text.lineFeeds (body.take p) = Text.lineFeeds (body.take c.start) := by
  obtain ⟨x, hdrop, hstop, -⟩ := comment_of_scan accepted hc
  have length := congrArg List.length hdrop
  rw [List.length_drop, List.length_cons] at length
  have short : (x.takeWhile (· != '\n')).length ≤ x.length := (List.takeWhile_sublist _).length_le
  refine ⟨by omega, ?_⟩
  obtain ⟨j, rfl⟩ := Nat.exists_eq_add_of_le le
  rw [List.take_add, hdrop, Text.lineFeeds_append]
  have whole : ('#' :: x).take ((x.takeWhile (· != '\n')).length + 1) =
      '#' :: x.takeWhile (· != '\n') := by
    rw [List.take_succ_cons, ← List.prefix_iff_eq_take.1 (List.takeWhile_prefix _)]
  refine Nat.add_eq_left.2 (Text.lineFeeds_eq_zero fun hm => ?_)
  have mem := (List.take_prefix_take_left
    (show j ≤ (x.takeWhile (· != '\n')).length + 1 by omega)).subset hm
  rw [whole, List.mem_cons] at mem
  exact mem.elim (by decide) (lineFeed_notMem_takeWhile x)

/-- The comment that is known of a line is the only one that is recorded for it. -/
theorem commentOn_of_mem (accepted : scan body = .ok (.ok s)) (hc : c ∈ s.layout.comments) :
    s.layout.commentOn c.line = some c := by
  have nodup : (s.layout.comments.map Comment.line).Nodup := by
    rw [comments_of_scan accepted]
    unfold Scanner.commentsOf
    rw [List.map_map]
    exact List.pairwise_map.2 ((Tokenizer.pairwise_comments _).imp Nat.ne_of_lt)
  obtain ⟨d, hd⟩ : ∃ d, s.layout.commentOn c.line = some d :=
    Option.isSome_iff_exists.1 (List.find?_isSome.2 ⟨c, hc, beq_self_eq_true _⟩)
  have found : s.layout.comments.find? (fun d => d.line == c.line) = some d := hd
  have same := List.find?_some found
  rw [hd, List.inj_on_of_nodup_map nodup (List.mem_of_find?_eq_some found) hc (beq_iff_eq.1 same)]

/-- Where the characters of a comment are those of the line for which it is recorded. -/
def OnItsLine (body : Text) (c : Comment) : Prop := ∃ before piece after,
  Text.pieces body = before ++ piece :: after ∧ before.length + 1 = c.line ∧
    before.flatten.length ≤ c.start ∧ c.stop ≤ before.flatten.length + piece.length

/-- A comment is on its line just if all line feeds before it are counted. -/
theorem onItsLine_iff (accepted : scan body = .ok (.ok s)) (hc : c ∈ s.layout.comments) :
    OnItsLine body c ↔ Counted body c.start := by
  obtain ⟨x, -, hstop, -, -, counted⟩ := comment_of_scan accepted hc
  have inside := start_lt_of_scan accepted hc
  rw [← counted]
  constructor
  · rintro ⟨before, piece, after, hp, line, le, stop⟩
    rw [(Text.lineFeeds_take_iff hp inside).1 ⟨le, by omega⟩, line]
  · intro line
    obtain ⟨before, piece, after, hp, le, lt⟩ := Text.exists_piece inside
    have here := (Text.lineFeeds_take_iff hp inside).1 ⟨le, lt⟩
    -- the last character of the comment is on the same piece as the first
    obtain ⟨within, same⟩ :=
      lineFeeds_take_of_comment accepted hc (p := c.stop - 1) (by omega) (by omega)
    refine ⟨before, piece, after, hp, by omega, le, ?_⟩
    have := (Text.lineFeeds_take_iff hp within).2 (same.trans here)
    omega

/-- The lines of a program are kept or cut just if every annotation stands on the line for which it
is recorded. -/
theorem removeWith_answers_iff (accepted : scan body = .ok (.ok s)) :
    (∃ text, removeWith body s.layout m = .ok text) ↔
      ∀ c ∈ s.layout.comments, m.isAnnotation (c.text body) → Counted body c.start := by
  have all : (∃ text, removeWith body s.layout m = .ok text) ↔
      ∃ ks, keepLines body s.layout m 0 1 (Text.pieces body) = .ok ks := by
    unfold removeWith
    cases keepLines body s.layout m 0 1 (Text.pieces body) with
    | error f => exact ⟨fun ⟨_, h⟩ => (nomatch h), fun ⟨_, h⟩ => (nomatch h)⟩
    | ok ks => exact ⟨fun _ => ⟨ks, rfl⟩, fun _ => ⟨_, rfl⟩⟩
  have hash : ∀ c ∈ s.layout.comments, body[c.start]? = some '#' := fun c hc => by
    obtain ⟨x, hdrop, -⟩ := comment_of_scan accepted hc
    rw [← List.head?_drop, hdrop]
    rfl
  have visible : ('#' == '\n' || '#' == '\r') = false := by decide
  rw [all, keepLines_answers_iff]
  constructor
  · intro answers c hc annotation
    obtain ⟨x, -, -, pos, le, counted⟩ := comment_of_scan accepted hc
    have lt := (List.getElem?_eq_some_iff.1 (hash c hc)).1
    -- the line for which it is recorded is one of the program
    obtain ⟨front, _, back, hpieces, stands⟩ := Text.exists_piece lt
    have here := (Text.lineFeeds_take_iff hpieces lt).1 stands
    have within : c.line - 1 < (Text.pieces body).length := by
      rw [hpieces, List.length_append, List.length_cons]
      omega
    obtain ⟨before, piece, after, hp, line⟩ : ∃ before piece after,
        Text.pieces body = before ++ piece :: after ∧ 1 + before.length = c.line :=
      ⟨(Text.pieces body).take (c.line - 1), (Text.pieces body)[c.line - 1], _,
        by rw [List.getElem_cons_drop, List.take_append_drop], by rw [List.length_take]; omega⟩
    have kept := keepLine_answers_iff.1 (answers before piece after hp) c
    rw [line, Nat.zero_add] at kept
    have on := (Text.lineFeeds_take_iff_lineText hp (hash c hc) visible).1
      (kept (commentOn_of_mem accepted hc) annotation)
    exact counted.1 (by omega)
  · intro counted before piece after hp
    refine keepLine_answers_iff.2 fun c known annotation => ?_
    have found : s.layout.comments.find? (fun d => d.line == 1 + before.length) = some c := known
    have hc := List.mem_of_find?_eq_some found
    have line := List.find?_some found
    rw [beq_iff_eq] at line
    obtain ⟨x, -, -, -, -, same⟩ := comment_of_scan accepted hc
    rw [Nat.zero_add]
    refine (Text.lineFeeds_take_iff_lineText hp (hash c hc) visible).2 ?_
    have := same.2 (counted c hc annotation)
    omega

/-- Where a program can be scanned, removing its annotations has an answer just if no `$-` takes a
line feed before an annotation; and a comment stands on the line for which it is recorded just if no
`$-` takes one before it. -/
theorem removeAnnotations_answers_iff {answer : Except SyntaxError Scan}
    (scanned : scan body = .ok answer) (m : Markers) :
    ((∃ text, removeAnnotations body m = .ok text) ↔ ∀ s, answer = .ok s →
      ∀ c ∈ s.layout.comments, m.isAnnotation (c.text body) → Counted body c.start) ∧
    ∀ s, answer = .ok s → ∀ c ∈ s.layout.comments, OnItsLine body c ↔ Counted body c.start := by
  cases answer with
  | error e =>
    have kept : removeAnnotations body m = .ok body := by
      unfold removeAnnotations
      rw [scanned]
      rfl
    exact ⟨⟨fun _ _ h => (nomatch h), fun _ => ⟨body, kept⟩⟩, fun _ h => (nomatch h)⟩
  | ok s =>
    have removed : removeAnnotations body m = removeWith body s.layout m := by
      unfold removeAnnotations
      rw [scanned]
      rfl
    rw [removed]
    refine ⟨(removeWith_answers_iff scanned).trans ⟨fun h _ hs => ?_, fun h => h s rfl⟩, ?_⟩
    · cases hs
      exact h
    · rintro _ hs c hc
      cases hs
      exact onItsLine_iff scanned hc

/-- An annotation before the `$-`, and a comment behind it that is none. -/
theorem removeAnnotations_answers_note :
    let body := "1 # => 1\n$-\n# note\n".toList
    (∃ answer, scan body = .ok answer) ∧ ∃ text, removeAnnotations body {} = .ok text := by
  intro body
  have scanned : (scanFor 20 body).map (·.layout.comments) = some [⟨1, 2, 8⟩, ⟨2, 12, 18⟩] := by
    decide +kernel
  obtain ⟨s, hs, hcomments⟩ := Option.map_eq_some_iff.1 scanned
  have accepted := scan_of_scanFor hs
  refine ⟨⟨_, accepted⟩, (removeAnnotations_answers_iff accepted {}).1.2 ?_⟩
  rintro _ hsame c hc annotation t reach
  cases hsame
  rw [hcomments] at hc
  have counted : ∀ c ∈ [Comment.mk 1 2 8, ⟨2, 12, 18⟩], Markers.isAnnotation {} (c.text body) →
      ∀ t ∈ Tokenizer.statesFor 20 (.ofSource body), t.cursor.position < c.start →
        ¬ t.takesLineFeed := by
    decide +kernel
  exact counted c hc annotation t (Tokenizer.mem_statesFor_of_scanFor hs reach)

/-- Where the annotation stands behind the `$-`, it is recorded for the line before its own, and
there is no answer. -/
theorem removeAnnotations_answers_not :
    let body := "$-\n# => x\n".toList
    (∃ answer, scan body = .ok answer) ∧ removeAnnotations body {} = .error (.strayComment 1) := by
  intro body
  have scanned : (scanFor 20 body).map (fun s => removeWith body s.layout {}) =
      some (.error (.strayComment 1)) := by
    decide +kernel
  obtain ⟨s, hs, removed⟩ := Option.map_eq_some_iff.1 scanned
  have accepted := scan_of_scanFor hs
  refine ⟨⟨_, accepted⟩, ?_⟩
  unfold removeAnnotations
  rw [accepted]
  exact removed

end Marginalia
