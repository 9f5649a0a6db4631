import Mathlib.Data.List.TakeWhile
import Marginalia.Proofs.Annotation.Strays

/-!
# What removal leaves

Where annotations are removed, each line of a program has its fate (`Fate`): it stays as it is, it
is cut behind its code, or it goes. A line goes if it holds an annotation only, or if it is empty
and one of the last lines of the program that are empty or annotations, with an annotation among
them (`Spent`). What is lost are annotations, blanks before them and ends of lines (`Pared`). The
blanks may belong to the token before them, and this is all that a token can lose
(`removeAnnotations_pares`).
-/

namespace Marginalia

open Source

variable {body piece code blanks : Text} {before after : List Text} {l : Layout} {m : Markers}
  {s : Scan} {c : Comment} {start p : Nat}

/-! ## Lines with annotations -/

/-- A line that ends in an annotation: the code, the blanks behind it, the annotation, and a line
feed unless the program ends there. -/
structure Noted (body : Text) (l : Layout) (m : Markers) (start : Nat) (piece code blanks : Text)
    (c : Comment) : Prop where
  mem : c ∈ l.comments
  marked : m.isAnnotation (c.text body)
  place : c.start = start + (code ++ blanks).length
  visible : ∀ x, code.getLast? = some x → Text.isBlank x = false
  blank : Text.isBlankText blanks
  split : ∃ feed : Text, (feed = [] ∨ feed = ['\n']) ∧ piece = code ++ blanks ++ c.text body ++ feed

/-- A line on which no annotation starts. -/
def Unmarked (body : Text) (l : Layout) (m : Markers) (start : Nat) (piece : Text) : Prop :=
  ∀ c ∈ l.comments, m.isAnnotation (c.text body) →
    ¬ (start ≤ c.start ∧ c.start < start + piece.length)

/-- A comment is a hash and what follows it on its line. -/
theorem comment_text_of_scan (accepted : scan body = .ok (.ok s)) (hc : c ∈ s.layout.comments) :
    c.text body = (body.drop c.start).takeWhile (· != '\n') ∧ (c.text body).head? = some '#' ∧
      c.stop = c.start + (c.text body).length := by
  obtain ⟨x, hdrop, hstop, -⟩ := comment_of_scan accepted hc
  have text : c.text body = '#' :: x.takeWhile (· != '\n') := by
    unfold Comment.text
    rw [hdrop, hstop, Nat.add_sub_cancel_left, List.take_succ_cons,
      ← List.prefix_iff_eq_take.1 (List.takeWhile_prefix _)]
  refine ⟨?_, by rw [text]; rfl, by rw [text, hstop]; rfl⟩
  rw [text, hdrop]
  rfl

/-- If all line feeds before annotations are counted, an annotation is recorded for the line on
which it starts. -/
theorem commentOn_iff (accepted : scan body = .ok (.ok s))
    (hp : Text.pieces body = before ++ piece :: after) (hc : c ∈ s.layout.comments)
    (counted : Counted body c.start) :
    s.layout.commentOn (before.length + 1) = some c ↔
      before.flatten.length ≤ c.start ∧ c.start < before.flatten.length + piece.length := by
  obtain ⟨x, -, -, -, -, line⟩ := comment_of_scan accepted hc
  rw [Text.lineFeeds_take_iff hp (start_lt_of_scan accepted hc)]
  have line := line.2 counted
  constructor
  · intro found
    have here := List.find?_some (p := fun d : Comment => d.line == before.length + 1) found
    rw [beq_iff_eq] at here
    omega
  · intro here
    rw [← here, ← line]
    exact commentOn_of_mem accepted hc

/-- A line on which an annotation starts ends in it. -/
theorem noted_of_start (accepted : scan body = .ok (.ok s))
    (hp : Text.pieces body = before ++ piece :: after) (hc : c ∈ s.layout.comments)
    (marked : m.isAnnotation (c.text body))
    (stands : before.flatten.length ≤ c.start ∧ c.start < before.flatten.length + piece.length) :
    ∃ blanks, Noted body s.layout m before.flatten.length piece
      (Text.trimEnd ((Text.lineText piece).take (c.start - before.flatten.length))) blanks c := by
  obtain ⟨text, hash, -⟩ := comment_text_of_scan accepted hc
  obtain ⟨i, hi⟩ := Nat.exists_eq_add_of_le stands.1
  have within : i < piece.length := by omega
  have behind : body.drop c.start = piece.drop i ++ after.flatten := by
    rw [hi, ← List.drop_drop, Text.drop_of_pieces hp, List.flatten_cons,
      List.drop_append_of_le_length (Nat.le_of_lt within)]
  -- the annotation reaches to the end of the line
  have ended : ∃ feed : Text, (feed = [] ∨ feed = ['\n']) ∧ piece.drop i = c.text body ++ feed := by
    rcases Text.isLine_or_last hp with ⟨u, hu, rfl⟩ | ⟨last, length⟩
    · rw [List.length_append, List.length_singleton] at within
      rw [List.drop_append_of_le_length (by omega)] at behind ⊢
      refine ⟨['\n'], .inr rfl, ?_⟩
      rw [text, behind, List.append_assoc, List.takeWhile_append_of_pos]
      · exact (congrArg (· ++ ['\n']) (List.append_nil _)).symm
      · exact bne_lineFeed fun h => hu (List.mem_of_mem_drop h)
    · have none : after.flatten = [] := by
        have whole := congrArg List.length (Text.flatten_pieces body)
        rw [hp, List.flatten_append, List.flatten_cons, List.length_append, List.length_append]
          at whole
        exact List.eq_nil_of_length_eq_zero (by omega)
      refine ⟨[], .inl rfl, ?_⟩
      rw [List.append_nil, text, behind, none, List.append_nil]
      exact (List.takeWhile_eq_self_iff.2
        (bne_lineFeed fun h => last (List.mem_of_mem_drop h))).symm
  obtain ⟨feed, hfeed, hdrop⟩ := ended
  -- the hash ends no line, so that the code before it is not touched
  have front : (Text.lineText piece).take i = piece.take i := by
    obtain ⟨r, hr⟩ := List.head?_eq_some_iff.1 hash
    have length : (piece.take i).length = i := by
      rw [List.length_take]
      omega
    conv => lhs; rw [← List.take_append_drop i piece, hdrop, hr, List.cons_append,
      Text.lineText_append_visible _ (by decide)]
    rw [List.take_append_of_le_length (by omega), List.take_of_length_le (by omega)]
  obtain ⟨blanks, split, blank⟩ := Text.eq_dropEndWhile_append Text.isBlank (piece.take i)
  have offset : c.start - before.flatten.length = i := by omega
  rw [offset, front]
  refine ⟨blanks, hc, marked, ?_, fun x hx => Text.getLast?_dropEndWhile hx, blank, feed, hfeed, ?_⟩
  · show c.start = _ + (Text.dropEndWhile Text.isBlank (piece.take i) ++ blanks).length
    rw [← split, List.length_take, Nat.min_eq_left (Nat.le_of_lt within), hi]
  · show piece = Text.dropEndWhile Text.isBlank (piece.take i) ++ blanks ++ c.text body ++ feed
    rw [← split, List.append_assoc, ← hdrop, List.take_append_drop]

/-- What becomes of a line if only its own annotation counts. -/
theorem keepLine_of_scan (accepted : scan body = .ok (.ok s))
    (counted : ∀ c ∈ s.layout.comments, m.isAnnotation (c.text body) → Counted body c.start)
    (hp : Text.pieces body = before ++ piece :: after) {k : Kept}
    (kept : keepLine body s.layout m before.flatten.length (before.length + 1) piece = .ok k) :
    Unmarked body s.layout m before.flatten.length piece ∧ k = .whole piece ∨
      ∃ code blanks c, Noted body s.layout m before.flatten.length piece code blanks c ∧
        k = if code = [] then .dropped else .trimmed code (Text.terminator piece) := by
  unfold keepLine at kept
  cases hcomment : s.layout.commentOn (before.length + 1) with
  | none =>
    rw [hcomment] at kept
    refine .inl ⟨fun c hc marked stands => ?_, (Except.ok.inj kept).symm⟩
    rw [(commentOn_iff accepted hp hc (counted c hc marked)).2 stands] at hcomment
    cases hcomment
  | some c =>
    have hc : c ∈ s.layout.comments := List.mem_of_find?_eq_some hcomment
    -- the comment that is recorded for the line stands on it if it is an annotation
    rw [hcomment] at kept
    dsimp only at kept
    split at kept
    · next marked =>
      have stands := (commentOn_iff accepted hp hc (counted c hc marked)).1 hcomment
      obtain ⟨blanks, noted⟩ := noted_of_start accepted hp hc marked stands
      refine .inr ⟨_, blanks, c, noted, ?_⟩
      split at kept
      · rw [← Except.ok.inj kept]
        have empty : Text.trimEnd
          ((Text.lineText piece).take (c.start - before.flatten.length)) = [] ↔
            Text.isBlankText ((Text.lineText piece).take (c.start - before.flatten.length)) :=
          List.rdropWhile_eq_nil_iff.trans List.all_eq_true.symm
        exact if_congr empty.symm rfl rfl
      · cases kept
    · next other =>
      refine .inl ⟨fun d hd marked stands => ?_, (Except.ok.inj kept).symm⟩
      rw [(commentOn_iff accepted hp hd (counted d hd marked)).2 stands] at hcomment
      cases hcomment
      exact other marked

/-- The line with a number. -/
theorem Text.exists_line {t : Text} {j : Nat} (hj : j < (pieces t).length) :
    ∃ before piece after, pieces t = before ++ piece :: after ∧ before.length = j :=
  ⟨(pieces t).take j, (pieces t)[j], (pieces t).drop (j + 1),
    by rw [List.getElem_cons_drop, List.take_append_drop], by rw [List.length_take]; omega⟩

/-- Each line is kept or cut by itself. -/
theorem getElem?_keepLines {start line : Nat} {ps : List Text} {ks : List Kept}
    (kept : keepLines body l m start line ps = .ok ks) : ks.length = ps.length ∧
      ∀ before piece after, ps = before ++ piece :: after → ∃ k, ks[before.length]? = some k ∧
        keepLine body l m (start + before.flatten.length) (line + before.length) piece = .ok k := by
  induction ps generalizing start line ks with
  | nil =>
    cases kept
    exact ⟨rfl, fun before _ _ h => absurd h.symm (by simp)⟩
  | cons p ps ih =>
    rw [keepLines] at kept
    cases hk : keepLine body l m start line p with
    | error f =>
      rw [hk] at kept
      cases kept
    | ok k =>
      rw [hk] at kept
      cases hks : keepLines body l m (start + p.length) (line + 1) ps with
      | error f =>
        simp only [hks] at kept
        cases kept
      | ok rest =>
        simp only [hks] at kept
        cases kept
        obtain ⟨length, each⟩ := ih hks
        refine ⟨congrArg (· + 1) length, fun before piece after h => ?_⟩
        cases before with
        | nil =>
          obtain ⟨rfl, -⟩ := List.cons.inj h
          exact ⟨k, rfl, hk⟩
        | cons q before =>
          obtain ⟨rfl, rfl⟩ := List.cons.inj h
          obtain ⟨j, hj, keeps⟩ := each before piece after rfl
          refine ⟨j, hj, ?_⟩
          rw [List.flatten_cons, List.length_append, List.length_cons, ← Nat.add_assoc,
            Nat.add_comm before.length, ← Nat.add_assoc]
          exact keeps

/-! ## Fates -/

/-- A line that is empty, or holds an annotation only. -/
def Bare (body : Text) (l : Layout) (m : Markers) (start : Nat) (piece : Text) : Prop :=
  piece = ['\n'] ∨ piece = ['\r', '\n'] ∨ ∃ blanks c, Noted body l m start piece [] blanks c

/-- From some line up to the given one on, all lines of the program are empty or annotations, with
an annotation among them. -/
def Spent (body : Text) (l : Layout) (m : Markers) (line : Nat) : Prop :=
  ∃ first ≤ line,
    (∀ before piece after, Text.pieces body = before ++ piece :: after → first ≤ before.length →
      Bare body l m before.flatten.length piece) ∧
    ∃ before piece after, Text.pieces body = before ++ piece :: after ∧ first ≤ before.length ∧
      ∃ blanks c, Noted body l m before.flatten.length piece [] blanks c

/-- What becomes of a line that stands behind given ones. -/
inductive Fate (body : Text) (l : Layout) (m : Markers) (before : List Text) (piece : Text) :
    Kept → Prop where
  | whole (unmarked : Unmarked body l m before.flatten.length piece)
      (stays : ¬ ((piece = ['\n'] ∨ piece = ['\r', '\n']) ∧ Spent body l m before.length)) :
      Fate body l m before piece (.whole piece)
  | cut {code blanks : Text} {c : Comment}
    (noted : Noted body l m before.flatten.length piece code blanks c)
      (some : code ≠ []) : Fate body l m before piece (.trimmed code (Text.terminator piece))
  | noted {blanks : Text} {c : Comment}
    (noted : Noted body l m before.flatten.length piece [] blanks c) :
      Fate body l m before piece .dropped
  | empty (empty : piece = ['\n'] ∨ piece = ['\r', '\n']) (spent : Spent body l m before.length) :
      Fate body l m before piece .dropped

theorem Spent.mono {i j : Nat} (le : i ≤ j) (h : Spent body l m i) : Spent body l m j :=
  h.imp fun _ h => ⟨Nat.le_trans h.1 le, h.2⟩

/-- The code before an annotation is what stands before the blanks. -/
theorem Noted.code_eq (h : Noted body l m start piece code blanks c) :
    code = Text.trimEnd (code ++ blanks) := by
  rw [Text.trimEnd_append_of_blank code h.blank]
  exact (Text.dropEndWhile_of_getLast? h.visible).symm

/-- Before an annotation stand the code and the blanks. -/
theorem Noted.take_eq (h : Noted body l m start piece code blanks c) :
    piece.take (code ++ blanks).length = code ++ blanks := by
  obtain ⟨feed, -, split⟩ := h.split
  rw [split, List.append_assoc, List.take_left]

/-- An annotation tells what the code before it is. -/
theorem Noted.unique {code' blanks' : Text} (h : Noted body l m start piece code blanks c)
    (h' : Noted body l m start piece code' blanks' c) : code = code' := by
  have place := h.place
  rw [h'.place] at place
  rw [h.code_eq, h'.code_eq, ← h.take_eq, ← h'.take_eq, Nat.add_left_cancel place]

/-- An annotation starts on its line. -/
theorem Noted.starts (accepted : scan body = .ok (.ok s))
    (h : Noted body s.layout m start piece code blanks c) :
    start ≤ c.start ∧ c.start < start + piece.length := by
  obtain ⟨-, hash, -⟩ := comment_text_of_scan accepted h.mem
  obtain ⟨feed, -, split⟩ := h.split
  obtain ⟨r, hr⟩ := List.head?_eq_some_iff.1 hash
  have length := congrArg List.length split
  rw [hr, List.length_append, List.length_append, List.length_cons] at length
  have place := h.place
  omega

section Pointwise

variable (accepted : scan body = .ok (.ok s))
  (counted : ∀ c ∈ s.layout.comments, m.isAnnotation (c.text body) → Counted body c.start)
include accepted

/-- A line with an annotation is not empty. -/
theorem Noted.not_empty (h : Noted body s.layout m start piece code blanks c) :
    ¬ (piece = ['\n'] ∨ piece = ['\r', '\n']) := by
  obtain ⟨-, hash, -⟩ := comment_text_of_scan accepted h.mem
  obtain ⟨feed, -, split⟩ := h.split
  obtain ⟨r, hr⟩ := List.head?_eq_some_iff.1 hash
  have mem : '#' ∈ piece := by
    rw [split, hr]
    simp
  rintro (rfl | rfl)
  all_goals
    revert mem
    decide

include counted

/-- A line goes with the lines at the end just if it is empty or an annotation. -/
theorem isTail_iff (hp : Text.pieces body = before ++ piece :: after) {k : Kept}
    (kept : keepLine body s.layout m before.flatten.length (before.length + 1) piece = .ok k) :
    (k.isTail ↔ Bare body s.layout m before.flatten.length piece) ∧
      (k = .dropped ↔ ∃ blanks c,
        Noted body s.layout m before.flatten.length piece [] blanks c) := by
  rcases keepLine_of_scan accepted counted hp kept with ⟨unmarked, rfl⟩
    | ⟨code, blanks, c, noted, rfl⟩
  · have none : ¬ ∃ blanks c, Noted body s.layout m before.flatten.length piece [] blanks c :=
      fun ⟨_, c, noted⟩ => unmarked c noted.mem noted.marked (noted.starts accepted)
    refine ⟨?_, ⟨fun h => (nomatch h), fun h => absurd h none⟩⟩
    unfold Bare Kept.isTail
    rw [Bool.or_eq_true, beq_iff_eq, beq_iff_eq, or_iff_left none]
  · -- a line with an annotation falls only if nothing stands before it
    by_cases empty : code = []
    · rw [if_pos empty]
      rw [empty] at noted
      exact ⟨⟨fun _ => .inr (.inr ⟨_, c, noted⟩), fun _ => rfl⟩, fun _ =>
        ⟨_, c, noted⟩, fun _ => rfl⟩
    · rw [if_neg empty]
      have none : ¬ ∃ blanks c, Noted body s.layout m before.flatten.length piece [] blanks c := by
        rintro ⟨_, d, other⟩
        have found := (commentOn_iff accepted hp noted.mem (counted c noted.mem noted.marked)).2
          (noted.starts accepted)
        rw [(commentOn_iff accepted hp other.mem (counted d other.mem other.marked)).2
          (other.starts accepted)] at found
        cases found
        exact empty (noted.unique other)
      refine ⟨⟨fun h => (nomatch h), ?_⟩, ⟨fun h => (nomatch h), fun h => absurd h none⟩⟩
      rintro (h | h | h)
      · exact absurd (.inl h) (noted.not_empty accepted)
      · exact absurd (.inr h) (noted.not_empty accepted)
      · exact absurd h none

/-- The last lines that go are spent, and no others. -/
theorem spent_iff {front tail ks : List Kept} (length : ks.length = (Text.pieces body).length)
    (each : ∀ before piece after, Text.pieces body = before ++ piece :: after →
      ∃ k, ks[before.length]? = some k ∧
        keepLine body s.layout m before.flatten.length (before.length + 1) piece = .ok k)
    (split : ks = front ++ tail) (all : ∀ k ∈ tail, k.isTail)
    (last : ∀ k, front.getLast? = some k → ¬ k.isTail) (line : Nat) :
    Spent body s.layout m line ↔ front.length ≤ line ∧ .dropped ∈ tail := by
  have lines {j : Nat} {k : Kept} (hk : ks[j]? = some k) : ∃ before piece after,
      Text.pieces body = before ++ piece :: after ∧ before.length = j ∧
        (k.isTail ↔ Bare body s.layout m before.flatten.length piece) ∧
        (k = .dropped ↔ ∃ blanks c,
          Noted body s.layout m before.flatten.length piece [] blanks c) := by
    obtain ⟨before, piece, after, hp, rfl⟩ :=
      Text.exists_line (t := body) (length ▸ (List.getElem?_eq_some_iff.1 hk).1)
    obtain ⟨k', hk', kept⟩ := each before piece after hp
    rw [hk] at hk'
    cases hk'
    exact ⟨before, piece, after, hp, rfl, isTail_iff accepted counted hp kept⟩
  constructor
  · rintro ⟨first, le, bare, before, piece, after, hp, behind, noted⟩
    have within : front.length ≤ first := by
      -- the last line that stays is not bare
      refine Nat.le_of_not_lt fun lt => ?_
      obtain ⟨k, hk⟩ : ∃ k, front.getLast? = some k := by
        cases h : front.getLast? with
        | none =>
          rw [List.getLast?_eq_none_iff.1 h] at lt
          cases lt
        | some k => exact ⟨k, rfl⟩
      have here : ks[front.length - 1]? = some k := by
        rw [split, List.getElem?_append_left (by omega), ← List.getLast?_eq_getElem?, hk]
      obtain ⟨before, piece, after, hp, hlength, tail, -⟩ := lines here
      exact last k hk (tail.2 (bare before piece after hp (by omega)))
    refine ⟨Nat.le_trans within le, ?_⟩
    obtain ⟨k, hk, kept⟩ := each before piece after hp
    rw [(isTail_iff accepted counted hp kept).2.2 noted, split,
      List.getElem?_append_right (by omega)] at hk
    exact List.mem_of_getElem? hk
  · rintro ⟨le, dropped⟩
    refine ⟨front.length, le, fun before piece after hp behind => ?_, ?_⟩
    · obtain ⟨k, hk, kept⟩ := each before piece after hp
      rw [split, List.getElem?_append_right behind] at hk
      exact (isTail_iff accepted counted hp kept).1.1 (all k (List.mem_of_getElem? hk))
    · obtain ⟨j, hj⟩ := List.getElem?_of_mem dropped
      have here : ks[front.length + j]? = some .dropped := by
        rw [split, List.getElem?_append_right (by omega), Nat.add_sub_cancel_left, hj]
      obtain ⟨before, piece, after, hp, hlength, -, noted⟩ := lines here
      exact ⟨before, piece, after, hp, by omega, noted.1 rfl⟩

/-- A line that stays has the fate that it has alone. -/
theorem fate_of_not_spent (hp : Text.pieces body = before ++ piece :: after) {k : Kept}
    (stays : ¬ Spent body s.layout m before.length)
    (keeps : keepLine body s.layout m before.flatten.length (before.length + 1) piece = .ok k) :
    Fate body s.layout m before piece k := by
  rcases keepLine_of_scan accepted counted hp keeps with ⟨unmarked, rfl⟩
    | ⟨code, blanks, c, noted, rfl⟩
  · exact .whole unmarked fun h => stays h.2
  · by_cases empty : code = []
    · rw [if_pos empty]
      exact .noted (empty ▸ noted)
    · rw [if_neg empty]
      exact .cut noted empty

/-- A line that is spent goes, if nothing stays of it. -/
theorem fate_of_spent (hp : Text.pieces body = before ++ piece :: after) {k : Kept}
    (spent : Spent body s.layout m before.length) (tailed : k.isTail)
    (keeps : keepLine body s.layout m before.flatten.length (before.length + 1) piece = .ok k) :
    Fate body s.layout m before piece .dropped := by
  have bare := (isTail_iff accepted counted hp keeps).1.1 tailed
  rw [Bare, ← or_assoc] at bare
  rcases bare with empty | ⟨blanks, c, noted⟩
  · exact .empty empty spent
  · exact .noted noted

/-- Every line has its fate. -/
theorem exists_fates {ks : List Kept}
    (kept : keepLines body s.layout m 0 1 (Text.pieces body) = .ok ks) :
    ∃ fates : List Kept, fates.length = (Text.pieces body).length ∧
      (dropTail ks).flatMap Kept.text = fates.flatMap Kept.text ∧
      ∀ before piece after, Text.pieces body = before ++ piece :: after →
        ∃ k, fates[before.length]? = some k ∧ Fate body s.layout m before piece k := by
  obtain ⟨length, lines⟩ := getElem?_keepLines kept
  have each : ∀ before piece after, Text.pieces body = before ++ piece :: after →
      ∃ k, ks[before.length]? = some k ∧
        keepLine body s.layout m before.flatten.length (before.length + 1) piece = .ok k := by
    intro before piece after hp
    obtain ⟨k, hk, keeps⟩ := lines before piece after hp
    rw [Nat.zero_add, Nat.add_comm] at keeps
    exact ⟨k, hk, keeps⟩
  obtain ⟨tail, split, all⟩ := Text.eq_dropEndWhile_append Kept.isTail ks
  have spent := spent_iff accepted counted length each split (List.all_eq_true.1 all)
    fun k hk => Bool.eq_false_iff.1 (Text.getLast?_dropEndWhile hk)
  have behind : ks.drop (Text.dropEndWhile Kept.isTail ks).length = tail := by
    conv => lhs; rhs; rw [split]
    rw [List.drop_left]
  have gone : (tail.any (· == .dropped)) = true ↔ .dropped ∈ tail := by
    rw [List.any_eq_true]
    exact ⟨fun ⟨k, hk, h⟩ => beq_iff_eq.1 h ▸ hk, fun h => ⟨_, h, beq_self_eq_true _⟩⟩
  unfold dropTail
  dsimp only
  rw [behind]
  -- the tail is cut off just if a line in it was an annotation
  by_cases dropped : .dropped ∈ tail
  · rw [if_pos (gone.2 dropped)]
    refine ⟨Text.dropEndWhile Kept.isTail ks ++ tail.map fun _ => .dropped, ?_, ?_, ?_⟩
    · have whole := congrArg List.length split
      rw [List.length_append] at whole
      rw [List.length_append, List.length_map, ← whole, length]
    · rw [List.flatMap_append, List.flatMap_map]
      have nothing : (tail.flatMap fun _ => Kept.dropped.text) = [] :=
        List.flatMap_eq_nil_iff.2 fun _ _ => rfl
      rw [nothing, List.append_nil]
    · intro before piece after hp
      obtain ⟨k, hk, keeps⟩ := each before piece after hp
      -- before the tail each line has the fate that it was given, in the tail all lines are dropped
      by_cases early : before.length < (Text.dropEndWhile Kept.isTail ks).length
      · rw [split, List.getElem?_append_left early] at hk
        refine ⟨k, by rw [List.getElem?_append_left early, hk],
          fate_of_not_spent accepted counted hp (fun h => ?_) keeps⟩
        have := ((spent before.length).1 h).1
        omega
      · rw [split, List.getElem?_append_right (Nat.le_of_not_lt early)] at hk
        have tailed := List.all_eq_true.1 all k (List.mem_of_getElem? hk)
        have here := (spent before.length).2 ⟨Nat.le_of_not_lt early, dropped⟩
        refine ⟨.dropped, ?_, fate_of_spent accepted counted hp here tailed keeps⟩
        rw [List.getElem?_append_right (Nat.le_of_not_lt early), List.getElem?_map, hk]
        rfl
  · rw [if_neg (mt gone.1 dropped)]
    refine ⟨ks, length, rfl, fun before piece after hp => ?_⟩
    obtain ⟨k, hk, keeps⟩ := each before piece after hp
    exact ⟨k, hk, fate_of_not_spent accepted counted hp
      (fun h => dropped ((spent before.length).1 h).2) keeps⟩

end Pointwise

/-! ## Places that are lost -/

/-- Whether a place of a line stays. -/
def Kept.Keeps (piece : Text) : Kept → Nat → Prop
  | .whole _, _ => True
  | .trimmed code terminator, i => i < code.length ∨ piece.length ≤ i + terminator.length
  | .dropped, _ => False

/-- A place of a program does not stay. -/
def Lost (body : Text) (fates : List Kept) (p : Nat) : Prop := ∃ before piece after k,
  Text.pieces body = before ++ piece :: after ∧ fates[before.length]? = some k ∧
    ∃ i < piece.length, p = before.flatten.length + i ∧ ¬ k.Keeps piece i

/-- A place on a line is a place of the body. -/
theorem getElem?_of_pieces (hp : Text.pieces body = before ++ piece :: after) {i : Nat}
    (hi : i < piece.length) : body[before.flatten.length + i]? = piece[i]? := by
  rw [← Text.flatten_of_pieces hp, List.getElem?_append_right (Nat.le_add_right _ i),
    Nat.add_sub_cancel_left, List.flatten_cons, List.getElem?_append_left hi]

/-- Further on in a program there are no lines before. -/
theorem length_le_of_place {before' after' : List Text} {piece' : Text} {q : Nat}
    (hp : Text.pieces body = before ++ piece :: after)
    (hq : Text.pieces body = before' ++ piece' :: after') (le : p ≤ q) (hlt : q < body.length)
    (here : before.flatten.length ≤ p ∧ p < before.flatten.length + piece.length)
    (there : before'.flatten.length ≤ q ∧ q < before'.flatten.length + piece'.length) :
    before.length ≤ before'.length := by
  rw [← (Text.lineFeeds_take_iff hp (by omega)).1 here, ← (Text.lineFeeds_take_iff hq hlt).1 there]
  obtain ⟨d, rfl⟩ := Nat.exists_eq_add_of_le le
  rw [List.take_add, Text.lineFeeds_append]
  exact Nat.le_add_right _ _

/-- A place of a noted line is on the code, on the blanks behind it, on the annotation, or on the
line feed. -/
theorem Noted.place_cases (accepted : scan body = .ok (.ok s))
    (hp : Text.pieces body = before ++ piece :: after)
    (h : Noted body s.layout m before.flatten.length piece code blanks c) {i : Nat}
    (hi : i < piece.length) (behind : code.length ≤ i) :
    (before.flatten.length + i < c.start ∧ ∀ q, before.flatten.length + i ≤ q → q < c.start →
        ∃ x, body[q]? = some x ∧ Text.isBlank x) ∨
      (c.start ≤ before.flatten.length + i ∧ before.flatten.length + i < c.stop) ∨
      before.flatten.length + i = c.stop ∧ body[c.stop]? = some '\n' := by
  obtain ⟨feed, hfeed, split⟩ := h.split
  have place := h.place
  obtain ⟨-, -, stop⟩ := comment_text_of_scan accepted h.mem
  rw [List.length_append] at place
  have whole := congrArg List.length split
  rw [List.length_append, List.length_append, List.length_append] at whole
  -- in the blanks before the annotation, in the annotation, or at the line feed behind it
  by_cases early : before.flatten.length + i < c.start
  · refine .inl ⟨early, fun q le lt => ?_⟩
    obtain ⟨j, rfl⟩ := Nat.exists_eq_add_of_le (Nat.le_trans (Nat.le_add_right _ i) le)
    have within : j - code.length < blanks.length := by omega
    refine ⟨blanks[j - code.length], ?_, List.all_eq_true.1 h.blank _ (List.getElem_mem within)⟩
    rw [getElem?_of_pieces hp (by omega), split, List.append_assoc, List.append_assoc,
      List.getElem?_append_right (by omega), List.getElem?_append_left within,
      List.getElem?_eq_getElem within]
  · right
    by_cases on : before.flatten.length + i < c.stop
    · exact .inl ⟨Nat.le_of_not_lt early, on⟩
    · rcases hfeed with rfl | rfl
      · rw [List.length_nil] at whole
        omega
      · rw [List.length_singleton] at whole
        have last : before.flatten.length + i = c.stop := by omega
        refine .inr ⟨last, ?_⟩
        rw [← last, getElem?_of_pieces hp hi, split, List.getElem?_append_right (by
          rw [List.length_append, List.length_append]; omega)]
        rw [List.length_append, List.length_append, show i - _ = 0 from by omega]
        rfl

/-! ## Tokens beside annotations -/

namespace Source.Tokenizer

/-- Behind a comment the line ends. -/
theorem behind_comment {s : Tokenizer} {t : Token} (ht : t ∈ s.run.tokens)
    (kind : t.kind = .comment) :
    ∃ u, Reaches s u ∧ u.AtEnd ∧ u.cursor.position = t.stop := by
  induction s using walk_induction with
  | stop s found ending h =>
    rw [tokens_run_of_stop h] at ht
    exact absurd kind (not_comment_of_stop h t ht)
  | next s found u h ih =>
    rw [tokens_run_of_next h] at ht
    rcases List.mem_append.1 ht with ht | ht
    · obtain ⟨-, -, -, -, -, -, -, ended⟩ := comment_of_next h ht kind
      refine ⟨u, .step .here h, ended, ?_⟩
      obtain ⟨-, -, ⟨k, only, -, stop, -⟩ | ⟨none, -⟩⟩ := next_cases h
      · rw [only, List.mem_singleton] at ht
        rw [ht, stop]
      · rw [none] at ht
        cases ht
    · obtain ⟨v, reach, ended, place⟩ := ih ht
      exact ⟨v, Reaches.trans (.step .here h) reach, ended, place⟩

/-- At the end of a line a walk that is completed finds a line end. -/
theorem newline_of_atEnd {s : Tokenizer} {a : Text} (ended : s.AtEnd)
    (hr : s.cursor.rest = '\n' :: a) (complete : s.run.ending = .complete) :
    ∃ t ∈ s.run.tokens, t.kind = .newline ∧ t.start = s.cursor.position := by
  -- the step takes the line feed, and outside of literals it is a token
  cases h : s.step with
  | stop found ending =>
    rw [run_of_stop h] at complete
    rw [step_of_lineFeed hr] at h
    unfold takeNewline at h
    dsimp only at h
    split at h
    · cases h
      cases complete
    · cases h
  | next found u =>
    obtain ⟨-, -, ⟨k, only, start, -⟩ | ⟨none, -⟩⟩ := next_cases h
    · have place : s.origin = s.cursor.position := by
        rw [origin, ended.1]
        rfl
      rw [step_of_lineFeed hr] at h
      obtain ⟨j, kind, -, hj⟩ := newline_of_takeNewline h
      have outside : s.unnamed.suspended.isEmpty := List.isEmpty_iff.2 ended.1
      rw [if_pos outside, only] at hj
      obtain rfl := List.singleton_inj.1 hj
      rw [← step_of_lineFeed hr] at h
      refine ⟨k, ?_, kind, start.trans place⟩
      rw [tokens_run_of_next h, only]
      exact List.mem_append_left _ (List.mem_singleton_self k)
    · rw [step_of_lineFeed hr] at h
      obtain ⟨j, -, -, hj⟩ := newline_of_takeNewline h
      have outside : s.unnamed.suspended.isEmpty := List.isEmpty_iff.2 ended.1
      rw [if_pos outside, none] at hj
      cases hj

/-- What is recorded of a comment tells its text. -/
theorem text_of_comment {k : Token} (hk : k ∈ (tokenize body).tokens) (kind : k.kind = .comment) :
    (⟨k.line, k.start, k.stop⟩ : Comment).text body = k.text := by
  have shows := shows_of_mem_tokensOf (shows_run (placed_ofSource body)).1 k
    (Tokenization.tokens_eq _ ▸ hk)
  rw [shows.text, kind, if_neg (by decide)]
  rfl

end Source.Tokenizer

/-- A token that is an annotation. -/
def Annotates (m : Markers) (t : Token) : Prop := t.kind = .comment ∧ m.isAnnotation t.text

section Tokens

variable (accepted : scan body = .ok (.ok s)) {t : Token} (ht : t ∈ (tokenize body).tokens)
include accepted

/-- The token that a comment is. -/
theorem exists_token_of_comment (hc : c ∈ s.layout.comments) : ∃ a ∈ (tokenize body).tokens,
    a.kind = .comment ∧ a.text = c.text body ∧ a.start = c.start ∧ a.stop = c.stop := by
  rw [comments_of_scan accepted] at hc
  obtain ⟨a, ha, rfl⟩ := List.mem_map.1 hc
  obtain ⟨mem, kind⟩ := List.mem_filter.1 ha
  have kind := beq_iff_eq.1 kind
  exact ⟨a, mem, kind, (Tokenizer.text_of_comment mem kind).symm, rfl, rfl⟩

/-- The comment that a token is recorded as. -/
theorem exists_comment_of_token {k : Token} (hk : k ∈ (tokenize body).tokens)
    (kind : k.kind = .comment) :
    ∃ c ∈ s.layout.comments, c.text body = k.text ∧ c.start = k.start := by
  refine ⟨⟨k.line, k.start, k.stop⟩, ?_, Tokenizer.text_of_comment hk kind, rfl⟩
  rw [comments_of_scan accepted]
  exact List.mem_map.2 ⟨k, List.mem_filter.2 ⟨hk, beq_iff_eq.2 kind⟩, rfl⟩

include ht

/-- A token that is no annotation stands beside each annotation. -/
theorem apart_of_marked (other : ¬ Annotates m t) (hc : c ∈ s.layout.comments)
    (marked : m.isAnnotation (c.text body)) : t.stop ≤ c.start ∨ c.stop ≤ t.start := by
  obtain ⟨a, ha, kind, text, start, stop⟩ := exists_token_of_comment accepted hc
  rw [← start, ← stop]
  rcases Tokenizer.eq_or_apart (s := .ofSource body) (Nat.le_refl _) ht ha with rfl | apart
  · exact absurd ⟨kind, text ▸ marked⟩ other
  · exact apart

/-- A token that starts behind a comment is the end of the line. -/
theorem newline_of_behind (hc : c ∈ s.layout.comments) (start : t.start = c.stop)
    (long : t.start < t.stop) (lineFeed : body[c.stop]? = some '\n') : t.kind = .newline := by
  obtain ⟨a, ha, kind, -, -, stop⟩ := exists_token_of_comment accepted hc
  obtain ⟨u, reach, ended, place⟩ := Tokenizer.behind_comment (s := .ofSource body) ha kind
  have rest := (Tokenizer.placed_of_reaches (Tokenizer.placed_ofSource body) reach).cursor.rest
  rw [place, stop] at rest
  rw [← List.head?_drop, ← rest] at lineFeed
  obtain ⟨x, hx⟩ := List.head?_eq_some_iff.1 lineFeed
  obtain ⟨_, -, complete, -⟩ := Scan.eq_of_scan accepted
  obtain ⟨b, hb, newline, first⟩ := Tokenizer.newline_of_atEnd ended hx
    (Tokenizer.ending_of_reaches reach complete)
  have mem : b ∈ (tokenize body).tokens := reach.mem_tokens hb
  have same : b.start = t.start := by rw [first, place, stop, start]
  have spans := (Tokenizer.token_of_run (.ofSource body) (Nat.le_refl _) b mem).1.2
    (by rw [newline]; decide)
  rcases Tokenizer.eq_or_apart (s := .ofSource body) (Nat.le_refl _) ht mem with rfl | apart
  · exact newline
  · omega

/-- What a token loses on a line with an annotation are blanks at its end, unless it is the end of
the line. -/
theorem white_of_noted (other : ¬ Annotates m t) (hp : Text.pieces body = before ++ piece :: after)
    (noted : Noted body s.layout m before.flatten.length piece code blanks c) {i : Nat}
    (hi : i < piece.length) (behind : code.length ≤ i) (le : t.start ≤ before.flatten.length + i)
    (lt : before.flatten.length + i < t.stop) :
    t.kind = .newline ∧ before.flatten.length + i = t.start ∨ ∀ q, before.flatten.length + i ≤ q →
      q < t.stop → ∃ x, body[q]? = some x ∧ Text.isBlank x := by
  have apart := apart_of_marked accepted ht other noted.mem noted.marked
  have long : c.start ≤ c.stop := by
    rw [(comment_text_of_scan accepted noted.mem).2.2]
    exact Nat.le_add_right _ _
  obtain ⟨early, blank⟩ | on | ⟨last, lineFeed⟩ := noted.place_cases accepted hp hi behind
  · exact .inr fun q hq hlt => blank q hq (by omega)
  · omega
  · have start : t.start = c.stop := by omega
    exact .inl ⟨newline_of_behind accepted ht noted.mem start (by omega) lineFeed, by omega⟩

/-- What a token loses on an empty line of the end of the program are blanks at its end. -/
theorem white_of_spent (other : ¬ Annotates m t) (hp : Text.pieces body = before ++ piece :: after)
    (spent : Spent body s.layout m before.length) {i : Nat} (hi : i < piece.length)
    (le : t.start ≤ before.flatten.length + i) : ∀ q, before.flatten.length + i ≤ q → q < t.stop →
      ∃ x, body[q]? = some x ∧ Text.isBlank x := by
  intro q hq lt
  have inside : q < body.length := by
    have stop := Tokenizer.stop_le_of_run (.ofSource body) t ht
    have whole : (Tokenizer.ofSource body).cursor.position +
      (Tokenizer.ofSource body).cursor.rest.length = body.length := Nat.zero_add _
    omega
  obtain ⟨before', piece', after', hp', here⟩ := Text.exists_piece inside
  have later : before.length ≤ before'.length :=
    length_le_of_place hp hp' hq inside ⟨Nat.le_add_right _ _, by omega⟩ here
  obtain ⟨first, hfirst, bare, -⟩ := spent
  obtain ⟨j, rfl⟩ := Nat.exists_eq_add_of_le here.1
  have hj : j < piece'.length := by omega
  rw [getElem?_of_pieces hp' hj, List.getElem?_eq_getElem hj]
  refine ⟨_, rfl, ?_⟩
  have blank : ∀ u : Text, Text.isBlankText u → ∀ x ∈ u, Text.isBlank x :=
    fun u h => List.all_eq_true.1 h
  -- the line that the place is on is bare, and the token is apart from its annotation
  obtain empty | empty | ⟨blanks, c, noted⟩ := bare before' piece' after' hp' (by omega)
  · exact blank piece' (by rw [empty]; decide) _ (List.getElem_mem hj)
  · exact blank piece' (by rw [empty]; decide) _ (List.getElem_mem hj)
  · have apart := apart_of_marked accepted ht other noted.mem noted.marked
    obtain ⟨early, white⟩ | on | ⟨last, lineFeed⟩ :=
      noted.place_cases accepted hp' hj (Nat.zero_le j)
    · obtain ⟨x, hx, white⟩ := white _ (Nat.le_refl _) early
      rw [getElem?_of_pieces hp' hj, List.getElem?_eq_getElem hj] at hx
      exact Option.some.inj hx ▸ white
    · omega
    · rw [← last, getElem?_of_pieces hp' hj, List.getElem?_eq_getElem hj] at lineFeed
      rw [Option.some.inj lineFeed]
      rfl

end Tokens

/-! ## What is lost -/

section Losses

variable (accepted : scan body = .ok (.ok s))
  (counted : ∀ c ∈ s.layout.comments, m.isAnnotation (c.text body) → Counted body c.start)
  {fates : List Kept} (each : ∀ before piece after, Text.pieces body = before ++ piece :: after →
    ∃ k, fates[before.length]? = some k ∧ Fate body s.layout m before piece k)

include accepted counted in
/-- An annotation is the only comment of its line. -/
theorem Noted.only (hp : Text.pieces body = before ++ piece :: after) {d : Comment}
    (noted : Noted body s.layout m before.flatten.length piece code blanks d)
    (hc : c ∈ s.layout.comments)
    (stands : before.flatten.length ≤ c.start ∧ c.start < before.flatten.length + piece.length) :
    c = d := by
  have countedHere := counted d noted.mem noted.marked
  have known := (commentOn_iff accepted hp noted.mem countedHere).2 (noted.starts accepted)
  by_cases early : c.start ≤ d.start
  · have found := (commentOn_iff accepted hp hc fun u reach lt => countedHere u reach (by omega)).2
      stands
    rw [known] at found
    exact (Option.some.inj found).symm
  · -- behind the annotation there is only the end of the line
    exfalso
    obtain ⟨x, hdrop, hstop, -⟩ := comment_of_scan accepted hc
    have first : body[c.start]? = some '#' := by
      rw [← List.head?_drop, hdrop]
      rfl
    obtain ⟨a, ha, -, -, start, stop⟩ := exists_token_of_comment accepted hc
    obtain ⟨b, hb, -, -, start', stop'⟩ := exists_token_of_comment accepted noted.mem
    have apart : d.stop ≤ c.start := by
      rcases Tokenizer.eq_or_apart (s := .ofSource body) (Nat.le_refl _) ha hb with rfl | apart
      all_goals omega
    obtain ⟨i, hi⟩ := Nat.exists_eq_add_of_le stands.1
    have place := noted.place
    rw [List.length_append] at place
    obtain ⟨before, -⟩ | on | ⟨last, lineFeed⟩ :=
      noted.place_cases accepted hp (i := i) (by omega) (by omega)
    · omega
    · omega
    · rw [← last, ← hi, first] at lineFeed
      cases lineFeed

include accepted counted in
/-- If a line is one of those at the end that are empty or annotations, it goes. -/
theorem Fate.dropped_of_spent (hp : Text.pieces body = before ++ piece :: after) {k : Kept}
    (spent : Spent body s.layout m before.length) (fate : Fate body s.layout m before piece k) :
    k = .dropped := by
  obtain ⟨first, le, bare, -⟩ := id spent
  have bare := bare before piece after hp le
  rw [Bare, ← or_assoc] at bare
  cases fate with
  | whole unmarked stays =>
    rcases bare with empty | ⟨blanks, c, noted⟩
    · exact absurd ⟨empty, spent⟩ stays
    · exact absurd (noted.starts accepted) (unmarked c noted.mem noted.marked)
  | cut noted some =>
    rcases bare with empty | ⟨blanks, c, other⟩
    · exact absurd empty (noted.not_empty accepted)
    · obtain rfl := noted.only accepted counted hp other.mem (other.starts accepted)
      exact absurd (noted.unique other) some
  | noted | empty => rfl

include accepted counted each in
/-- All of a comment stays if it is no annotation. -/
theorem comment_stays (hc : c ∈ s.layout.comments) (plain : ¬ m.isAnnotation (c.text body)) :
    ∀ p, c.start ≤ p → p < c.stop → ¬ Lost body fates p := by
  rintro p le lt ⟨before, piece, after, k, hp, hk, i, hi, rfl, lost⟩
  obtain ⟨x, hdrop, -⟩ := comment_of_scan accepted hc
  -- the comment starts on the line on which the place is
  obtain ⟨inside, same⟩ := lineFeeds_take_of_comment accepted hc le lt
  have here := (Text.lineFeeds_take_iff hp inside).1 ⟨Nat.le_add_right _ i, by omega⟩
  have stands := (Text.lineFeeds_take_iff hp (start_lt_of_scan accepted hc)).2 (same ▸ here)
  obtain ⟨k', hk', fate⟩ := each before piece after hp
  rw [hk] at hk'
  cases hk'
  cases fate with
  | whole => exact lost trivial
  | cut noted => exact plain (noted.only accepted counted hp hc stands ▸ noted.marked)
  | noted noted => exact plain (noted.only accepted counted hp hc stands ▸ noted.marked)
  | empty empty =>
    obtain ⟨j, hj⟩ := Nat.exists_eq_add_of_le stands.1
    have first : piece[j]? = some '#' := by
      rw [← getElem?_of_pieces hp (by omega), ← hj, ← List.head?_drop, hdrop]
      rfl
    have mem := List.mem_of_getElem? first
    rcases empty with rfl | rfl
    all_goals
      revert mem
      decide

include accepted each in
/-- What a token loses are blanks at its end, unless it is the end of a line. -/
theorem white_of_lost {t : Token} (ht : t ∈ (tokenize body).tokens) (other : ¬ Annotates m t)
    (le : t.start ≤ p) (lt : p < t.stop) (lost : Lost body fates p) :
    t.kind = .newline ∧ p = t.start ∨
      ∀ q, p ≤ q → q < t.stop → ∃ x, body[q]? = some x ∧ Text.isBlank x := by
  obtain ⟨before, piece, after, k, hp, hk, i, hi, rfl, lost⟩ := lost
  obtain ⟨k', hk', fate⟩ := each before piece after hp
  rw [hk] at hk'
  cases hk'
  cases fate with
  | whole => exact absurd trivial lost
  | cut noted =>
    rw [Kept.Keeps, not_or] at lost
    exact white_of_noted accepted ht other hp noted hi (by omega) le lt
  | noted noted => exact white_of_noted accepted ht other hp noted hi (Nat.zero_le i) le lt
  | empty _ spent => exact .inr (white_of_spent accepted ht other hp spent hi le)

end Losses

/-! ## Whole programs -/

/-- What becomes of the lines of a program, and what is lost. -/
structure Pared (body : Text) (s : Scan) (m : Markers) (fates : List Kept) : Prop where
  length : fates.length = (Text.pieces body).length
  fate : ∀ before piece after, Text.pieces body = before ++ piece :: after →
    ∃ k, fates[before.length]? = some k ∧ Fate body s.layout m before piece k
  comments : ∀ c ∈ s.layout.comments, ¬ m.isAnnotation (c.text body) →
    ∀ p, c.start ≤ p → p < c.stop → ¬ Lost body fates p
  tokens : ∀ t ∈ (tokenize body).tokens, ¬ Annotates m t → ∀ p, t.start ≤ p → p < t.stop →
    Lost body fates p → t.kind = .newline ∧ p = t.start ∨
      ∀ q, p ≤ q → q < t.stop → ∃ x, body[q]? = some x ∧ Text.isBlank x

/-- The line that has a fate. -/
theorem Pared.exists_line {fates : List Kept} (h : Pared body s m fates) {j : Nat} {k : Kept}
    (hk : fates[j]? = some k) : ∃ before piece after, Text.pieces body = before ++ piece :: after ∧
      before.length = j ∧ Fate body s.layout m before piece k := by
  obtain ⟨before, piece, after, hp, rfl⟩ :=
    Text.exists_line (t := body) (h.length ▸ (List.getElem?_eq_some_iff.1 hk).1)
  obtain ⟨k', hk', fate⟩ := h.fate before piece after hp
  rw [hk] at hk'
  cases hk'
  exact ⟨before, piece, after, hp, rfl, fate⟩

/-- Without annotations all lines stay. -/
theorem Pared.text_of_plain {fates : List Kept} (h : Pared body s m fates)
    (plain : ∀ c ∈ s.layout.comments, ¬ m.isAnnotation (c.text body)) :
    fates.flatMap Kept.text = body := by
  have whole : fates = (Text.pieces body).map .whole := by
    refine List.ext_getElem? fun j => ?_
    rw [List.getElem?_map]
    cases hk : fates[j]? with
    | none =>
      rw [List.getElem?_eq_none_iff, h.length] at hk
      rw [List.getElem?_eq_none_iff.2 hk]
      rfl
    | some k =>
      obtain ⟨before, piece, after, hp, rfl, fate⟩ := h.exists_line hk
      rw [hp, List.getElem?_append_right (Nat.le_refl _), Nat.sub_self]
      cases fate with
      | whole => rfl
      | cut noted => exact absurd noted.marked (plain _ noted.mem)
      | noted noted => exact absurd noted.marked (plain _ noted.mem)
      | empty _ spent =>
        obtain ⟨_, _, _, _, _, _, _, _, _, c, noted⟩ := spent
        exact absurd noted.marked (plain c noted.mem)
  rw [whole, List.flatMap_map]
  show (Text.pieces body).flatMap id = body
  rw [List.flatMap_id, Text.flatten_pieces]

/-- Where a program is accepted, each of its lines has its fate. -/
theorem exists_pared {cleaned : Text} (accepted : scan body = .ok (.ok s))
    (removes : removeAnnotations body m = .ok cleaned) :
    ∃ fates, Pared body s m fates ∧ cleaned = fates.flatMap Kept.text := by
  rw [removeAnnotations_of_scan m accepted] at removes
  have counted := (removeWith_answers_iff accepted).1 ⟨cleaned, removes⟩
  unfold removeWith at removes
  cases kept : keepLines body s.layout m 0 1 (Text.pieces body) with
  | error f =>
    rw [kept] at removes
    cases removes
  | ok ks =>
    rw [kept] at removes
    obtain ⟨fates, length, text, each⟩ := exists_fates accepted counted kept
    refine ⟨fates, ⟨length, each, ?_, ?_⟩, (Except.ok.inj removes).symm.trans text⟩
    · exact fun c hc plain => comment_stays accepted counted each hc plain
    · exact fun t ht other p le lt lost => white_of_lost accepted each ht other le lt lost

/-- A program that is refused stays, and so does one without annotations. In any other each line has
its fate, all other comments stay, and of a token that is no annotation only blanks at its end are
lost, or the end of a line. -/
theorem removeAnnotations_pares {cleaned : Text}
    (removes : removeAnnotations body m = .ok cleaned) :
    ((∃ error, scan body = .ok (.error error)) → cleaned = body) ∧
    ∀ s, scan body = .ok (.ok s) →
      ((∀ c ∈ s.layout.comments, ¬ m.isAnnotation (c.text body)) → cleaned = body) ∧
      ∃ fates, Pared body s m fates ∧ cleaned = fates.flatMap Kept.text := by
  constructor
  · rintro ⟨error, refused⟩
    unfold removeAnnotations at removes
    rw [refused] at removes
    exact (Except.ok.inj removes).symm
  · intro s accepted
    obtain ⟨fates, pared, cleans⟩ := exists_pared accepted removes
    exact ⟨fun plain => cleans.trans (pared.text_of_plain plain), fates, pared, cleans⟩

/-- Annotations behind code, on a line of their own, in a string and at the end, where blank lines
go with them. -/
theorem removeAnnotations_pares_blocks :
    let body := "x = 1  # => 1\n# => 2\n\n\"# => 3\"  # 4\n\n# >> x\n\n".toList
    let cleaned := "x = 1\n\n\"# => 3\"  # 4\n".toList
    removeAnnotations body {} = .ok cleaned ∧ ∃ s fates, scan body = .ok (.ok s) ∧
      Pared body s {} fates ∧ cleaned = fates.flatMap Kept.text := by
  intro body cleaned
  have checked : ∃ s ∈ scanFor 40 body, removeWith body s.layout {} = .ok cleaned := by
    decide +kernel
  obtain ⟨s, hs, removed⟩ := checked
  have accepted := scan_of_scanFor hs
  have removes : removeAnnotations body {} = .ok cleaned :=
    (removeAnnotations_of_scan {} accepted).trans removed
  obtain ⟨fates, pared, cleans⟩ := ((removeAnnotations_pares removes).2 s accepted).2
  exact ⟨removes, s, fates, accepted, pared, cleans⟩

/-- The literal of a blank ends in that blank, which is lost with the blanks before the
annotation. -/
theorem removeAnnotations_pares_literal :
    let body := "x = ?\\  # => 1\n".toList
    let cleaned := "x = ?\\\n".toList
    removeAnnotations body {} = .ok cleaned ∧
      ∃ t ∈ (tokenize body).tokens, t.kind = .literal ∧ t.text = "?\\ ".toList ∧
        ¬ t.text <:+: cleaned := by
  intro body cleaned
  have checked : ∃ s ∈ scanFor 20 body, removeWith body s.layout {} = .ok cleaned := by
    decide +kernel
  have found : ∃ whole ∈ Tokenizer.runFor 20 (.ofSource body), ∃ t ∈ whole.tokens,
      t.kind = .literal ∧ t.text = "?\\ ".toList ∧ ¬ t.text <:+: cleaned := by
    decide +kernel
  obtain ⟨s, hs, removed⟩ := checked
  obtain ⟨whole, hwhole, literal⟩ := found
  rw [tokenize, Tokenizer.run_eq_of_runFor hwhole]
  exact ⟨(removeAnnotations_of_scan {} (scan_of_scanFor hs)).trans removed, literal⟩

end Marginalia
