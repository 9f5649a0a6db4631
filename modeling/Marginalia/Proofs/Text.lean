import Marginalia.Text
import Mathlib.Data.List.DropRight

/-!
# Cutting texts

Facts about the ways a text is cut, as far as the library does not have them. Dropping a class of
characters at the end of a text looks at its last character first (`dropEndWhile_append`), so that
what stands before a character that stays plays no role. A text that is put together from finished
lines is cut into just these lines (`pieces_append`, `pieces_flatten`).
-/

namespace Marginalia.Text

/-! ## Ends of texts -/

section DropEndWhile

variable {α : Type} {p : α → Bool}

/-- What is dropped satisfies the condition throughout. -/
theorem eq_dropEndWhile_append (p : α → Bool) (t : List α) :
    ∃ s, t = dropEndWhile p t ++ s ∧ s.all p :=
  ⟨t.rtakeWhile p, List.rdropWhile_append_rtakeWhile.symm,
    List.all_eq_true.2 fun _ => List.mem_rtakeWhile_imp⟩

/-- What stands before a text of which something stays is kept. -/
theorem dropEndWhile_append {t : List α} (u : List α) (ht : t.all p = false) :
    dropEndWhile p (u ++ t) = u ++ dropEndWhile p t := by
  have stays : (t.reverse.dropWhile p).isEmpty = false := by
    rw [Bool.eq_false_iff, ne_eq, List.isEmpty_iff, List.dropWhile_eq_nil_iff]
    intro all
    rw [List.all_eq_true.2 fun x hx => all x (List.mem_reverse.2 hx)] at ht
    cases ht
  rw [dropEndWhile, List.reverse_append, List.dropWhile_append, if_neg (by rw [stays]; nofun),
    List.reverse_append, List.reverse_reverse, dropEndWhile]

/-- A text of which nothing stays is dropped with what stays of the text before it. -/
theorem dropEndWhile_append_of_all {t : List α} (u : List α) (ht : t.all p) :
    dropEndWhile p (u ++ t) = dropEndWhile p u := by
  have all : ∀ x ∈ t.reverse, p x := fun x hx => List.all_eq_true.1 ht x (List.mem_reverse.1 hx)
  rw [dropEndWhile, List.reverse_append, List.dropWhile_append_of_pos all, dropEndWhile]

/-- An element that stays keeps what stands before it. -/
theorem dropEndWhile_cons_of_neg {x : α} (hx : p x = false) (t : List α) :
    dropEndWhile p (x :: t) = x :: dropEndWhile p t := by
  rw [dropEndWhile, List.reverse_cons, List.dropWhile_append]
  split
  · next none =>
    rw [dropEndWhile, List.isEmpty_iff.1 none, List.dropWhile_cons, hx]
    rfl
  · rw [List.reverse_append, dropEndWhile]
    rfl

/-- Nothing is dropped from a text whose last character is to stay. -/
theorem dropEndWhile_of_getLast? {t : List α} (ht : ∀ x, t.getLast? = some x → p x = false) :
    dropEndWhile p t = t :=
  List.rdropWhile_eq_self_iff.2 fun ne =>
    Bool.eq_false_iff.1 (ht _ (List.getLast?_eq_some_getLast ne))

/-- What is last behind the dropping is to stay. -/
theorem getLast?_dropEndWhile {t : List α} {x : α} (h : (dropEndWhile p t).getLast? = some x) :
    p x = false := by
  have ne : dropEndWhile p t ≠ [] := by
    rintro none
    rw [none] at h
    cases h
  rw [List.getLast?_eq_some_getLast ne, Option.some.injEq] at h
  rw [← h, Bool.eq_false_iff]
  exact List.rdropWhile_last_not p t ne

end DropEndWhile

/-- A line is its text and its terminator. -/
theorem lineText_append_terminator (piece : Text) : lineText piece ++ terminator piece = piece := by
  obtain ⟨s, hs, -⟩ := eq_dropEndWhile_append (fun c => c == '\n' || c == '\r') piece
  have : piece = lineText piece ++ s := hs
  rw [terminator]
  conv => lhs; rhs; rhs; rw [this]
  rw [List.drop_left]
  exact this.symm

/-- Blanks at the end make no difference to the trimmed text. -/
theorem trimEnd_append_of_blank {u : Text} (t : Text) (hu : isBlankText u) :
    trimEnd (t ++ u) = trimEnd t := dropEndWhile_append_of_all t hu

/-- A text is trimmed at once. -/
theorem trimEnd_trimEnd (t : Text) : trimEnd (trimEnd t) = trimEnd t :=
  List.rdropWhile_idempotent isBlank t

/-- Trimming brings no character. -/
theorem notMem_trimEnd {c : Char} {t : Text} (h : c ∉ t) : c ∉ trimEnd t :=
  fun hm => h ((List.rdropWhile_prefix isBlank t).subset hm)

theorem isBlankText_append (t u : Text) :
    isBlankText (t ++ u) = (isBlankText t && isBlankText u) := List.all_append

theorem isBlankText_replicate (n : Nat) : isBlankText (List.replicate n ' ') := by
  unfold isBlankText
  rw [List.all_replicate]
  split
  · rfl
  · decide

/-- A trimmed text is blank just if it was before. -/
theorem isBlankText_trimEnd (t : Text) : isBlankText (trimEnd t) = isBlankText t := by
  obtain ⟨s, hs, blank⟩ := eq_dropEndWhile_append isBlank t
  have whole : isBlankText t = isBlankText (trimEnd t ++ s) := congrArg isBlankText hs
  have blank' : isBlankText s = true := blank
  rw [whole, isBlankText_append, blank', Bool.and_true]

/-- Where something is no blank, the blanks before it can be told from the rest. -/
theorem eq_append_of_not_blank {t : Text} (h : isBlankText t = false) :
    ∃ (u : Text) (c : Char) (r : Text), t = u ++ c :: r ∧ isBlankText u ∧ isBlank c = false := by
  induction t with
  | nil => cases h
  | cons c t ih =>
    by_cases hc : isBlank c
    · have ht : isBlankText t = false := by
        rw [isBlankText, List.all_cons, hc, Bool.true_and] at h
        exact h
      obtain ⟨u, d, r, rfl, hu, hd⟩ := ih ht
      refine ⟨c :: u, d, r, rfl, ?_, hd⟩
      rw [isBlankText, List.all_cons, hc, Bool.true_and]
      exact hu
    · exact ⟨[], c, t, rfl, rfl, Bool.eq_false_iff.2 hc⟩

/-- The blanks before the first visible character are those before it. -/
theorem takeWhile_isBlank {u : Text} {c : Char} (hu : isBlankText u) (hc : isBlank c = false)
    (r : Text) : (u ++ c :: r).takeWhile isBlank = u := by
  have all : ∀ x ∈ u, isBlank x := List.all_eq_true.1 hu
  rw [List.takeWhile_append_of_pos all, List.takeWhile_cons, hc]
  exact List.append_nil u

theorem trimStart_append {u : Text} {c : Char} (hu : isBlankText u) (hc : isBlank c = false)
    (r : Text) : trimStart (u ++ c :: r) = c :: r := by
  have all : ∀ x ∈ u, isBlank x := List.all_eq_true.1 hu
  rw [trimStart, List.dropWhile_append_of_pos all, List.dropWhile_cons, hc]
  rfl

/-- Nothing is left of a blank text that is trimmed at its start. -/
theorem trimStart_of_blank {t : Text} (h : isBlankText t) : trimStart t = [] := by
  have all : ∀ x ∈ t, isBlank x := List.all_eq_true.1 h
  rw [trimStart, ← List.append_nil t, List.dropWhile_append_of_pos all]
  rfl

/-! ## Both ends of texts -/

/-- A line with its line feed, and nothing behind it. -/
def IsLine (piece : Text) : Prop := ∃ t : Text, '\n' ∉ t ∧ piece = t ++ ['\n']

/-- Text without a line feed may be put before a line. -/
theorem IsLine.append {u piece : Text} (hu : '\n' ∉ u) (h : IsLine piece) :
    IsLine (u ++ piece) := by
  obtain ⟨t, ht, rfl⟩ := h
  exact ⟨u ++ t, fun hm => (List.mem_append.1 hm).elim hu ht, by rw [List.append_assoc]⟩

/-- What stands before the first `x` is cut off together with it. -/
theorem cutAfter_append {α : Type} [DecidableEq α] {x : α} {l : List α} (hl : x ∉ l)
    (rest : List α) : cutAfter x (l ++ x :: rest) = (l ++ [x]) :: cutAfter x rest := by
  induction l with
  | nil => rw [List.nil_append, cutAfter, if_pos rfl, List.nil_append]
  | cons c l ih =>
    rw [List.mem_cons, not_or] at hl
    rw [List.cons_append, cutAfter, if_neg (Ne.symm hl.1), ih hl.2, List.cons_append]

/-- A list without the separator is one part. -/
theorem cutAfter_of_notMem {α : Type} [DecidableEq α] {x : α} {l : List α} (hl : x ∉ l)
    (ne : l ≠ []) : cutAfter x l = [l] := by
  induction l with
  | nil => exact absurd rfl ne
  | cons c l ih =>
    rw [List.mem_cons, not_or] at hl
    rw [cutAfter, if_neg (Ne.symm hl.1)]
    cases l with
    | nil => rfl
    | cons d l => rw [ih hl.2 (List.cons_ne_nil d l)]

/-- The first piece ends with the first line feed. -/
theorem pieces_line {t : Text} (ht : '\n' ∉ t) (rest : Text) :
    pieces (t ++ '\n' :: rest) = (t ++ ['\n']) :: pieces rest := cutAfter_append ht rest

/-- A finished line is a piece of its own. -/
theorem pieces_cons {piece : Text} (h : IsLine piece) (rest : Text) :
    pieces (piece ++ rest) = piece :: pieces rest := by
  obtain ⟨t, ht, rfl⟩ := h
  rw [List.append_assoc, List.singleton_append]
  exact pieces_line ht rest

theorem pieces_append {ps : List Text} (h : ∀ p ∈ ps, IsLine p) (rest : Text) :
    pieces (ps.flatten ++ rest) = ps ++ pieces rest := by
  induction ps with
  | nil => rfl
  | cons p ps ih =>
    rw [List.flatten_cons, List.append_assoc, pieces_cons (h p List.mem_cons_self),
      ih fun q hq => h q (List.mem_cons_of_mem p hq), List.cons_append]

/-- Lines are the pieces of the text that they make. -/
theorem pieces_flatten {ps : List Text} (h : ∀ p ∈ ps, IsLine p) : pieces ps.flatten = ps := by
  have cut := pieces_append h []
  rw [List.append_nil] at cut
  rw [cut]
  exact List.append_nil ps

/-- A text without a line feed is one piece, unless it is empty. -/
theorem pieces_of_notMem {t : Text} (ht : '\n' ∉ t) : pieces t = if t = [] then [] else [t] := by
  split
  · next empty => rw [empty]; rfl
  · next ne => exact cutAfter_of_notMem ht ne

/-- Every text is some finished lines and a rest that is not finished. -/
theorem exists_lines (t : Text) :
    ∃ (ps : List Text) (rest : Text), (∀ p ∈ ps, IsLine p) ∧ '\n' ∉ rest ∧
      t = ps.flatten ++ rest := by
  induction t with
  | nil => exact ⟨[], [], nofun, List.not_mem_nil, rfl⟩
  | cons c t ih =>
    obtain ⟨ps, rest, hps, hrest, rfl⟩ := ih
    by_cases hc : c = '\n'
    · refine ⟨[c] :: ps, rest, ?_, hrest, rfl⟩
      intro p hp
      rcases List.mem_cons.1 hp with rfl | hp
      · exact ⟨[], List.not_mem_nil, by rw [hc]; rfl⟩
      · exact hps p hp
    · have hc' : '\n' ∉ [c] := by rw [List.mem_singleton]; exact Ne.symm hc
      -- the character goes to the first line, or to the rest if there is none
      cases ps with
      | nil =>
        refine ⟨[], c :: rest, nofun, ?_, rfl⟩
        rw [List.mem_cons, not_or]
        exact ⟨Ne.symm hc, hrest⟩
      | cons p ps =>
        refine ⟨(c :: p) :: ps, rest, ?_, hrest, rfl⟩
        intro q hq
        rcases List.mem_cons.1 hq with rfl | hq
        · exact (hps p List.mem_cons_self).append hc'
        · exact hps q (List.mem_cons_of_mem p hq)

/-- What takes the place of the pieces of a text is cut in the same way, if finished lines take the
place of finished lines. -/
theorem pieces_flatten_map {α : Type} {f g : α → Text} {xs : List α} {t : Text}
    (cut : xs.map f = pieces t) (line : ∀ x ∈ xs, IsLine (f x) → IsLine (g x))
    (rest : ∀ x ∈ xs, '\n' ∉ f x → '\n' ∉ g x ∧ g x ≠ []) :
    pieces (xs.map g).flatten = xs.map g := by
  obtain ⟨ps, u, hps, hu, rfl⟩ := exists_lines t
  rw [pieces_append hps, pieces_of_notMem hu] at cut
  obtain ⟨ys, zs, rfl, rfl, last⟩ := List.map_eq_append_iff.1 cut
  rw [List.forall_mem_append] at line rest
  rw [List.forall_mem_map] at hps
  have front : ∀ p ∈ ys.map g, IsLine p := List.forall_mem_map.2 fun y hy => line.1 y hy (hps y hy)
  have back : pieces (zs.map g).flatten = zs.map g := by
    split at last
    · rw [List.map_eq_nil_iff.1 last]
      rfl
    · -- the rest of the text is one piece
      obtain ⟨z, rfl, hz⟩ := List.map_eq_singleton_iff.1 last
      obtain ⟨noLineFeed, ne⟩ := rest.2 z (List.mem_singleton_self z) (hz ▸ hu)
      rw [List.map_singleton, List.flatten_singleton, pieces_of_notMem noLineFeed, if_neg ne]
  rw [List.map_append, List.flatten_append, pieces_append front, back]

/-- A text that ends in a line feed consists of finished lines. -/
theorem isLine_of_mem_pieces {t : Text} (ht : t.getLast? = some '\n') :
    ∀ p ∈ pieces t, IsLine p := by
  obtain ⟨ps, rest, hps, hrest, rfl⟩ := exists_lines t
  rcases List.eq_nil_or_concat rest with rfl | ⟨u, x, rfl⟩
  · rw [List.append_nil, pieces_flatten hps]
    exact hps
  · rw [List.concat_eq_append, ← List.append_assoc, List.getLast?_concat] at ht
    rw [Option.some.inj ht] at hrest
    exact absurd (by simp) hrest

/-- Nothing, or finished lines only. -/
def Closed (t : Text) : Prop := t = [] ∨ t.getLast? = some '\n'

theorem Closed.of_suffix {t u : Text} (ht : t.Closed) (h : u <:+ t) : u.Closed := by
  obtain ⟨v, rfl⟩ := h
  cases hu : u with
  | nil => exact .inl rfl
  | cons c r =>
    right
    rcases ht with ht | ht
    · rw [(List.append_eq_nil_iff.1 ht).2] at hu
      cases hu
    · rw [List.getLast?_append, hu, List.getLast?_eq_some_getLast (List.cons_ne_nil c r),
        Option.some_or] at ht
      rw [List.getLast?_eq_some_getLast (List.cons_ne_nil c r), ht]

theorem Closed.mem_of_ne_nil {t : Text} (ht : t.Closed) (h : t ≠ []) : '\n' ∈ t :=
  List.mem_of_getLast? (ht.resolve_left h)

theorem Closed.isLine {t : Text} (ht : t.Closed) : ∀ p ∈ pieces t, IsLine p := by
  rcases ht with rfl | ht
  · nofun
  · exact isLine_of_mem_pieces ht

theorem Closed.append {t u : Text} (ht : t.Closed) (hu : u.Closed) : Closed (t ++ u) := by
  rcases hu with rfl | hu
  · rw [List.append_nil]
    exact ht
  · right
    rw [List.getLast?_append, hu]
    rfl

/-- A text made of closed texts is closed. -/
theorem closed_flatten {ps : List Text} (h : ∀ p ∈ ps, Closed p) : Closed ps.flatten := by
  induction ps with
  | nil => exact .inl rfl
  | cons p ps ih =>
    rw [List.flatten_cons]
    exact (h p List.mem_cons_self).append (ih fun q hq => h q (List.mem_cons_of_mem p hq))

/-- A line is closed. -/
theorem IsLine.closed {p : Text} (h : IsLine p) : Closed p := by
  obtain ⟨t, -, rfl⟩ := h
  exact .inr List.getLast?_concat

theorem lineFeeds_append (t u : Text) : lineFeeds (t ++ u) = lineFeeds t + lineFeeds u :=
  List.count_append

/-- A text without a line feed has none to count. -/
theorem lineFeeds_eq_zero {t : Text} (h : '\n' ∉ t) : lineFeeds t = 0 := List.count_eq_zero.2 h

theorem lineFeeds_lineFeed (t : Text) : lineFeeds ('\n' :: t) = lineFeeds t + 1 :=
  List.count_cons_self

/-- A line has one line feed. -/
theorem lineFeeds_isLine {p : Text} (h : IsLine p) : lineFeeds p = 1 := by
  obtain ⟨t, ht, rfl⟩ := h
  rw [lineFeeds_append, lineFeeds_eq_zero ht]
  rfl

/-- Finished lines have one line feed each. -/
theorem lineFeeds_flatten {ps : List Text} (h : ∀ p ∈ ps, IsLine p) :
    lineFeeds ps.flatten = ps.length := by
  induction ps with
  | nil => rfl
  | cons p ps ih =>
    rw [List.flatten_cons, lineFeeds_append, lineFeeds_isLine (h p List.mem_cons_self),
      ih fun q hq => h q (List.mem_cons_of_mem p hq), List.length_cons, Nat.add_comm]

theorem Closed.lineFeeds_eq {t : Text} (h : t.Closed) : lineFeeds t = (pieces t).length := by
  rw [← lineFeeds_flatten h.isLine, flatten_pieces]

/-! ## Lines and their ends -/

/-- A text that ends in no line feed and no carriage return is its own line. -/
theorem lineText_of_getLast? {t : Text} (ht : ∀ c, t.getLast? = some c → c ≠ '\n' ∧ c ≠ '\r') :
    lineText t = t :=
  dropEndWhile_of_getLast? fun c hc => by
    obtain ⟨h1, h2⟩ := ht c hc
    rw [beq_false_of_ne h1, beq_false_of_ne h2]
    rfl

/-- A terminator has line feeds and carriage returns only. -/
theorem terminator_all (piece : Text) :
    (terminator piece).all fun c => c == '\n' || c == '\r' := by
  obtain ⟨s, hs, all⟩ := eq_dropEndWhile_append (fun c => c == '\n' || c == '\r') piece
  have hp : piece = lineText piece ++ s := hs
  have : terminator piece = s := by
    rw [terminator]
    conv => lhs; rhs; rw [hp]
    exact List.drop_left
  rw [this]
  exact all

/-- A terminator is blank. -/
theorem isBlankText_terminator (piece : Text) : isBlankText (terminator piece) := by
  have all := terminator_all piece
  rw [List.all_eq_true] at all
  refine List.all_eq_true.2 fun c hc => ?_
  have := all c hc
  rw [Bool.or_eq_true, beq_iff_eq, beq_iff_eq] at this
  rcases this with rfl | rfl <;> decide

/-- A line is blank just if its text is. -/
theorem isBlankText_lineText (piece : Text) : isBlankText (lineText piece) = isBlankText piece := by
  conv => rhs; rw [← lineText_append_terminator piece]
  rw [isBlankText_append, isBlankText_terminator, Bool.and_true]

/-- The end of a line is put behind another text. -/
theorem lineText_append_terminator_of {t : Text} (piece : Text)
    (ht : ∀ c, t.getLast? = some c → c ≠ '\n' ∧ c ≠ '\r') :
    lineText (t ++ terminator piece) = t := by
  unfold lineText
  rw [dropEndWhile_append_of_all t (terminator_all piece)]
  exact lineText_of_getLast? ht

/-- A terminator behind a text that has none is the terminator of the whole. -/
theorem terminator_append_terminator {t : Text} (piece : Text)
    (ht : ∀ c, t.getLast? = some c → c ≠ '\n' ∧ c ≠ '\r') :
    terminator (t ++ terminator piece) = terminator piece := by
  rw [terminator, lineText_append_terminator_of piece ht, List.drop_left]

/-- What stands before a character that is no blank is not touched where the end of a line is
dropped. -/
theorem lineText_append_visible (u : Text) {c : Char} (hc : isBlank c = false) (r : Text) :
    lineText (u ++ c :: r) = u ++ lineText (c :: r) := by
  refine dropEndWhile_append u ?_
  have notEnd : (c == '\n' || c == '\r') = false := by
    rw [Bool.or_eq_false_iff, beq_eq_false_iff_ne, beq_eq_false_iff_ne]
    constructor
    all_goals
      rintro rfl
      revert hc
      decide
  rw [List.all_cons, notEnd, Bool.false_and]

/-- A line feed is not of the text of a line. -/
theorem lineText_concat (t : Text) : lineText (t ++ ['\n']) = lineText t :=
  dropEndWhile_append_of_all t rfl

/-- A line feed is of the terminator of a line. -/
theorem terminator_concat (t : Text) : terminator (t ++ ['\n']) = terminator t ++ ['\n'] := by
  rw [terminator, lineText_concat]
  conv => lhs; rhs; lhs; rw [← lineText_append_terminator t]
  rw [List.append_assoc, List.drop_left]

/-- The terminator comes behind the last visible character. -/
theorem terminator_append_visible (u : Text) {c : Char} (hc : isBlank c = false) (r : Text) :
    terminator (u ++ c :: r) = terminator (c :: r) := by
  rw [terminator, lineText_append_visible u hc, List.length_append, List.drop_length_add_append]
  rfl

/-- What ends a line, without the line feed, are carriage returns. -/
theorem exists_terminator {r feed : Text} (line : '\n' ∉ r) (hfeed : feed = [] ∨ feed = ['\n']) :
    ∃ u : Text, (∀ c ∈ u, c = '\r') ∧ terminator (r ++ feed) = u ++ feed := by
  refine ⟨terminator r, fun c hc => ?_, ?_⟩
  · have ends := List.all_eq_true.1 (terminator_all r) c hc
    rw [Bool.or_eq_true, beq_iff_eq, beq_iff_eq] at ends
    exact ends.resolve_left fun h => line (h ▸ List.mem_of_mem_drop hc)
  · rcases hfeed with rfl | rfl
    · rw [List.append_nil, List.append_nil]
    · exact terminator_concat r

/-- Of a finished line the end is finished, too. -/
theorem isLine_terminator {piece : Text} (h : IsLine piece) :
    '\n' ∉ lineText piece ∧ IsLine (terminator piece) := by
  obtain ⟨t, ht, rfl⟩ := h
  have sub := lineText_append_terminator t
  rw [lineText_concat, terminator_concat]
  refine ⟨fun h => ht ?_, terminator t, fun h => ht ?_, rfl⟩
  · rw [← sub]; exact List.mem_append_left _ h
  · rw [← sub]; exact List.mem_append_right _ h

/-! ## Parts between separators -/

/-- What holds no separator stands at the start of the first part. -/
theorem splitOn_append_of_notMem {c : Char} {u : Text} (hu : c ∉ u) (t : Text) {p : Text}
    {ps : List Text} (h : t.splitOn c = p :: ps) : (u ++ t).splitOn c = (u ++ p) :: ps := by
  induction u with
  | nil => exact h
  | cons d u ih =>
    rw [List.mem_cons, not_or] at hu
    rw [List.cons_append, List.splitOn_cons_eq_if_modifyHead, if_neg (by simpa using Ne.symm hu.1),
      ih hu.2]
    rfl

theorem length_splitOn (c : Char) (t : Text) : (t.splitOn c).length = t.count c + 1 := by
  induction t with
  | nil => rfl
  | cons d t ih =>
    rw [List.splitOn_cons_eq_if_modifyHead, List.count_cons]
    split
    · rw [List.length_cons, ih]
    · rw [List.length_modifyHead, ih, Nat.add_zero]

/-- A line feed finishes the last of the parts between line feeds. -/
theorem pieces_append_lineFeed (t : Text) :
    pieces (t ++ ['\n']) = (t.splitOn '\n').map (· ++ ['\n']) := by
  unfold pieces
  induction t with
  | nil => rfl
  | cons c t ih =>
    rw [List.cons_append, cutAfter, List.splitOn_cons_eq_if_modifyHead, ih]
    split
    · next hc => rw [if_pos (by rw [hc, beq_self_eq_true])]; rfl
    · next hc =>
      rw [if_neg (by rwa [beq_iff_eq])]
      cases hs : t.splitOn '\n' with
      | nil => exact absurd hs (List.splitOn_ne_nil '\n' t)
      | cons q qs => rfl

/-- The parts between separators hold none. -/
theorem notMem_of_mem_splitOn {c : Char} {t p : Text} (h : p ∈ t.splitOn c) : c ∉ p := by
  induction t generalizing p with
  | nil =>
    rw [List.splitOn_nil, List.mem_singleton] at h
    rw [h]
    exact List.not_mem_nil
  | cons d t ih =>
    rw [List.splitOn_cons_eq_if_modifyHead] at h
    split at h
    · rcases List.mem_cons.1 h with rfl | h
      · exact List.not_mem_nil
      · exact ih h
    · next hd =>
      rw [beq_iff_eq] at hd
      cases hs : t.splitOn c with
      | nil => exact absurd hs (List.splitOn_ne_nil c t)
      | cons q qs =>
        rw [hs] at h
        rcases List.mem_cons.1 h with rfl | h
        · rw [List.mem_cons, not_or]
          exact ⟨Ne.symm hd, ih (by rw [hs]; exact List.mem_cons_self)⟩
        · exact ih (by rw [hs]; exact List.mem_cons_of_mem q h)

/-- A piece is a line, or has no line feed at all. -/
theorem notMem_of_mem_pieces {t p : Text} (h : p ∈ pieces t) : IsLine p ∨ '\n' ∉ p := by
  obtain ⟨ps, rest, hps, hrest, rfl⟩ := exists_lines t
  rw [pieces_append hps] at h
  rcases List.mem_append.1 h with h | h
  · exact .inl (hps p h)
  · right
    intro hm
    rw [← flatten_pieces rest] at hrest
    exact hrest (List.mem_flatten.2 ⟨p, h, hm⟩)

theorem lineFeed_notMem_of_mem_lines {t l : Text} (h : l ∈ lines t) : '\n' ∉ l := by
  obtain ⟨p, hp, rfl⟩ := List.mem_map.1 h
  have sub : ∀ {u : Text}, '\n' ∉ u → '\n' ∉ dropLineEnd u := by
    intro u hu
    rw [← List.mem_reverse] at hu
    unfold dropLineEnd
    split
    · next hr =>
      rw [hr] at hu
      exact absurd List.mem_cons_self hu
    · next hr =>
      rw [hr] at hu
      exact absurd List.mem_cons_self hu
    · exact fun hm => hu (List.mem_reverse.2 hm)
  -- a piece ends with its only line feed, or has none
  rcases notMem_of_mem_pieces hp with ⟨u, hu, rfl⟩ | hp
  · rw [← List.mem_reverse] at hu
    unfold dropLineEnd
    rw [List.reverse_concat]
    split
    · next hr =>
      rw [(List.cons.inj hr).2, List.mem_cons, not_or] at hu
      exact fun hm => hu.2 (List.mem_reverse.1 hm)
    · next hr =>
      rw [(List.cons.inj hr).2] at hu
      exact fun hm => hu (List.mem_reverse.1 hm)
    · next h1 h2 => exact absurd rfl (h2 _)
  · exact sub hp

end Marginalia.Text
