import Marginalia.Proofs.Text

/-!
# Line ends of two characters

A text in which every line feed has a carriage return before it. Adding the returns goes through
everything by which texts are cut: through concatenation and hence through what stands before and
behind a position, once the position is moved by the returns before it (`place`), and through the
cutting into lines. A text without a line feed stays as it is.
-/

namespace Marginalia.Text

/-- A text with a carriage return before each line feed. -/
def withReturns (t : Text) : Text := t.flatMap fun c => if c = '\n' then ['\r', '\n'] else [c]

/-- Where a position of a text comes to lie when returns are added. -/
def place (t : Text) (n : Nat) : Nat := n + lineFeeds (t.take n)

@[simp] theorem withReturns_nil : withReturns [] = [] := rfl

@[simp] theorem withReturns_append (t u : Text) :
    withReturns (t ++ u) = withReturns t ++ withReturns u := List.flatMap_append

@[simp] theorem withReturns_lineFeed (t : Text) :
    withReturns ('\n' :: t) = '\r' :: '\n' :: withReturns t := rfl

theorem withReturns_cons {c : Char} (h : c ≠ '\n') (t : Text) :
    withReturns (c :: t) = c :: withReturns t := by
  rw [withReturns, List.flatMap_cons, if_neg h]
  rfl

/-- A text without a line feed is left as it is. -/
theorem withReturns_of_notMem {t : Text} (h : '\n' ∉ t) : withReturns t = t := by
  induction t with
  | nil => rfl
  | cons c t ih =>
    rw [List.mem_cons, not_or] at h
    rw [withReturns_cons (Ne.symm h.1), ih h.2]

/-- Returns are put into texts one by one. -/
theorem withReturns_flatten (ps : List Text) :
    withReturns ps.flatten = (ps.map withReturns).flatten := by
  induction ps with
  | nil => rfl
  | cons p ps ih => rw [List.flatten_cons, withReturns_append, ih, List.map_cons, List.flatten_cons]

theorem length_withReturns (t : Text) : (withReturns t).length = t.length + lineFeeds t := by
  induction t with
  | nil => rfl
  | cons c t ih =>
    by_cases hc : c = '\n'
    · subst hc
      have count : lineFeeds ('\n' :: t) = lineFeeds t + 1 := List.count_cons_self
      rw [withReturns_lineFeed, List.length_cons, List.length_cons, List.length_cons, ih, count]
      omega
    · have count : lineFeeds (c :: t) = lineFeeds t := List.count_cons_of_ne hc
      rw [withReturns_cons hc, List.length_cons, List.length_cons, ih, count]
      omega

/-! ## Positions -/

section Positions

variable (t : Text)

/-- A text with returns is put together from two parts with returns. -/
theorem withReturns_take_append_drop (n : Nat) :
    withReturns t = withReturns (t.take n) ++ withReturns (t.drop n) := by
  rw [← withReturns_append, List.take_append_drop]

variable {t} in
theorem length_withReturns_take {n : Nat} (h : n ≤ t.length) :
    (withReturns (t.take n)).length = place t n := by
  rw [length_withReturns, List.length_take, Nat.min_eq_left h]
  rfl

theorem length_le_place {n : Nat} (h : t.length ≤ n) : (withReturns t).length ≤ place t n := by
  rw [length_withReturns, place, List.take_of_length_le h]
  omega

/-- What is before a place is before the place that it moves to. -/
theorem take_place (n : Nat) : (withReturns t).take (place t n) = withReturns (t.take n) := by
  by_cases h : n ≤ t.length
  · rw [withReturns_take_append_drop t n, ← length_withReturns_take h]
    exact List.take_left
  · rw [List.take_of_length_le (length_le_place t (by omega)), List.take_of_length_le (by omega)]

/-- What is behind a place is behind the place that it moves to. -/
theorem drop_place (n : Nat) : (withReturns t).drop (place t n) = withReturns (t.drop n) := by
  by_cases h : n ≤ t.length
  · rw [withReturns_take_append_drop t n, ← length_withReturns_take h]
    exact List.drop_left
  · rw [List.drop_of_length_le (length_le_place t (by omega)), List.drop_of_length_le (by omega)]
    rfl

/-- A place moves by the returns on the way to it. -/
theorem place_add (m n : Nat) : place t (m + n) = place t m + place (t.drop m) n := by
  unfold place
  rw [List.take_add, lineFeeds_append]
  omega

/-- Places keep their order. -/
theorem place_lt {m n : Nat} (h : m < n) : place t m < place t n := by
  obtain ⟨k, rfl⟩ := Nat.exists_eq_add_of_lt h
  rw [Nat.add_assoc, place_add]
  unfold place
  omega

/-- Adding returns keeps the order of positions. -/
theorem place_lt_place {m n : Nat} : place t m < place t n ↔ m < n := by
  refine ⟨fun h => Nat.lt_of_not_le fun le => ?_, place_lt t⟩
  rcases Nat.lt_or_eq_of_le le with lt | rfl
  · exact Nat.lt_asymm h (place_lt t lt)
  · exact Nat.lt_irrefl _ h

/-- A stretch of the text grows by the returns in it. -/
theorem place_sub (m n : Nat) : place t n - place t m = place (t.drop m) (n - m) := by
  rcases Nat.le_total m n with le | le
  · obtain ⟨k, rfl⟩ := Nat.exists_eq_add_of_le le
    rw [place_add, Nat.add_sub_cancel_left, Nat.add_sub_cancel_left]
  · have before : place t n ≤ place t m := Nat.le_of_not_lt fun lt =>
      Nat.not_lt_of_le le ((place_lt_place t).1 lt)
    rw [Nat.sub_eq_zero_of_le le, Nat.sub_eq_zero_of_le before]
    rfl

/-- No two places move to one. -/
theorem place_inj {m n : Nat} : place t m = place t n ↔ m = n := by
  constructor
  · intro h
    rcases Nat.lt_trichotomy m n with lt | eq | gt
    · exact absurd h (Nat.ne_of_lt (place_lt t lt))
    · exact eq
    · exact absurd h.symm (Nat.ne_of_lt (place_lt t gt))
  · rintro rfl
    rfl

theorem place_cons (c : Char) (n : Nat) :
    place (c :: t) (n + 1) = (withReturns [c]).length + place t n := by
  have count : lineFeeds (c :: t.take n) = lineFeeds [c] + lineFeeds (t.take n) :=
    lineFeeds_append [c] _
  rw [length_withReturns, place, place, List.take_succ_cons, count, List.length_singleton]
  omega

variable {t}

/-- A stretch of a line is as long as it was. -/
theorem place_of_notMem {n : Nat} (h : '\n' ∉ t.take n) : place t n = n := by
  rw [place, lineFeeds_eq_zero h, Nat.add_zero]

/-- Before the first line feed nothing moves. -/
theorem take_withReturns {n : Nat} (h : '\n' ∉ t.take n) : (withReturns t).take n = t.take n := by
  have stretch := take_place t n
  rwa [place_of_notMem h, withReturns_of_notMem h] at stretch

end Positions

/-! ## The first characters -/

/-- A test of the first character alone, in which the two characters of a line end do not differ. -/
theorem first_withReturns {p : Text → Bool} (first : ∀ c r s, p (c :: r) = p (c :: s))
    (same : p ['\r'] = p ['\n']) (t : Text) : p (withReturns t) = p t := by
  cases t with
  | nil => rfl
  | cons c t =>
    by_cases hc : c = '\n'
    · rw [hc, withReturns_lineFeed, first '\r' _ [], first '\n' _ [], same]
    · rw [withReturns_cons hc, first c _ t]

/-- What ends before any end of a line is left as it is. -/
theorem takeWhile_withReturns {p : Char → Bool} (hn : p '\n' = false) (hr : p '\r' = false)
    (t : Text) :
    (withReturns t).takeWhile p = t.takeWhile p := by
  induction t with
  | nil => rfl
  | cons c t ih =>
    by_cases hc : c = '\n'
    · rw [hc, withReturns_lineFeed,
        List.takeWhile_cons_of_neg (by rw [hr]; exact Bool.false_ne_true),
        List.takeWhile_cons_of_neg (by rw [hn]; exact Bool.false_ne_true)]
    · rw [withReturns_cons hc, List.takeWhile_cons, List.takeWhile_cons, ih]

/-- What starts with characters of a line starts with them whichever the line ends are. -/
theorem isPrefixOf?_withReturns {w : Text} (line : '\n' ∉ w) (noReturn : '\r' ∉ w) (t : Text) :
    List.isPrefixOf? w (withReturns t) = (List.isPrefixOf? w t).map withReturns := by
  induction w generalizing t with
  | nil => rfl
  | cons d w ih =>
    rw [List.mem_cons, not_or] at line noReturn
    cases t with
    | nil => rfl
    | cons c t =>
      by_cases hc : c = '\n'
      · subst hc
        rw [withReturns_lineFeed, List.isPrefixOf?, List.isPrefixOf?,
          beq_false_of_ne (Ne.symm noReturn.1), beq_false_of_ne (Ne.symm line.1)]
        rfl
      · rw [withReturns_cons hc, List.isPrefixOf?, List.isPrefixOf?, ih line.2 noReturn.2]
        split <;> rfl

/-! ## Lines -/

/-- A line with a return is a line. -/
theorem IsLine.withReturns {p : Text} (h : IsLine p) : IsLine (withReturns p) := by
  obtain ⟨t, ht, rfl⟩ := h
  refine ⟨t ++ ['\r'], ?_, ?_⟩
  · rw [List.mem_append, not_or]
    exact ⟨ht, by decide⟩
  · rw [withReturns_append, withReturns_of_notMem ht, List.append_assoc]
    rfl

/-- The pieces are those of the text, with returns. -/
theorem pieces_withReturns (t : Text) : pieces (withReturns t) = (pieces t).map withReturns := by
  obtain ⟨ps, rest, hps, hrest, rfl⟩ := exists_lines t
  have returned : ∀ q ∈ ps.map withReturns, IsLine q := fun q hq => by
    obtain ⟨p, hp, rfl⟩ := List.mem_map.1 hq
    exact (hps p hp).withReturns
  have last : (pieces rest).map withReturns = pieces rest := by
    cases rest with
    | nil => rfl
    | cons c r =>
      have one : pieces (c :: r) = [c :: r] := cutAfter_of_notMem hrest (List.cons_ne_nil c r)
      rw [one, List.map_singleton, withReturns_of_notMem hrest]
  rw [withReturns_append, withReturns_flatten, pieces_append returned, pieces_append hps,
    List.map_append, withReturns_of_notMem hrest, last]

/-- No line is added. -/
theorem lineCount_withReturns (t : Text) : lineCount (withReturns t) = lineCount t := by
  rw [lineCount, pieces_withReturns, List.length_map]
  rfl

/-- Without its end a line is the same. -/
theorem lineText_withReturns {p : Text} (h : IsLine p ∨ '\n' ∉ p) :
    lineText (withReturns p) = lineText p := by
  rcases h with ⟨t, ht, rfl⟩ | h
  · rw [withReturns_append, withReturns_of_notMem ht]
    exact (dropEndWhile_append_of_all (t := ['\r', '\n']) t rfl).trans
      (dropEndWhile_append_of_all (t := ['\n']) t rfl).symm
  · rw [withReturns_of_notMem h]

/-- The first element is found at the same place in a list that looks the same. -/
theorem findIdx?_map_of_eq {α β : Type} {f : α → β} {p : β → Bool} {q : α → Bool} {l : List α}
    (h : ∀ a ∈ l, p (f a) = q a) : (l.map f).findIdx? p = l.findIdx? q := by
  induction l with
  | nil => rfl
  | cons a l ih =>
    rw [List.map_cons, List.findIdx?_cons, List.findIdx?_cons, h a List.mem_cons_self,
      ih fun b hb => h b (List.mem_cons_of_mem a hb)]

end Marginalia.Text
