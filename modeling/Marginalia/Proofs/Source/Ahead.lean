import Marginalia.Proofs.Source.Hinges
import Marginalia.Proofs.Text.Returns
import Marginalia.Source.Scanner

/-!
# What follows a token

Two questions of the scanner are about the text behind a token: whether the next line goes on with a
call (`leadingDot`), and whether the body of a brace stands below it (`bodyBelow`). Neither sees a
carriage return before a line feed (`leadingDot_withReturns`, `bodyBelow_withReturns`) or a line
that is put behind a program (`leadingDot_closing`). They do not see the blanks and the comment that
are put behind the code of a line either, unless the line has no code (`leadingDot_margin`) or the
parameters of the brace are left open on it (`bodyBelow_margin`).
-/

namespace Marginalia.Source

open Text

variable {a b x z u w v : Text}

/-! ## Calls on the line above -/

/-- A comment is passed over to the end of its line. -/
theorem leadingDot_comment (hx : '\n' ∉ x) (a : Text) :
    leadingDot true (x ++ '\n' :: a) = leadingDot false a := by
  induction x with
  | nil => rfl
  | cons c x ih =>
    rw [List.mem_cons, not_or] at hx
    have stays : (c != '\n') = true := bne_iff_ne.2 (Ne.symm hx.1)
    rw [List.cons_append, leadingDot, if_pos rfl, stays, ih hx.2]

/-- Blanks at the start of a line are passed over. -/
theorem leadingDot_blanks (hu : Blanks u) (a : Text) :
    leadingDot false (u ++ a) = leadingDot false a := by
  induction u with
  | nil => rfl
  | cons c u ih =>
    have line := (hu c List.mem_cons_self).2
    have blank : isBlank c := List.all_eq_true.1 hu.isBlankText c List.mem_cons_self
    rw [List.cons_append, leadingDot, if_neg Bool.false_ne_true, if_neg (mt beq_iff_eq.1 line),
      if_pos blank]
    exact ih fun d hd => hu d (List.mem_cons_of_mem _ hd)

/-- Whether code starts with a dot is seen from its first two characters. -/
theorem leadingDot_of_visible {c : Char} (hc : isBlank c = false) (hash : c ≠ '#') (r : Text) :
    leadingDot false (c :: r) =
      ((c == '.' && r.head? != some '.') || (c == '&' && r.head? == some '.')) := by
  have line : ¬ (c == '\n') = true := fun h => by
    rw [beq_iff_eq.1 h] at hc
    cases hc
  rw [leadingDot, if_neg Bool.false_ne_true, if_neg line, hc, if_neg Bool.false_ne_true,
    if_neg (mt beq_iff_eq.1 hash)]

/-- What is put behind the code of a line makes no difference to the lines above, if the line has
code or what follows it is no call. -/
theorem leadingDot_margin (hz : '\n' ∉ z) (hu : Blanks u) (hw : Blanks w)
    (hv : v = [] ∨ ∃ r, v = '#' :: r ∧ '\n' ∉ r) (same : leadingDot false b = leadingDot false a)
    (quiet : v ≠ [] → isBlankText z → leadingDot false a = false) :
    leadingDot false (z ++ (w ++ (v ++ '\n' :: b))) = leadingDot false (z ++ (u ++ '\n' :: a)) := by
  have lineFeed : '\n' ∉ w ++ v := by
    rw [List.mem_append, not_or]
    refine ⟨hw.notMem (.inr rfl), ?_⟩
    rcases hv with rfl | ⟨r, rfl, hr⟩
    · exact List.not_mem_nil
    · exact List.not_mem_cons_of_ne_of_not_mem (by decide) hr
  -- behind a hash both lines are passed over
  have commented {z : Text} (hz : '\n' ∉ z) :
      leadingDot true (z ++ (w ++ (v ++ '\n' :: b))) = leadingDot true (z ++ (u ++ '\n' :: a)) := by
    have left : '\n' ∉ z ++ (w ++ v) := by
      rw [List.mem_append, not_or]
      exact ⟨hz, lineFeed⟩
    have right : '\n' ∉ z ++ u := by
      rw [List.mem_append, not_or]
      exact ⟨hz, hu.notMem (.inr rfl)⟩
    rw [← List.append_assoc w, ← List.append_assoc z (w ++ v), ← List.append_assoc z u,
      leadingDot_comment left, leadingDot_comment right, same]
  -- over the code of the line, up to the first visible character
  induction z with
  | nil =>
    rw [List.nil_append, List.nil_append, leadingDot_blanks hw, leadingDot_blanks hu]
    rcases hv with rfl | ⟨r, rfl, hr⟩
    · rfl
    · rw [List.cons_append]
      show leadingDot true (r ++ '\n' :: b) = false
      rw [leadingDot_comment hr, same, quiet (List.cons_ne_nil _ _) rfl]
  | cons c z ih =>
    rw [List.mem_cons, not_or] at hz
    by_cases blank : isBlank c
    · have passed (s : Text) : leadingDot false (c :: s) = leadingDot false s := by
        rw [leadingDot, if_neg Bool.false_ne_true, if_neg (mt beq_iff_eq.1 (Ne.symm hz.1)),
          if_pos blank]
      rw [List.cons_append, List.cons_append, passed, passed]
      refine ih hz.2 fun some blanks => quiet some ?_
      unfold isBlankText at blanks ⊢
      rw [List.all_cons, blank, blanks]
      rfl
    · by_cases hash : c = '#'
      · rw [hash]
        exact commented hz.2
      · have first : (z ++ (w ++ (v ++ '\n' :: b))).head? = (z ++ (u ++ '\n' :: a)).head? ∨
            (z ++ (w ++ (v ++ '\n' :: b))).head? ≠ some '.' ∧
              (z ++ (u ++ '\n' :: a)).head? ≠ some '.' := by
          cases z with
          | cons d z => exact .inl rfl
          | nil =>
            have blanks {u : Text} (hu : Blanks u) {s : Text} (hs : s.head? ≠ some '.') :
                (u ++ s).head? ≠ some '.' := by
              cases u with
              | nil => exact hs
              | cons d u =>
                rintro ⟨⟩
                exact absurd (hu '.' List.mem_cons_self).1 (by decide)
            refine .inr ⟨blanks hw ?_, blanks hu (by rw [List.head?_cons]; decide)⟩
            rcases hv with rfl | ⟨r, rfl, -⟩
            · rw [List.nil_append, List.head?_cons]
              decide
            · rw [List.cons_append, List.head?_cons]
              decide
        rw [List.cons_append, List.cons_append, leadingDot_of_visible (Bool.eq_false_iff.2 blank)
          hash, leadingDot_of_visible (Bool.eq_false_iff.2 blank) hash]
        rcases first with same | ⟨left, right⟩
        · rw [same]
        · rw [bne_iff_ne.2 left, bne_iff_ne.2 right, beq_eq_false_iff_ne.2 left,
            beq_eq_false_iff_ne.2 right]

/-- A dot leads the next line just if it does with returns. -/
theorem leadingDot_withReturns (inComment : Bool) (t : Text) :
    leadingDot inComment (withReturns t) = leadingDot inComment t := by
  induction t generalizing inComment with
  | nil => rfl
  | cons c t ih =>
    by_cases hc : c = '\n'
    · subst hc
      -- the return is a blank, or it is part of the comment
      rw [withReturns_lineFeed]
      cases inComment with
      | false => rfl
      | true => exact ih false
    · have dot : ((withReturns t).head? == some '.') = (t.head? == some '.') :=
        first_withReturns (p := fun u => u.head? == some '.') (fun _ _ _ => rfl) rfl t
      have other : ((withReturns t).head? != some '.') = (t.head? != some '.') := congrArg not dot
      rw [withReturns_cons hc, leadingDot, leadingDot, ih, ih, ih, dot, other]

/-- A closing line is no call on the line above. -/
theorem leadingDot_closing (inComment : Bool) (a : Text) :
    leadingDot inComment (a ++ ")\n".toList) = leadingDot inComment a := by
  induction a generalizing inComment with
  | nil => cases inComment <;> rfl
  | cons c a ih =>
    have dot : ((a ++ ")\n".toList).head? == some '.') = (a.head? == some '.') := by
      cases a <;> rfl
    have other : ((a ++ ")\n".toList).head? != some '.') = (a.head? != some '.') := congrArg not dot
    rw [List.cons_append, leadingDot, leadingDot, ih, ih, ih, dot, other]

/-! ## Bodies of braces -/

/-- What a line holds behind the parameters of a block, unless these go on below. -/
def behindParams (line : Text) : Option Text :=
  match trimStart line with
  | '|' :: r =>
    let params := r.takeWhile (· != '|')
    if params.length < r.length then some (trimStart (r.drop (params.length + 1))) else none
  | r => some r

/-- Nothing stands on the rest of a line but a comment. -/
def isBare (rest : Text) : Bool :=
  match dropEndWhile (· == '\r') rest with
  | [] => true
  | c :: _ => c == '#'

/-- A body is below if nothing follows the parameters on the line. -/
theorem bodyBelow_eq (after : Text) :
    bodyBelow after = (behindParams (after.takeWhile (· != '\n'))).any isBare := by
  unfold bodyBelow
  dsimp only
  split
  · next h => exact (congrArg (Option.any isBare) h).symm
  · next r h => exact (congrArg (Option.any isBare) h).symm

/-- Behind a bar the parameters end with the next one. -/
theorem behindParams_of_bar {line r : Text} (h : trimStart line = '|' :: r) : behindParams line =
    if (r.takeWhile (· != '|')).length < r.length then
      some (trimStart (r.drop ((r.takeWhile (· != '|')).length + 1)))
    else none := by
  unfold behindParams
  rw [h]
  rfl

/-- Without a bar there are no parameters. -/
theorem behindParams_of_ne {line : Text} (h : (trimStart line).head? ≠ some '|') :
    behindParams line = some (trimStart line) := by
  unfold behindParams
  split
  · next r hr => exact absurd (by rw [hr]; rfl) h
  · rfl

/-- A text that starts with something visible is bare if it is a comment. -/
theorem isBare_cons {c : Char} (hc : isBlank c = false) (r : Text) :
    isBare (c :: r) = (c == '#') := by
  have stays : dropEndWhile (· == '\r') (c :: r) = c :: dropEndWhile (· == '\r') r := by
    refine dropEndWhile_cons_of_neg ?_ r
    rw [beq_eq_false_iff_ne]
    rintro rfl
    cases hc
  unfold isBare
  rw [stays]

/-- Blanks, and a comment behind them. -/
def Idle (v : Text) : Prop := trimStart v = [] ∨ ∃ r, trimStart v = '#' :: r

/-- What is idle is bare. -/
theorem Idle.isBare (h : Idle v) : isBare (trimStart v) = true := by
  rcases h with h | ⟨r, h⟩
  · rw [h]
    rfl
  · rw [h, isBare_cons rfl]
    rfl

/-- A visible text is trimmed at its own start. -/
theorem trimStart_append_of_ne {t : Text} (h : trimStart t ≠ []) (v : Text) :
    trimStart (t ++ v) = trimStart t ++ v := by
  unfold trimStart at h ⊢
  rw [List.dropWhile_append, if_neg (mt List.isEmpty_iff.1 h)]

/-- Behind a blank text the next one is trimmed. -/
theorem trimStart_append_of_eq {t : Text} (h : trimStart t = []) (v : Text) :
    trimStart (t ++ v) = trimStart v := by
  unfold trimStart at h ⊢
  rw [List.dropWhile_append, if_pos (List.isEmpty_iff.2 h)]

/-- What is trimmed at its start starts with a visible character. -/
theorem isBlank_of_trimStart {t r : Text} {c : Char} (h : trimStart t = c :: r) :
    isBlank c = false := by
  have first := List.head?_dropWhile_not isBlank t
  unfold trimStart at h
  rw [h] at first
  exact first

theorem isBare_trimStart_append (t : Text) (h : Idle v) :
    isBare (trimStart (t ++ v)) = isBare (trimStart t) := by
  cases ht : trimStart t with
  | nil =>
    rw [trimStart_append_of_eq ht, h.isBare]
    rfl
  | cons c r =>
    rw [trimStart_append_of_ne (by rw [ht]; exact List.cons_ne_nil _ _), ht, List.cons_append,
      isBare_cons (isBlank_of_trimStart ht), isBare_cons (isBlank_of_trimStart ht)]

/-- What stands behind the parameters of a block is bare, whatever blanks and comment are put behind
it. The parameters end before, or there is no bar in the comment that could end them. -/
theorem behindParams_append (h : Idle v) (closed : (behindParams z).isSome ∨ '|' ∉ v) :
    (behindParams (z ++ v)).any isBare = (behindParams z).any isBare := by
  -- what is put behind the line may only matter if the parameters are still open
  by_cases bar : (trimStart z).head? = some '|'
  · obtain ⟨r, hr⟩ := List.head?_eq_some_iff.1 bar
    have hr' : trimStart (z ++ v) = '|' :: (r ++ v) := by
      rw [trimStart_append_of_ne (by rw [hr]; exact List.cons_ne_nil _ _), hr]
      rfl
    have within : (r.takeWhile (· != '|')).length ≤ r.length := (List.takeWhile_sublist _).length_le
    rw [behindParams_of_bar hr] at closed
    rw [behindParams_of_bar hr, behindParams_of_bar hr', List.takeWhile_append]
    by_cases left : (r.takeWhile (· != '|')).length = r.length
    · -- the parameters are open on this line, and stay so
      rw [if_neg (Nat.not_lt_of_le (Nat.le_of_eq left.symm))] at closed
      have bars := closed.resolve_left (by decide)
      have all : v.takeWhile (· != '|') = v :=
        List.takeWhile_eq_self_iff.2 fun c hc => bne_iff_ne.2 fun h => bars (h ▸ hc)
      rw [if_pos left, all, if_neg (Nat.lt_irrefl _), if_neg (by omega)]
    · rw [if_neg left, if_pos (by rw [List.length_append]; omega), if_pos (by omega),
        List.drop_append_of_le_length (by omega)]
      exact isBare_trimStart_append _ h
  · have bar' : (trimStart (z ++ v)).head? ≠ some '|' := by
      cases hz : trimStart z with
      | nil =>
        rw [trimStart_append_of_eq hz]
        rcases h with h | ⟨r, h⟩
        · rw [h]
          nofun
        · rw [h, List.head?_cons]
          decide
      | cons c r =>
        rw [trimStart_append_of_ne (by rw [hz]; exact List.cons_ne_nil _ _)]
        rw [hz] at bar ⊢
        exact bar
    rw [behindParams_of_ne bar, behindParams_of_ne bar']
    exact isBare_trimStart_append _ h

/-- What is put behind the code of a line makes no difference to a brace on the line. -/
theorem bodyBelow_margin (hz : '\n' ∉ z) (hu : '\n' ∉ u) (hv : '\n' ∉ v) (idle : Idle u)
    (idle' : Idle v)
    (closed : (behindParams z).isSome) :
    bodyBelow (z ++ (v ++ '\n' :: b)) = bodyBelow (z ++ (u ++ '\n' :: a)) := by
  have line {v : Text} (hv : '\n' ∉ v) (b : Text) : bodyBelow (z ++ (v ++ '\n' :: b)) =
      (behindParams (z ++ v)).any isBare := by
    have none : '\n' ∉ z ++ v := by
      rw [List.mem_append, not_or]
      exact ⟨hz, hv⟩
    rw [bodyBelow_eq, ← List.append_assoc, Tokenizer.takeWhile_line none]
  rw [line hv, line hu, behindParams_append idle' (.inl closed),
    behindParams_append idle (.inl closed)]

/-- Blanks, and a comment behind them, are passed over before a body. -/
theorem Blanks.idle_append (hu : Blanks u) (hv : v = [] ∨ ∃ r, v = '#' :: r) : Idle (u ++ v) := by
  have none : trimStart u = [] := trimStart_of_blank hu.isBlankText
  unfold Idle
  rw [trimStart_append_of_eq none]
  rcases hv with rfl | ⟨r, rfl⟩
  · exact .inl rfl
  · exact .inr ⟨r, rfl⟩

/-- Whether the body of a brace stands below does not depend on the blanks and the comment that end
its line, if its parameters do not go on below. -/
theorem bodyBelow_comment (hx : '\n' ∉ x) (hu : Blanks u) (hw : Blanks w)
    (hv : v = [] ∨ ∃ r, v = '#' :: r ∧ '\n' ∉ r)
    (closed : (behindParams (dropEndWhile isAsciiBlank x)).isSome) :
    bodyBelow (x ++ (w ++ (v ++ '\n' :: b))) = bodyBelow (x ++ (u ++ '\n' :: a)) := by
  obtain ⟨s, hs, blank⟩ := eq_dropEndWhile_append isAsciiBlank x
  have line : '\n' ∉ dropEndWhile isAsciiBlank x ∧ '\n' ∉ s := by
    rw [hs, List.mem_append, not_or] at hx
    exact hx
  -- the blanks at the end of the line belong to the margin
  have blanks : Blanks s := fun c hc => ⟨List.all_eq_true.1 blank c hc, fun h => line.2 (h ▸ hc)⟩
  have blanks_append {u : Text} (hu : Blanks u) : Blanks (s ++ u) := fun c hc =>
    (List.mem_append.1 hc).elim (blanks c) (hu c)
  have comment : '\n' ∉ (s ++ w) ++ v := by
    rw [List.mem_append, not_or]
    refine ⟨(blanks_append hw).notMem (.inr rfl), ?_⟩
    rcases hv with rfl | ⟨r, rfl, hr⟩
    · exact List.not_mem_nil
    · exact List.not_mem_cons_of_ne_of_not_mem (by decide) hr
  have margin := bodyBelow_margin (a := a) (b := b) line.1
    ((blanks_append hu).notMem (.inr rfl)) comment
    (List.append_nil (s ++ u) ▸ (blanks_append hu).idle_append (.inl rfl))
    ((blanks_append hw).idle_append (hv.imp_right fun ⟨r, hr, _⟩ => ⟨r, hr⟩)) closed
  rw [List.append_assoc, List.append_assoc, ← List.append_assoc _ s, ← hs, List.append_assoc s,
    ← List.append_assoc _ s, ← hs] at margin
  exact margin

/-- Whether the body of a brace stands below is seen from its line. -/
theorem bodyBelow_append (h : '\n' ∈ a) (b : Text) : bodyBelow (a ++ b) = bodyBelow a := by
  obtain ⟨x, z, rfl, hx⟩ := exists_append_of_mem h
  rw [bodyBelow_eq, bodyBelow_eq, List.append_assoc, List.cons_append, Tokenizer.takeWhile_line hx,
    Tokenizer.takeWhile_line hx]

/-- A body is below just if it is with returns. -/
theorem bodyBelow_withReturns (after : Text) : bodyBelow (withReturns after) = bodyBelow after := by
  obtain ⟨x, s, rfl, hx, rfl | ⟨a, rfl⟩⟩ := Tokenizer.exists_line after
  · rw [List.append_nil, withReturns_of_notMem hx]
  · have line : '\n' ∉ x ++ ['\r'] := by
      rw [List.mem_append, not_or]
      exact ⟨hx, by decide⟩
    rw [bodyBelow_eq, bodyBelow_eq, withReturns_append, withReturns_of_notMem hx,
      withReturns_lineFeed, List.append_cons, Tokenizer.takeWhile_line line,
      Tokenizer.takeWhile_line hx, behindParams_append (.inl rfl) (.inr (by decide))]

end Marginalia.Source
