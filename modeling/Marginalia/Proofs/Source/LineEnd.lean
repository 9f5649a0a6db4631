import Marginalia.Source.Lexeme
import Marginalia.Proofs.Text

/-!
# Lexemes at the end of a line

How far a lexeme looks. Everything that reads a lexeme stops at a blank, and so it does not matter
which blanks follow the code of a line, nor what follows them. There are five exceptions, in which
the end of the code is a hinge: a name with a question mark and a colon, the name of a setter, the
variable `$-`, a character literal whose escape is not complete, and one whose braces are not
closed. `read_append` says that these are all.
-/

namespace Marginalia.Source

/-- Blanks follow, or nothing. -/
def Stops (s : Text) : Prop := ∀ c, s.head? = some c → Text.isAsciiBlank c

theorem stops_nil : Stops [] := nofun

theorem stops_cons {c : Char} (h : Text.isAsciiBlank c) (s : Text) : Stops (c :: s) :=
  fun d hd => by rw [← Option.some.inj hd]; exact h

/-- Two texts look the same to what is read before them: blanks follow, or nothing, and where the
code ends in a hinge, both start with a line feed. -/
structure Alike (hinge : Bool) (s t : Text) : Prop where
  left : Stops s
  right : Stops t
  lineFeed : hinge = false ∨ ∃ a b, s = '\n' :: a ∧ t = '\n' :: b

/-- Two ends of lines are alike, whatever hinges on them. -/
theorem Alike.of_endLine (hinge : Bool) (a b : Text) : Alike hinge ('\n' :: a) ('\n' :: b) :=
  ⟨stops_cons (by decide) a, stops_cons (by decide) b, .inr ⟨a, b, rfl, rfl⟩⟩

/-- Texts that are alike for a hinge are alike where less hinges on them. -/
theorem Alike.of_imp {h k : Bool} {s t : Text} (hst : Alike h s t) (hk : k = true → h = true) :
    Alike k s t :=
  ⟨hst.left, hst.right, hst.lineFeed.imp_left fun hh => by
    cases k with
    | false => rfl
    | true => rw [hk rfl] at hh; cases hh⟩

/-- A blank is one of five characters. -/
theorem isAsciiBlank_cases {c : Char} (h : Text.isAsciiBlank c) :
    c = ' ' ∨ c = '\t' ∨ c = '\n' ∨ c = '\x0c' ∨ c = '\r' := by
  unfold Text.isAsciiBlank at h
  simpa only [Bool.or_eq_true, beq_iff_eq, or_assoc] using h

/-- A visible character is no blank of the lexer either. -/
theorem isAsciiBlank_eq_false {c : Char} (h : Text.isBlank c = false) :
    Text.isAsciiBlank c = false := by
  rw [Bool.eq_false_iff]
  intro blank
  rcases isAsciiBlank_cases blank with rfl | rfl | rfl | rfl | rfl
  all_goals
    revert h
    decide

/-- A blank that ends no line is skipped. -/
theorem isSkipped_of_isAsciiBlank {c : Char} (blank : Text.isAsciiBlank c) (line : c ≠ '\n') :
    (c == ' ' || c == '\t' || c == '\r' || c == '\x0c') = true := by
  rcases isAsciiBlank_cases blank with rfl | rfl | rfl | rfl | rfl
  · rfl
  · rfl
  · exact absurd rfl line
  · rfl
  · rfl

/-- A test that no blank passes. -/
def Solid (p : Char → Bool) : Prop := ∀ c, Text.isAsciiBlank c → p c = false

/-- A class of characters is solid if it holds none of the five blanks. -/
theorem solid_of_blanks {p : Char → Bool}
    (h : (p ' ' || p '\t' || p '\n' || p '\x0c' || p '\r') = false) : Solid p := by
  intro c hc
  simp only [Bool.or_eq_false_iff] at h
  obtain ⟨⟨⟨⟨h1, h2⟩, h3⟩, h4⟩, h5⟩ := h
  rcases isAsciiBlank_cases hc with rfl | rfl | rfl | rfl | rfl <;> assumption

theorem solid_isNameChar : Solid isNameChar := solid_of_blanks (by decide)

theorem solid_isNameStart : Solid isNameStart := solid_of_blanks (by decide)

theorem solid_isHexDigit : Solid isHexDigit := solid_of_blanks (by decide)

/-- A visible character is solid by itself. -/
theorem solid_beq {c : Char} (h : Text.isAsciiBlank c = false) : Solid (· == c) := by
  intro d hd
  rw [beq_eq_false_iff_ne]
  rintro rfl
  rw [h] at hd
  cases hd

/-- A solid class does not hold the first character of a text before which everything stops. -/
theorem Solid.head {p : Char → Bool} (hp : Solid p) {s : Text} (hs : Stops s) :
    s.head?.any p = false := by
  cases s with
  | nil => rfl
  | cons c s => exact hp c (hs c rfl)

/-- What is taken from a text ends with it, where the next character is not in the class. -/
theorem takeWhile_append_head {p : Char → Bool} (x : Text) {s : Text} (hs : s.head?.any p = false) :
    (x ++ s).takeWhile p = x.takeWhile p := by
  induction x with
  | nil =>
    cases s with
    | nil => rfl
    | cons c s =>
      have hc : p c = false := hs
      rw [List.nil_append, List.takeWhile_cons, hc]
      rfl
  | cons c x ih => rw [List.cons_append, List.takeWhile_cons, List.takeWhile_cons, ih]

/-- A run of characters ends where the next one is not in its class. -/
theorem run_append {p : Char → Bool} (x : Text) {s : Text} (hs : s.head?.any p = false) :
    run p (x ++ s) = run p x := congrArg List.length (takeWhile_append_head x hs)

/-- A run is not longer than the text. -/
theorem run_le (p : Char → Bool) (x : Text) : run p x ≤ x.length :=
  (List.takeWhile_sublist p).length_le

/-- Behind a stop nothing of a solid class is ahead, so that what is ahead depends on the line
alone. -/
theorem head?_append_stops {p : Char → Bool} (hp : Solid p) (x : Text) {s : Text} (hs : Stops s) :
    (x ++ s).head?.any p = x.head?.any p := by
  cases x with
  | nil => rw [List.nil_append, hp.head hs]; rfl
  | cons c x => rfl

/-- What starts with a character that is no blank does not start with the blanks that follow. -/
theorem Stops.eq_cons {s : Text} (hs : Stops s) {d : Char} (hd : Text.isAsciiBlank d = false)
    {x r : Text} (h : x ++ s = d :: r) : ∃ y, x = d :: y ∧ r = y ++ s := by
  cases x with
  | nil =>
    have blank := hs d (by rw [← List.nil_append s, h]; rfl)
    rw [hd] at blank
    cases blank
  | cons c y =>
    obtain ⟨rfl, hr⟩ := List.cons.inj h
    exact ⟨y, rfl, hr.symm⟩

/-- The front of a text before which everything stops is such a text, too. -/
theorem Stops.take {s : Text} (hs : Stops s) (n : Nat) : Stops (s.take n) := by
  intro c hc
  rw [List.head?_take] at hc
  split at hc
  · cases hc
  · exact hs c hc

namespace Lexeme

variable {s t : Text}

/-! ## Operators, numbers and characters -/

/-- An operator without blanks does not reach across a stop. -/
theorem isPrefixOf_append {op : Text} (hop : op.all fun c => !Text.isAsciiBlank c) (x : Text)
    (hs : Stops s) : List.isPrefixOf op (x ++ s) = List.isPrefixOf op x := by
  induction op generalizing x with
  | nil => rfl
  | cons c op ih =>
    rw [List.all_cons, Bool.and_eq_true, Bool.not_eq_true'] at hop
    cases x with
    | nil =>
      cases s with
      | nil => rfl
      | cons d s =>
        -- the operator would have to go on with a blank
        have hd := hs d rfl
        have ne : c ≠ d := by
          rintro rfl
          rw [hop.1] at hd
          cases hd
        rw [List.nil_append, List.isPrefixOf_cons_cons, beq_false_of_ne ne]
        rfl
    | cons d x =>
      rw [List.cons_append, List.isPrefixOf_cons_cons, List.isPrefixOf_cons_cons, ih hop.2 x]

/-- The operator that is read is the same, whatever follows the stop. -/
theorem operatorLength?_append {ops : List String}
    (hops : ops.all fun op => op.toList.all fun c => !Text.isAsciiBlank c) (x : Text)
    (hs : Stops s) : operatorLength? ops (x ++ s) = operatorLength? ops x := by
  unfold operatorLength?
  congr 1
  induction ops with
  | nil => rfl
  | cons op ops ih =>
    rw [List.all_cons, Bool.and_eq_true] at hops
    rw [List.find?_cons, List.find?_cons, isPrefixOf_append hops.1 x hs, ih hops.2]

/-- An operator is not longer than the text. -/
theorem operatorLength?_le {ops : List String} {x : Text} {n : Nat}
    (h : operatorLength? ops x = some n) : n ≤ x.length := by
  unfold operatorLength? at h
  obtain ⟨op, hop, rfl⟩ := Option.map_eq_some_iff.1 h
  have starts := List.find?_some hop
  exact (List.isPrefixOf_iff_prefix.1 starts).length_le

/-- No operator that names a method has a blank. -/
theorem solid_methodOperators :
    methodOperators.all fun op => op.toList.all fun c => !Text.isAsciiBlank c := by decide

/-- No operator has a blank. -/
theorem solid_operators : operators.all fun op => op.toList.all fun c => !Text.isAsciiBlank c := by
  decide

/-- A number ends before a stop. -/
theorem numberLength_append (exponent : Bool) (x : Text) (hs : Stops s) :
    numberLength exponent (x ++ s) = numberLength exponent x := by
  have alphanum : Solid fun c => c.isAlphanum || c == '_' := solid_of_blanks (by decide)
  have sign : Solid fun c => c == '+' || c == '-' := solid_of_blanks (by decide)
  have digit : Solid Char.isDigit := solid_of_blanks (by decide)
  induction x generalizing exponent with
  | nil =>
    cases s with
    | nil => rfl
    | cons c s =>
      have hc := hs c rfl
      have point : (c == '.') = false := solid_of_blanks (p := (· == '.')) (by decide) c hc
      show numberLength exponent (c :: s) = 0
      have hw := alphanum c hc
      have hsign := sign c hc
      dsimp only at hw hsign
      rw [numberLength, hw, hsign, point]
      simp
  | cons c x ih =>
    rw [List.cons_append, numberLength, numberLength, head?_append_stops digit x hs, ih, ih]

/-- A number is not longer than the text. -/
theorem numberLength_le (exponent : Bool) (x : Text) : numberLength exponent x ≤ x.length := by
  induction x generalizing exponent with
  | nil => exact Nat.le_refl 0
  | cons c x ih =>
    unfold numberLength
    have h1 := ih (c == 'e' || c == 'E')
    have h2 := ih false
    rw [List.length_cons]
    split
    · omega
    · split
      · omega
      · split <;> omega

/-- A stop does not change whether a character literal is ahead. -/
theorem charLiteralAhead_append (x : Text) (hs : Stops s) :
    charLiteralAhead (x ++ s) = charLiteralAhead x := by
  cases x with
  | nil =>
    cases s with
    | nil => rfl
    | cons c s =>
      show charLiteralAhead (c :: s) = false
      simp [charLiteralAhead, hs c rfl]
  | cons c x =>
    cases x with
    | nil =>
      cases s with
      | nil => rfl
      | cons d s =>
        simp only [charLiteralAhead, List.cons_append, List.nil_append,
          solid_isNameChar d (hs d rfl)]
        rfl
    | cons d x => rfl

/-- An escape that takes what follows it, or that has an open brace. -/
def openEscape : Text → Bool
  | [] => true
  | ['C', '-'] => true
  | ['M', '-'] => true
  | 'C' :: '-' :: '\\' :: r => openEscape r
  | 'M' :: '-' :: '\\' :: r => openEscape r
  | 'u' :: '{' :: r => !r.contains '}'
  | _ => false

/-- The braces of an escape close on its line. -/
theorem run_brace_append {x : Text} (h : x.contains '}') (hx : '\n' ∉ x) (s : Text) :
    run (fun c => c != '}' && c != '\n') (x ++ s) = run (fun c => c != '}' && c != '\n') x ∧
      run (fun c => c != '}' && c != '\n') x < x.length := by
  unfold run
  induction x with
  | nil => cases h
  | cons c x ih =>
    rw [List.mem_cons, not_or] at hx
    rw [List.cons_append, List.takeWhile_cons, List.takeWhile_cons]
    by_cases hc : c = '}'
    · rw [hc]
      exact ⟨rfl, Nat.zero_lt_succ _⟩
    · have other : x.contains '}' := by
        rw [List.contains_cons, Bool.or_eq_true, beq_iff_eq] at h
        exact h.resolve_left fun h => hc h.symm
      have pass : (c != '}' && c != '\n') = true := by
        rw [Bool.and_eq_true, bne_iff_ne, bne_iff_ne]
        exact ⟨hc, Ne.symm hx.1⟩
      obtain ⟨h1, h2⟩ := ih other hx.2
      rw [if_pos pass, if_pos pass, List.length_cons, List.length_cons, List.length_cons, h1]
      exact ⟨rfl, Nat.succ_lt_succ h2⟩

/-- An escape of four digits takes those that are there before the stop. -/
theorem escapeLength_unicode {r : Text} (hr : ∀ r', r = '{' :: r' → False) (hs : Stops s) :
    escapeLength ('u' :: (r ++ s)) = 1 + run isHexDigit (r.take 4) := by
  rw [escapeLength.eq_2]
  · rw [List.take_append, run_append _ (solid_isHexDigit.head (hs.take _))]
  · intro r' h'
    obtain ⟨y, hy, -⟩ := hs.eq_cons (by decide) h'
    exact hr y hy

/-- A control escape takes one character of what follows the stop. -/
theorem escapeLength_control {c : Char} {r : Text} (hc : c = 'C' ∨ c = 'M')
    (hr : ∀ r', r = '\\' :: r' → False) (hs : Stops s) (some_left : r ++ s ≠ []) :
    escapeLength (c :: '-' :: (r ++ s)) = 3 := by
  have plain : ∀ r', r ++ s = '\\' :: r' → False := fun r' h' => by
    obtain ⟨y, hy, -⟩ := hs.eq_cons (by decide) h'
    exact hr y hy
  have left : 1 ≤ (r ++ s).length := List.length_pos_iff.2 some_left
  rcases hc with rfl | rfl
  · rw [escapeLength.eq_5 _ plain]
    omega
  · rw [escapeLength.eq_6 _ plain]
    omega

/-- Any other escape is a single character. -/
theorem escapeLength_single {c : Char} {r : Text} (hu : c = 'u' → False)
    (hC : ∀ r', c = 'C' → r = '-' :: r' → False) (hM : ∀ r', c = 'M' → r = '-' :: r' → False)
    (hs : Stops s) : escapeLength (c :: (r ++ s)) = 1 := by
  have dash : ∀ r', r ++ s = '-' :: r' → ∃ y, r = '-' :: y := fun r' h' => by
    obtain ⟨y, hy, -⟩ := hs.eq_cons (by decide) h'
    exact ⟨y, hy⟩
  have noC : ∀ r', c = 'C' → r ++ s = '-' :: r' → False := fun r' hc h' => by
    obtain ⟨y, hy⟩ := dash r' h'
    exact hC y hc hy
  have noM : ∀ r', c = 'M' → r ++ s = '-' :: r' → False := fun r' hc h' => by
    obtain ⟨y, hy⟩ := dash r' h'
    exact hM y hc hy
  exact escapeLength.eq_7 _ _ (fun _ hc _ => hu hc) hu (fun r' => noC ('\\' :: r'))
    (fun r' => noM ('\\' :: r')) noC noM

/-- An escape that is not left open by its line ends before the stop. -/
theorem escapeLength_append {x : Text} (hx : '\n' ∉ x) (hs : Stops s)
    (h : openEscape x = false) : escapeLength (x ++ s) = escapeLength x := by
  fun_induction escapeLength x with
  | case1 r inside =>
    -- the braces close in the code
    rw [openEscape, Bool.not_eq_false'] at h
    have hr : '\n' ∉ r := fun hm => hx (List.mem_cons_of_mem _ (List.mem_cons_of_mem _ hm))
    obtain ⟨same, lt⟩ := run_brace_append h hr s
    rw [List.cons_append, List.cons_append, escapeLength, same, List.getElem?_append_left lt]
  | case2 r hr => exact escapeLength_unicode hr hs
  | case3 r ih =>
    rw [openEscape] at h
    have hr : '\n' ∉ r := fun hm => hx (by simp [hm])
    simp only [List.cons_append, escapeLength, ih hr h]
  | case4 r ih =>
    rw [openEscape] at h
    have hr : '\n' ∉ r := fun hm => hx (by simp [hm])
    simp only [List.cons_append, escapeLength, ih hr h]
  | case5 r hr =>
    cases r with
    | nil => cases h
    | cons d r =>
      rw [List.cons_append, List.cons_append,
        escapeLength_control (.inl rfl) hr hs (List.cons_ne_nil _ _), List.length_cons]
      omega
  | case6 r hr =>
    cases r with
    | nil => cases h
    | cons d r =>
      rw [List.cons_append, List.cons_append,
        escapeLength_control (.inr rfl) hr hs (List.cons_ne_nil _ _), List.length_cons]
      omega
  | case7 c r h1 h2 h3 h4 h5 h6 => exact escapeLength_single h2 h5 h6 hs
  | case8 => cases h

/-- Whatever follows the end of the line, an escape looks no further. -/
theorem escapeLength_endLine (x a b : Text) :
    escapeLength (x ++ '\n' :: a) = escapeLength (x ++ '\n' :: b) := by
  have hs : ∀ u : Text, Stops ('\n' :: u) := stops_cons (by decide)
  have left : ∀ (r u : Text), r ++ '\n' :: u ≠ [] := fun r u =>
    List.append_ne_nil_of_right_ne_nil r (List.cons_ne_nil _ u)
  fun_induction escapeLength x with
  | case1 r inside =>
    have same : ∀ u : Text, run (fun c => c != '}' && c != '\n') (r ++ '\n' :: u) =
        run (fun c => c != '}' && c != '\n') r := fun u => run_append r rfl
    have hle := run_le (fun c => c != '}' && c != '\n') r
    rw [List.cons_append, List.cons_append, List.cons_append, List.cons_append, escapeLength,
      escapeLength, same a, same b]
    -- the braces close in the code, or the line feed stands where they should
    rcases Nat.lt_or_eq_of_le hle with hlt | heq
    · rw [List.getElem?_append_left hlt, List.getElem?_append_left hlt]
    · rw [heq, List.getElem?_append_right (Nat.le_refl _),
        List.getElem?_append_right (Nat.le_refl _), Nat.sub_self]
      rfl
  | case2 r hr => exact (escapeLength_unicode hr (hs a)).trans (escapeLength_unicode hr (hs b)).symm
  | case3 r ih => simp only [List.cons_append, escapeLength, ih]
  | case4 r ih => simp only [List.cons_append, escapeLength, ih]
  | case5 r hr =>
    exact (escapeLength_control (.inl rfl) hr (hs a) (left r a)).trans
      (escapeLength_control (.inl rfl) hr (hs b) (left r b)).symm
  | case6 r hr =>
    exact (escapeLength_control (.inr rfl) hr (hs a) (left r a)).trans
      (escapeLength_control (.inr rfl) hr (hs b) (left r b)).symm
  | case7 c r h1 h2 h3 h4 h5 h6 =>
    exact (escapeLength_single h2 h5 h6 (hs a)).trans (escapeLength_single h2 h5 h6 (hs b)).symm
  | case8 => rfl

/-- An escape is not longer than the text. -/
theorem escapeLength_le (x : Text) : escapeLength x ≤ x.length := by
  fun_induction escapeLength x with
  | case1 r inside =>
    have := run_le (fun c => c != '}' && c != '\n') r
    simp only [List.length_cons]
    split
    · next h =>
      rw [beq_iff_eq] at h
      have := (List.getElem?_eq_some_iff.1 h).1
      omega
    · omega
  | case2 r h =>
    have := run_le isHexDigit (r.take 4)
    rw [List.length_take] at this
    rw [List.length_cons]
    omega
  | case3 r ih => simp only [List.length_cons]; omega
  | case4 r ih => simp only [List.length_cons]; omega
  | case5 r h => simp only [List.length_cons]; omega
  | case6 r h => simp only [List.length_cons]; omega
  | case7 c r => simp only [List.length_cons]; omega
  | case8 => exact Nat.le_refl 0

/-- Whether a character literal takes what follows its code. -/
def openChar : Text → Bool
  | '\\' :: r => openEscape r
  | _ => false

/-- A character literal is read the same before texts that are alike for an open one. -/
theorem charLiteral_append {x : Text} (hx : '\n' ∉ x) (visible : x ≠ [])
    (h : Alike (openChar x) s t) : charLiteral (x ++ s) = charLiteral (x ++ t) := by
  obtain ⟨c, r, rfl⟩ := List.exists_cons_of_ne_nil visible
  -- only an escape looks behind its first character
  by_cases hc : c = '\\'
  · subst hc
    show Lexeme.token .literal (1 + escapeLength (r ++ s)) =
      .token .literal (1 + escapeLength (r ++ t))
    rcases h.lineFeed with hinge | ⟨a, b, rfl, rfl⟩
    · have hr : '\n' ∉ r := fun hm => hx (List.mem_cons_of_mem _ hm)
      rw [escapeLength_append hr h.left hinge, escapeLength_append hr h.right hinge]
    · rw [escapeLength_endLine r a b]
  · have one : ∀ u : Text, charLiteral (c :: u) = .token .literal 1 := by
      intro u
      unfold charLiteral
      split
      · next h' => exact absurd (List.cons.inj h').1 hc
      · rfl
    exact (one _).trans (one _).symm

/-! ## Names -/

/-- Behind a run of a solid class the rest of the line comes, and then the stop. -/
theorem drop_append_run {p : Char → Bool} (hp : Solid p) (x : Text) (hs : Stops s) :
    (x ++ s).drop (run p (x ++ s)) = x.drop (run p x) ++ s := by
  rw [run_append x (hp.head hs), List.drop_append_of_le_length (run_le p x)]

/-- Dropping a run drops the characters of the class. -/
theorem drop_run (p : Char → Bool) (x : Text) : x.drop (run p x) = x.dropWhile p := by
  unfold run
  induction x with
  | nil => rfl
  | cons c x ih =>
    rw [List.takeWhile_cons, List.dropWhile_cons]
    split
    · exact ih
    · rfl

/-- A stop does not change whether an assignment is ahead. -/
theorem assignmentAhead_append (x : Text) (hs : Stops s) :
    assignmentAhead (x ++ s) = assignmentAhead x := by
  -- a blank behind the sign makes it an assignment, as the end of the text does
  cases x with
  | nil =>
    cases s with
    | nil => rfl
    | cons c s =>
      rcases isAsciiBlank_cases (hs c rfl) with rfl | rfl | rfl | rfl | rfl <;> rfl
  | cons c x =>
    cases x with
    | nil =>
      cases s with
      | nil => rfl
      | cons d s =>
        by_cases hc : c = '='
        · subst hc
          rcases isAsciiBlank_cases (hs d rfl) with rfl | rfl | rfl | rfl | rfl <;> rfl
        · simp [assignmentAhead, hc]
    | cons d x =>
      by_cases hc : c = '='
      · subst hc
        by_cases hd : d = '='
        · subst hd; rfl
        · by_cases hd' : d = '~'
          · subst hd'; rfl
          · simp [assignmentAhead, hd, hd']
      · simp [assignmentAhead, hc]

/-- The mark at the end of a name does not depend on what follows the stop. -/
theorem nameMark_append (x : Text) (hs : Stops s) : nameMark (x ++ s) = nameMark x := by
  cases x with
  | nil =>
    cases s with
    | nil => rfl
    | cons c s =>
      rcases isAsciiBlank_cases (hs c rfl) with rfl | rfl | rfl | rfl | rfl <;> rfl
  | cons c x =>
    show (if (c == '?' || c == '!') && !assignmentAhead (x ++ s) then 1 else 0) = _
    rw [assignmentAhead_append x hs]
    rfl

theorem ite_le_one (p : Prop) [Decidable p] : (if p then 1 else 0) ≤ 1 := by
  split <;> decide

/-- The mark of a name is not longer than the text. -/
theorem nameMark_le (x : Text) : nameMark x ≤ x.length := by
  cases x with
  | nil => exact Nat.le_refl 0
  | cons c x => exact Nat.le_trans (ite_le_one _) (Nat.le_add_left 1 x.length)

/-- The colon of a key is told by what follows, if it ends its line behind a name with a question
mark. -/
theorem labelColon_append {name y : Text}
    (h : Alike (y == [':'] && name.getLast? == some '?') s t) :
    labelColon name (y ++ s) = labelColon name (y ++ t) := by
  have blank : ∀ {u : Text}, Stops u → labelColon name u = false := by
    intro u hu
    cases u with
    | nil => rfl
    | cons c u => rcases isAsciiBlank_cases (hu c rfl) with rfl | rfl | rfl | rfl | rfl <;> rfl
  cases y with
  | nil => exact (blank h.left).trans (blank h.right).symm
  | cons c y =>
    by_cases hc : c = ':'
    · subst hc
      cases y with
      | nil =>
        rcases h.lineFeed with hinge | ⟨a, b, rfl, rfl⟩
        -- a name without a question mark is a label before all but a second colon
        · have last : (name.getLast? != some '?') = true := by
            rw [beq_self_eq_true, Bool.true_and] at hinge
            rw [bne, hinge]
            rfl
          have colon : ∀ {u : Text}, Stops u → labelColon name (':' :: u) = true := by
            intro u hu
            have noColon : (u.head? != some ':') = true := by
              cases u with
              | nil => rfl
              | cons d u =>
                rcases isAsciiBlank_cases (hu d rfl) with rfl | rfl | rfl | rfl | rfl <;> rfl
            show (u.head? != some ':' && (name.getLast? != some '?' || u.head? == some ' ')) = true
            rw [last, noColon]
            rfl
          exact (colon h.left).trans (colon h.right).symm
        · rfl
      | cons d y => rfl
    · have other : ∀ u : Text, labelColon name (c :: u) = false := by
        intro u
        unfold labelColon
        split
        · next h' => exact absurd (List.cons.inj h').1 hc
        · rfl
      exact (other _).trans (other _).symm

/-- How far a word reaches behind its first character, with its mark. -/
def wordLength (x : Text) : Nat := run isNameChar x + nameMark (x.drop (run isNameChar x))

/-- A word ends before a stop. -/
theorem wordLength_append (x : Text) (hs : Stops s) : wordLength (x ++ s) = wordLength x := by
  unfold wordLength
  rw [drop_append_run solid_isNameChar x hs, run_append x (solid_isNameChar.head hs),
    nameMark_append _ hs]

/-- A word is not longer than the text. -/
theorem wordLength_le (x : Text) : wordLength x ≤ x.length := by
  have h1 := run_le isNameChar x
  have h2 := nameMark_le (x.drop (run isNameChar x))
  rw [List.length_drop] at h2
  unfold wordLength
  omega

/-- The word that starts with a character, by what follows its letters and its mark. -/
def wordBefore (m : Memory) (more : Nat) (name after : Text) : Lexeme :=
  if !m.afterDot && labelColon name after then .token .label (more + 1)
  else
    match if m.afterDot then none else Keyword.ofText? name with
    | some k => .token (.keyword k) more
    | none => .token (if (name.head?.any Char.isUpper) then .const else .ident) more

/-- A word is told by its length, its text and what follows it. -/
theorem word_eq (m : Memory) (c : Char) (x : Text) :
    word m c x = wordBefore m (wordLength x) (c :: x.take (wordLength x)) (x.drop (wordLength x)) :=
  rfl

/-- The code ends in a name with a question mark and a colon. -/
def openLabel (m : Memory) (x : Text) : Bool := !m.afterDot && x.dropWhile isNameChar == ['?', ':']

/-- Taking a run takes the characters of the class. -/
theorem take_run (p : Char → Bool) (x : Text) : x.take (run p x) = x.takeWhile p := by
  conv => lhs; rhs; rw [← List.takeWhile_append_dropWhile (p := p) (l := x)]
  exact List.take_left

/-- No letter of a name is a question mark. -/
theorem getLast?_letters {c : Char} (hc : isNameStart c) (x : Text) :
    (c :: x.take (run isNameChar x)).getLast? ≠ some '?' := by
  intro h
  rcases List.mem_cons.1 (List.mem_of_getLast? h) with rfl | hm
  · exact absurd hc (by decide)
  · rw [take_run] at hm
    have := List.all_eq_true.1 List.all_takeWhile _ hm
    exact absurd this (by decide)

/-- If a word ends in a question mark, and a lone colon follows it, those two are all that is left
behind the name. -/
theorem dropWhile_of_word {c : Char} (hc : isNameStart c) {x : Text}
    (hlast : (c :: x.take (wordLength x)).getLast? = some '?')
    (hcolon : x.drop (wordLength x) = [':']) : x.dropWhile isNameChar = ['?', ':'] := by
  rw [← drop_run]
  unfold wordLength at hlast hcolon
  cases hr : x.drop (run isNameChar x) with
  | nil =>
    rw [← List.drop_drop, hr] at hcolon
    cases hcolon
  | cons e y =>
    rw [hr] at hlast hcolon
    by_cases marked : ((e == '?' || e == '!') && !assignmentAhead y) = true
    · -- the mark is the last character of the name
      have one : nameMark (e :: y) = 1 := if_pos marked
      have front : x.take (run isNameChar x + 1) = x.take (run isNameChar x) ++ [e] := by
        rw [List.take_add, hr]
        rfl
      rw [one, ← List.drop_drop, hr] at hcolon
      rw [one, front, ← List.cons_append, List.getLast?_concat] at hlast
      rw [Option.some.inj hlast, show y = [':'] from hcolon]
    · have none : nameMark (e :: y) = 0 := if_neg marked
      rw [none] at hlast
      exact absurd hlast (getLast?_letters hc x)

/-- A word is read the same before texts that are alike for an open key. -/
theorem word_append {m : Memory} {c : Char} (hc : isNameStart c) {x : Text}
    (h : Alike (openLabel m x) s t) : word m c (x ++ s) = word m c (x ++ t) := by
  have within := wordLength_le x
  rw [word_eq, word_eq, wordLength_append x h.left, wordLength_append x h.right,
    List.take_append_of_le_length within, List.take_append_of_le_length within,
    List.drop_append_of_le_length within, List.drop_append_of_le_length within]
  unfold wordBefore
  by_cases hd : m.afterDot
  · rw [hd]
    rfl
  · rw [labelColon_append (h.of_imp fun hinge => ?_)]
    rw [Bool.and_eq_true, beq_iff_eq, beq_iff_eq] at hinge
    rw [openLabel, dropWhile_of_word hc hinge.2 hinge.1, Bool.eq_false_iff.2 hd]
    rfl

/-- The mark of a method's name is the same before texts that are alike behind an equals sign. -/
theorem methodMark_append {y : Text} (h : Alike (y == ['=']) s t) :
    methodMark (y ++ s) = methodMark (y ++ t) := by
  have blank : ∀ {u : Text}, Stops u → methodMark u = 0 := by
    intro u hu
    cases u with
    | nil => rfl
    | cons c u => rcases isAsciiBlank_cases (hu c rfl) with rfl | rfl | rfl | rfl | rfl <;> rfl
  -- two characters decide, and the second may come from behind the seam only for `=`
  cases y with
  | nil => exact (blank h.left).trans (blank h.right).symm
  | cons c y =>
    cases y with
    | nil =>
      by_cases hc : c = '='
      · subst hc
        rcases h.lineFeed with hinge | ⟨a, b, rfl, rfl⟩
        · cases hinge
        · rfl
      · have other : ∀ u : Text, methodMark (c :: u) = methodMark [c] := by
          intro u
          by_cases h1 : c = '?'
          · subst h1; rfl
          · by_cases h2 : c = '!'
            · subst h2; rfl
            · cases u <;> simp [methodMark, hc, h1, h2]
        exact (other _).trans (other _).symm
    | cons d y =>
      by_cases h1 : c = '?'
      · subst h1; rfl
      · by_cases h2 : c = '!'
        · subst h2; rfl
        · by_cases hc : c = '='
          · subst hc; rfl
          · simp [methodMark, hc, h1, h2]

/-- The code ends in the name of a setter. -/
def openSetter (x : Text) : Bool := x.dropWhile isNameChar == ['=']

/-- The name of a method is read the same before texts that are alike for an open setter. -/
theorem methodName?_append {c : Char} {x : Text}
    (h : Alike (isNameStart c && openSetter x) s t) :
    methodName? c (x ++ s) = methodName? c (x ++ t) := by
  unfold methodName?
  by_cases hn : isNameStart c
  · rw [if_pos hn, if_pos hn]
    have hinge : Alike (x.drop (run isNameChar x) == ['=']) s t := h.of_imp fun hy => by
      rw [hn, openSetter, ← drop_run, hy]
      rfl
    dsimp only
    rw [drop_append_run solid_isNameChar x h.left, drop_append_run solid_isNameChar x h.right,
      run_append x (solid_isNameChar.head h.left), run_append x (solid_isNameChar.head h.right)]
    generalize x.drop (run isNameChar x) = y at hinge
    -- before a dot stands a receiver, and no mark is looked for
    by_cases hdot : y.head? = some '.'
    · obtain ⟨r, rfl⟩ := List.head?_eq_some_iff.1 hdot
      rfl
    · have noDot : ∀ {u : Text}, Stops u → ∀ r, y ++ u ≠ '.' :: r := fun hu r heq => by
        obtain ⟨z, rfl, -⟩ := hu.eq_cons (by decide) heq
        exact hdot rfl
      split
      · next heq => exact absurd heq (noDot h.left _)
      · split
        · next heq => exact absurd heq (noDot h.right _)
        · rw [methodMark_append hinge]
  · rw [if_neg hn, if_neg hn]
    split
    · rfl
    · rw [← List.cons_append, ← List.cons_append,
        operatorLength?_append solid_methodOperators (c :: x) h.left,
        operatorLength?_append solid_methodOperators (c :: x) h.right]

/-! ## Variables and symbols -/

/-- A global variable is read the same before texts that are alike behind a dash. -/
theorem globalVar_append {x : Text} (h : Alike (x == ['-']) s t) :
    globalVar (x ++ s) = globalVar (x ++ t) := by
  have blank : ∀ {u : Text}, Stops u → globalVar u = .token .var 0 := by
    intro u hu
    cases u with
    | nil => rfl
    | cons c u =>
      rcases isAsciiBlank_cases (hu c rfl) with rfl | rfl | rfl | rfl | rfl <;> rfl
  -- `-` takes one more character whatever it is, all other names stop at the seam
  cases x with
  | nil => exact (blank h.left).trans (blank h.right).symm
  | cons c x =>
    by_cases hc : c = '-'
    · subst hc
      cases x with
      | nil =>
        rcases h.lineFeed with hinge | ⟨a, b, rfl, rfl⟩
        · cases hinge
        · rfl
      | cons d x => rfl
    · have name : ∀ {u : Text}, Stops u → globalVar (c :: (x ++ u)) =
          if isNameChar c then .token .var (run isNameChar (c :: x))
          else .token .var (if Text.isAsciiBlank c then 0 else 1) := by
        intro u hu
        rw [← run_append (c :: x) (solid_isNameChar.head hu)]
        unfold globalVar
        split
        · next h' => cases h'
        · next h' => exact absurd (List.cons.inj h').1 hc
        · next h' => exact absurd (List.cons.inj h').1 hc
        · next h' =>
          obtain ⟨rfl, rfl⟩ := List.cons.inj h'
          rfl
      exact (name h.left).trans (name h.right).symm

/-- A variable of an object or a class ends before a stop. -/
theorem memberVar_append (x : Text) (hs : Stops s) : memberVar (x ++ s) = memberVar x := by
  by_cases hat : x.head? = some '@'
  · obtain ⟨r, rfl⟩ := List.head?_eq_some_iff.1 hat
    show Lexeme.token .var (1 + run isNameChar (r ++ s)) = .token .var (1 + run isNameChar r)
    rw [run_append r (solid_isNameChar.head hs)]
  · have name : ∀ {u : Text}, Stops u →
        memberVar (x ++ u) = .token .var (run isNameChar (x ++ u)) := by
      intro u hu
      unfold memberVar
      split
      · next heq =>
        obtain ⟨z, rfl, -⟩ := hu.eq_cons (by decide) heq
        exact absurd rfl hat
      · rfl
    have bare := name stops_nil
    rw [List.append_nil] at bare
    rw [name hs, bare, run_append x (solid_isNameChar.head hs)]

/-- The mark of a symbol does not depend on what follows the stop. -/
theorem symbolMark_append (x : Text) (hs : Stops s) : symbolMark (x ++ s) = symbolMark x := by
  cases x with
  | nil =>
    cases s with
    | nil => rfl
    | cons c s => rcases isAsciiBlank_cases (hs c rfl) with rfl | rfl | rfl | rfl | rfl <;> rfl
  | cons c x =>
    cases x with
    | nil =>
      cases s with
      | nil => rfl
      | cons d s => rcases isAsciiBlank_cases (hs d rfl) with rfl | rfl | rfl | rfl | rfl <;> rfl
    | cons d x => rfl

/-- The mark of a symbol is not longer than the text. -/
theorem symbolMark_le (x : Text) : symbolMark x ≤ x.length := by
  cases x with
  | nil => exact Nat.le_refl 0
  | cons c x => exact Nat.le_trans (ite_le_one _) (Nat.le_add_left 1 x.length)

/-- How far a symbol reaches behind its colon, without a mark. -/
def symbolLength (x : Text) : Nat :=
  run (fun c => c == '@' || c == '$') x +
    run isNameChar (x.drop (run (fun c => c == '@' || c == '$') x))

/-- No blank is a sigil. -/
theorem solid_sigils : Solid fun c => c == '@' || c == '$' := solid_of_blanks (by decide)

/-- A symbol ends before a stop. -/
theorem symbolLength_append (x : Text) (hs : Stops s) : symbolLength (x ++ s) = symbolLength x := by
  unfold symbolLength
  rw [drop_append_run solid_sigils x hs, run_append x (solid_sigils.head hs),
    run_append _ (solid_isNameChar.head hs)]

/-- A symbol is not longer than the text. -/
theorem symbolLength_le (x : Text) : symbolLength x ≤ x.length := by
  have h1 := run_le (fun c => c == '@' || c == '$') x
  have h2 := run_le isNameChar (x.drop (run (fun c => c == '@' || c == '$') x))
  rw [List.length_drop] at h2
  unfold symbolLength
  omega

theorem colon_cons (m : Memory) (c : Char) (r : Text) : colon m (c :: r) =
    if c == ':' then .token .punct 1
    else if c == '"' then .delimited 1 ⟨'"', none, true⟩ false
    else if c == '\'' then .delimited 1 ⟨'\'', none, false⟩ false
    else if isNameStart c || c == '@' || c == '$' then
      .token .literal
        (symbolLength (c :: r) + symbolMark ((c :: r).drop (symbolLength (c :: r))))
    else if m.afterValue then .token .punct 0
    else
      match operatorLength? methodOperators (c :: r) with
      | some n => .token .literal n
      | none => .token .punct 0 := rfl

/-- What a colon starts does not depend on what follows the stop. -/
theorem colon_append (m : Memory) (x : Text) (hs : Stops s) : colon m (x ++ s) = colon m x := by
  cases x with
  | nil =>
    cases s with
    | nil => rfl
    | cons c s =>
      -- a lone colon is an operator, for a blank starts no symbol
      have none : operatorLength? methodOperators (c :: s) = none :=
        (operatorLength?_append solid_methodOperators [] hs).trans rfl
      have hc := hs c rfl
      have h1 : (c == ':') = false := solid_beq (by decide) c hc
      have h2 : (c == '"') = false := solid_beq (by decide) c hc
      have h3 : (c == '\'') = false := solid_beq (by decide) c hc
      have h4 : (c == '@') = false := solid_beq (by decide) c hc
      have h5 : (c == '$') = false := solid_beq (by decide) c hc
      show colon m (c :: s) = .token .punct 0
      rw [colon_cons, none, h1, h2, h3, h4, h5, solid_isNameStart c hc]
      simp
  | cons c x =>
    have within := symbolLength_le (c :: x)
    have length := symbolLength_append (c :: x) hs
    have mark : symbolMark ((c :: x ++ s).drop (symbolLength (c :: x))) =
        symbolMark ((c :: x).drop (symbolLength (c :: x))) := by
      rw [List.drop_append_of_le_length within, symbolMark_append _ hs]
    have op := operatorLength?_append solid_methodOperators (c :: x) hs
    rw [List.cons_append] at length mark op ⊢
    rw [colon_cons, colon_cons, length, mark, op]

/-! ## Literals with a choice of delimiter, and here-documents -/

/-- Whether a literal may stand here does not depend on what follows the stop. -/
theorem literalPosition_append (m : Memory) (spaced : Bool) (x : Text) (hs : Stops s) :
    m.literalPosition spaced (x ++ s).head? = m.literalPosition spaced x.head? := by
  cases x with
  | nil =>
    cases s with
    | nil => rfl
    | cons c s =>
      show m.literalPosition spaced (some c) = m.literalPosition spaced none
      unfold Memory.literalPosition
      dsimp only
      rw [hs c rfl]
      rfl
  | cons c x => rfl

theorem solid_isPercentKind : Solid isPercentKind := solid_of_blanks (by decide)

theorem solid_isPercentDelimiter : Solid isPercentDelimiter := solid_of_blanks (by decide)

/-- A stop does not change whether a percent literal is ahead. -/
theorem percentAhead_append (x : Text) (hs : Stops s) : percentAhead (x ++ s) = percentAhead x := by
  cases x with
  | nil =>
    cases s with
    | nil => rfl
    | cons c s =>
      show percentAhead (c :: s) = false
      have hc := hs c rfl
      unfold percentAhead
      simp only [solid_isPercentKind c hc, solid_isPercentDelimiter c hc]
      rfl
  | cons c x =>
    cases x with
    | nil =>
      cases s with
      | nil => rfl
      | cons d s =>
        show percentAhead (c :: d :: s) = percentAhead [c]
        unfold percentAhead
        simp only [solid_isPercentDelimiter d (hs d rfl)]
    | cons d x => rfl

/-- A percent literal that is opened on its line is opened whatever follows. -/
theorem percent_append {x : Text} (h : percentAhead x) (s : Text) :
    percent (x ++ s) = percent x := by
  cases x with
  | nil => cases h
  | cons c x =>
    cases x with
    | nil =>
      cases hk : isPercentKind c with
      | true => simp [percentAhead, hk] at h
      | false =>
        show percent (c :: s) = percent [c]
        unfold percent
        simp only [hk]
        rfl
    | cons d x => rfl

/-- What follows the dash or the tilde of a here-document. -/
def heredocName (x : Text) : Text :=
  match x with
  | '~' :: r => r
  | '-' :: r => r
  | r => r

/-- The sign before the name of a here-document is skipped in the line, and the stop follows. -/
theorem heredocName_append (x : Text) (hs : Stops s) :
    heredocName (x ++ s) = heredocName x ++ s := by
  cases x with
  | nil =>
    cases s with
    | nil => rfl
    | cons c s => rcases isAsciiBlank_cases (hs c rfl) with rfl | rfl | rfl | rfl | rfl <;> rfl
  | cons c x =>
    by_cases h1 : c = '~'
    · subst h1; rfl
    · by_cases h2 : c = '-'
      · subst h2; rfl
      · simp [heredocName, h1, h2]

/-- A character that can start the name of a here-document. -/
def startsHeredoc (c : Char) : Bool := isNameStart c || c == '"' || c == '\'' || c == '`'

/-- No blank starts the name of a here-document. -/
theorem solid_startsHeredoc : Solid startsHeredoc := solid_of_blanks (by decide)

/-- When a here-document is ahead. -/
theorem heredocAhead_eq (m : Memory) (spaced : Bool) (x : Text) : heredocAhead m spaced x =
    (m.lastKeyword != some .classWord && (heredocName x).head?.any startsHeredoc &&
      m.literalPosition spaced x.head?) := by
  unfold heredocAhead
  dsimp only
  congr 2
  split
  · next c r h =>
    rw [show heredocName x = c :: r from h]
    rfl
  · next h =>
    rw [show heredocName x = [] from h]
    rfl

/-- A stop does not change whether a here-document is ahead. -/
theorem heredocAhead_append (m : Memory) (spaced : Bool) (x : Text) (hs : Stops s) :
    heredocAhead m spaced (x ++ s) = heredocAhead m spaced x := by
  rw [heredocAhead_eq, heredocAhead_eq, heredocName_append x hs,
    head?_append_stops solid_startsHeredoc _ hs, literalPosition_append m spaced x hs]

/-- The name of a here-document is read the same before texts that are alike for an open quote. -/
theorem heredocName?_append {name : Text} (visible : name ≠ [])
    (h : Alike (heredocName? name).isNone s t) :
    heredocName? (name ++ s) = heredocName? (name ++ t) := by
  obtain ⟨c, r, rfl⟩ := List.exists_cons_of_ne_nil visible
  by_cases hq : c == '"' || c == '\'' || c == '`'
  · have quoted : ∀ u : Text, heredocName? (c :: u) =
        if u[(u.takeWhile fun x => x != '\n' && x != c).length]? == some c then
          some (u.takeWhile fun x => x != '\n' && x != c,
            (u.takeWhile fun x => x != '\n' && x != c).length + 2)
        else none := fun u => if_pos hq
    rw [List.cons_append, List.cons_append, quoted, quoted]
    have hle : (r.takeWhile fun x => x != '\n' && x != c).length ≤ r.length :=
      (List.takeWhile_sublist _).length_le
    -- the quote is closed in the code, or both texts end the line
    rcases h.lineFeed with closed | ⟨a, b, rfl, rfl⟩
    · rw [quoted] at closed
      have hlt : (r.takeWhile fun x => x != '\n' && x != c).length < r.length := by
        split at closed
        · next hq =>
          rw [beq_iff_eq] at hq
          exact (List.getElem?_eq_some_iff.1 hq).1
        · cases closed
      have same : ∀ u : Text, ((r ++ u).takeWhile fun x => x != '\n' && x != c) =
          r.takeWhile fun x => x != '\n' && x != c := fun u => by
        rw [List.takeWhile_append, if_neg (Nat.ne_of_lt hlt)]
      rw [same, same, List.getElem?_append_left hlt, List.getElem?_append_left hlt]
    · have same : ∀ u : Text, ((r ++ '\n' :: u).takeWhile fun x => x != '\n' && x != c) =
          r.takeWhile fun x => x != '\n' && x != c := fun u => takeWhile_append_head r rfl
      rw [same, same]
      rcases Nat.lt_or_eq_of_le hle with hlt | heq
      · rw [List.getElem?_append_left hlt, List.getElem?_append_left hlt]
      · rw [heq, List.getElem?_append_right (Nat.le_refl _),
          List.getElem?_append_right (Nat.le_refl _), Nat.sub_self]
        rfl
  · have plain : ∀ {u : Text}, Stops u → heredocName? (c :: (r ++ u)) =
        some ((c :: r).takeWhile isNameChar, ((c :: r).takeWhile isNameChar).length) := by
      intro u hu
      rw [← takeWhile_append_head (c :: r) (solid_isNameChar.head hu)]
      exact if_neg hq
    exact (plain h.left).trans (plain h.right).symm

/-- The opener of a here-document is told by the name that is read. -/
theorem heredocOpener_eq (x : Text) : heredocOpener x =
    match heredocName? (heredocName x) with
    | some (id, length) =>
      .heredoc (1 + (if x.head? == some '~' || x.head? == some '-' then 1 else 0) + length) id
        (x.head? == some '~' || x.head? == some '-')
    | none => .brokenHeredoc := by
  cases x with
  | nil => rfl
  | cons c x =>
    by_cases h1 : c = '~'
    · subst h1; rfl
    · by_cases h2 : c = '-'
      · subst h2; rfl
      · have name : heredocName (c :: x) = c :: x := by simp [heredocName, h1, h2]
        have opener : heredocOpener (c :: x) =
            match heredocName? (c :: x) with
            | some (id, length) => .heredoc (1 + length) id false
            | none => .brokenHeredoc := by
          cases h : heredocName? (c :: x) <;> simp [heredocOpener, h1, h2, h]
        have plain : ((c :: x).head? == some '~' || (c :: x).head? == some '-') = false := by
          simp [h1, h2]
        rw [name, opener, plain]
        cases heredocName? (c :: x) <;> rfl

/-- The quoted name of a here-document is not closed. -/
def openHeredoc (x : Text) : Bool := (heredocName? (heredocName x)).isNone

/-- The opener of a here-document is read the same before texts that are alike for an open one. -/
theorem heredocOpener_append {x : Text} (ahead : (heredocName x).head?.any startsHeredoc)
    (h : Alike (openHeredoc x) s t) : heredocOpener (x ++ s) = heredocOpener (x ++ t) := by
  have visible : heredocName x ≠ [] := fun h => by rw [h] at ahead; cases ahead
  have first : ∀ u : Text, (x ++ u).head? = x.head? := by
    intro u
    cases x with
    | nil => exact absurd rfl visible
    | cons c x => rfl
  rw [heredocOpener_eq, heredocOpener_eq, heredocName_append x h.left, heredocName_append x h.right,
    heredocName?_append visible h, first, first]

/-! ## All lexemes -/

/-- An operator ends before a stop. -/
theorem operator_append (c : Char) (x : Text) (hs : Stops s) :
    operator c (x ++ s) = operator c x := by
  unfold operator
  rw [← List.cons_append, operatorLength?_append solid_operators (c :: x) hs]

/-- The code ends in a hinge: what it is depends on what follows it. -/
def hinges (m : Memory) : Text → Bool
  | [] => false
  | c :: x =>
    if isNameStart c then if m.namesMethod then openSetter x else openLabel m x
    else if c == '$' then x == ['-']
    else c == '?' && !m.afterValue && openChar x

theorem hinges_cons (m : Memory) (c : Char) (x : Text) : hinges m (c :: x) =
    if isNameStart c then if m.namesMethod then openSetter x else openLabel m x
    else if c == '$' then x == ['-']
    else c == '?' && !m.afterValue && openChar x := rfl

/-- The name of a here-document that the code opens is not closed. -/
def opensHeredoc (m : Memory) (spaced : Bool) : Text → Bool
  | '<' :: '<' :: after => heredocAhead m spaced after && openHeredoc after
  | _ => false

/-- The opener of a here-document, or else an operator. -/
def heredocOrOperator (m : Memory) (spaced : Bool) (c : Char) (r : Text) : Lexeme :=
  match c, r with
  | '<', '<' :: after => if heredocAhead m spaced after then heredocOpener after else operator c r
  | _, _ => operator c r

/-- Without two angle brackets there is only an operator. -/
theorem heredocOrOperator_of_ne {m : Memory} {spaced : Bool} {c : Char} {r : Text}
    (h : ∀ after, c = '<' → r = '<' :: after → False) :
    heredocOrOperator m spaced c r = operator c r := by
  unfold heredocOrOperator
  split
  · exact (h _ rfl rfl).elim
  · rfl

/-- A here-document or an operator is read the same before texts that are alike for an open
here-document. -/
theorem heredocOrOperator_append {m : Memory} {spaced : Bool} {c : Char} {x : Text}
    (h : Alike (opensHeredoc m spaced (c :: x)) s t) :
    heredocOrOperator m spaced c (x ++ s) = heredocOrOperator m spaced c (x ++ t) := by
  have op := (operator_append c x h.left).trans (operator_append c x h.right).symm
  -- only `<<` may open a document
  by_cases hc : c = '<' ∧ x.head? = some '<'
  · obtain ⟨rfl, hx⟩ := hc
    obtain ⟨after, rfl⟩ := List.head?_eq_some_iff.1 hx
    show (if heredocAhead m spaced (after ++ s) then heredocOpener (after ++ s) else _) =
      if heredocAhead m spaced (after ++ t) then heredocOpener (after ++ t) else _
    rw [heredocAhead_append m spaced after h.left, heredocAhead_append m spaced after h.right, op]
    split
    · next ahead =>
      refine heredocOpener_append ?_ (h.of_imp fun hopen => ?_)
      · rw [heredocAhead_eq, Bool.and_eq_true, Bool.and_eq_true] at ahead
        exact ahead.1.2
      · show (heredocAhead m spaced after && openHeredoc after) = true
        rw [ahead, hopen]
        rfl
    · rfl
  · have plain : ∀ {u : Text}, Stops u → ∀ r, c = '<' → x ++ u = '<' :: r → False := by
      intro u hu r h1 h2
      obtain ⟨z, rfl, -⟩ := hu.eq_cons (by decide) h2
      exact hc ⟨h1, rfl⟩
    rw [heredocOrOperator_of_ne (plain h.left), heredocOrOperator_of_ne (plain h.right), op]

/-- What a lexeme is does not depend on the blanks behind the code, unless the code ends in a
hinge. -/
theorem read_append {m : Memory} {spaced : Bool} {c : Char} {x : Text}
    (code : Text.isAsciiBlank c = false) (uncommented : c ≠ '#') (hx : '\n' ∉ x)
    (unnamed : m.namesMethod = false)
    (h : Alike (hinges m (c :: x) || opensHeredoc m spaced (c :: x)) s t) :
    read m spaced c (x ++ s) = read m spaced c (x ++ t) := by
  have hinge : Alike (if isNameStart c then if m.namesMethod then openSetter x else openLabel m x
      else if c == '$' then x == ['-'] else c == '?' && !m.afterValue && openChar x) s t :=
    h.of_imp fun h => Bool.or_eq_true_iff.2 (.inl h)
  have heredoc : Alike (opensHeredoc m spaced (c :: x)) s t := h.of_imp fun h => by
    rw [h, Bool.or_true]
  -- first what is asked of the text in several cases, then the cases of `read` in its order
  unfold read
  rw [literalPosition_append m spaced x h.left, literalPosition_append m spaced x h.right,
    percentAhead_append x h.left, percentAhead_append x h.right,
    charLiteralAhead_append x h.left, charLiteralAhead_append x h.right]
  by_cases h1 : (c == '\n') = true
  · rw [if_pos h1, if_pos h1]
  rw [if_neg h1, if_neg h1, if_neg (mt beq_iff_eq.1 uncommented),
    if_neg (mt beq_iff_eq.1 uncommented)]
  by_cases h2 : (c == ';') = true
  · rw [if_pos h2, if_pos h2]
  rw [if_neg h2, if_neg h2]
  by_cases h3 : (c == '"' || c == '`') = true
  · rw [if_pos h3, if_pos h3]
  rw [if_neg h3, if_neg h3]
  by_cases h4 : (c == '\'') = true
  · rw [if_pos h4, if_pos h4]
  rw [if_neg h4, if_neg h4]
  by_cases h5 : (c == ':') = true
  · rw [if_pos h5, if_pos h5]
    exact (colon_append m x h.left).trans (colon_append m x h.right).symm
  rw [if_neg h5, if_neg h5]
  by_cases h6 : (c == '@') = true
  · rw [if_pos h6, if_pos h6]
    exact (memberVar_append x h.left).trans (memberVar_append x h.right).symm
  rw [if_neg h6, if_neg h6]
  by_cases h7 : (c == '$') = true
  · rw [if_pos h7, if_pos h7]
    refine globalVar_append (hinge.of_imp fun hx => ?_)
    rw [beq_iff_eq] at h7
    rw [h7, hx]
    rfl
  rw [if_neg h7, if_neg h7]
  by_cases h8 : c.isDigit = true
  · rw [if_pos h8, if_pos h8, numberLength_append false x h.left,
      numberLength_append false x h.right]
  rw [if_neg h8, if_neg h8]
  by_cases h9 : isNameStart c = true
  · rw [if_pos h9, if_pos h9]
    refine word_append h9 (hinge.of_imp fun hx => ?_)
    rw [if_pos h9, unnamed, if_neg Bool.false_ne_true]
    exact hx
  rw [if_neg h9, if_neg h9]
  by_cases h10 : (c == '%' && m.literalPosition spaced x.head? && percentAhead x) = true
  · rw [if_pos h10, if_pos h10]
    rw [Bool.and_eq_true] at h10
    rw [percent_append h10.2, percent_append h10.2]
  rw [if_neg h10, if_neg h10]
  by_cases h11 : (c == '/' && m.literalPosition spaced x.head?) = true
  · rw [if_pos h11, if_pos h11]
  rw [if_neg h11, if_neg h11]
  by_cases h12 : (c == '?' && !m.afterValue && charLiteralAhead x) = true
  · rw [if_pos h12, if_pos h12]
    rw [Bool.and_eq_true, Bool.and_eq_true, beq_iff_eq] at h12
    obtain ⟨⟨rfl, hv⟩, ahead⟩ := h12
    refine charLiteral_append hx (fun hnil => ?_) (hinge.of_imp fun hx => ?_)
    · rw [hnil] at ahead
      cases ahead
    · show (true && !m.afterValue && openChar x) = true
      rw [hv, hx]
      rfl
  rw [if_neg h12, if_neg h12]
  exact heredocOrOperator_append heredoc

end Lexeme

end Marginalia.Source
