import Marginalia.Proofs.Source.Insertion

/-!
# Hinges

The code that is read otherwise when a blank follows it instead of the end of the line: the key
`name?:`, the setter `name=` behind `def`, the variable `$-`, and a character literal with an open
escape. Where one of these ends a line, its token is another one in a program that goes on with a
blank (`tokens_of_hinge`).
-/

namespace Marginalia.Source

/-- The end of a line, or the carriage return before it, follows. -/
def LineStops (p : Text) : Prop := ∃ d a, p = d :: a ∧ (d = '\n' ∨ d = '\r')

/-- The end of a line is a stop. -/
theorem LineStops.stops {p : Text} (hp : LineStops p) : Stops p := by
  obtain ⟨d, a, rfl, rfl | rfl⟩ := hp
  · exact stops_cons (by decide) a
  · exact stops_cons (by decide) a

/-- A space is a stop. -/
theorem stops_of_space {q : Text} (hq : q.head? = some ' ') : Stops q := fun c hc => by
  rw [hq] at hc
  rw [← Option.some.inj hc]
  decide

/-- What is taken before different characters differs, if it goes as far as these. -/
theorem take_ne {y p q : Text} {n k : Nat} {d : Char} (hk : y.length < k) (hq : q.head? = some d)
    (hp : p.head? ≠ some d) : (y ++ p).take n ≠ (y ++ q).take k := by
  intro h
  have last := congrArg (·[y.length]?) h
  rw [List.getElem?_take, List.getElem?_take, if_pos hk, List.getElem?_append_right (Nat.le_refl _),
    List.getElem?_append_right (Nat.le_refl _), Nat.sub_self, ← List.head?_eq_getElem?,
    ← List.head?_eq_getElem?, hq] at last
  split at last
  · exact hp last
  · cases last

namespace Lexeme

variable {m : Memory} {spaced : Bool} {c : Char} {r x p q : Text}

/-! ## Names -/

/-- What starts a name is no digit. -/
theorem isDigit_of_isNameStart (h : isNameStart c) : c.isDigit = false := by
  rw [Bool.eq_false_iff]
  intro digit
  delta isNameStart isWide Char.isAlpha Char.isUpper Char.isLower at h
  delta Char.isDigit at digit
  simp only [Bool.or_eq_true, Bool.and_eq_true, decide_eq_true_eq, beq_iff_eq,
    UInt32.le_iff_toNat_le, ge_iff_le] at h digit
  have value : c.toNat = c.val.toNat := rfl
  have nine : '9'.val.toNat = 57 := rfl
  have upper : 'A'.val.toNat = 65 := rfl
  have lower : 'a'.val.toNat = 97 := rfl
  rcases h with ((h | h) | rfl) | h
  · omega
  · omega
  · exact absurd digit.2 (by decide)
  · omega

/-- What starts a name is read as a word. -/
theorem read_of_nameStart (h : isNameStart c) : read m spaced c r = word m c r := by
  have other : ∀ d ∈ ['\n', '#', ';', '"', '`', '\'', ':', '@', '$'], ¬ (c == d) = true := by
    intro d hd heq
    have none : ['\n', '#', ';', '"', '`', '\'', ':', '@', '$'].all fun d => !isNameStart d := by
      decide
    have starts := List.all_eq_true.1 none d hd
    rw [← beq_iff_eq.1 heq, h] at starts
    cases starts
  have quotes : ¬ (c == '"' || c == '`') = true := by
    rw [Bool.or_eq_true, not_or]
    exact ⟨other _ (by decide), other _ (by decide)⟩
  unfold read
  rw [if_neg (other _ (by decide)), if_neg (other _ (by decide)), if_neg (other _ (by decide)),
    if_neg quotes, if_neg (other _ (by decide)), if_neg (other _ (by decide)),
    if_neg (other _ (by decide)), if_neg (other _ (by decide)),
    if_neg (by rw [isDigit_of_isNameStart h]; exact Bool.false_ne_true), if_pos h]

/-- Behind `name?` a colon makes a key only before a blank. -/
theorem word_of_openLabel (hinge : openLabel m x) (hp : LineStops p)
    (hq : q.head? = some ' ') : (∃ kind, word m c (x ++ p) = .token kind (wordLength x) ∧
      kind ≠ .newline ∧ kind ≠ .label) ∧ word m c (x ++ q) = .token .label (wordLength x + 1) := by
  unfold openLabel at hinge
  rw [Bool.and_eq_true, Bool.not_eq_true', beq_iff_eq, ← drop_run] at hinge
  obtain ⟨noDot, tail⟩ := hinge
  -- the name and its question mark fill the line up to a lone colon
  have within := wordLength_le x
  have length : wordLength x = run isNameChar x + 1 := by
    unfold wordLength
    rw [tail]
    rfl
  have colon : x.drop (wordLength x) = [':'] := by
    rw [length, ← List.drop_drop, tail]
    rfl
  have name : (c :: x.take (wordLength x)).getLast? = some '?' := by
    rw [length, List.take_add, tail, ← List.cons_append]
    exact List.getLast?_concat
  rw [word_eq, word_eq, wordLength_append x (stops_of_space hq), wordLength_append x hp.stops,
    List.take_append_of_le_length within, List.take_append_of_le_length within,
    List.drop_append_of_le_length within, List.drop_append_of_le_length within, colon]
  unfold wordBefore
  rw [noDot]
  constructor
  · have plain : labelColon (c :: x.take (wordLength x)) ([':'] ++ p) = false := by
      obtain ⟨d, a, rfl, hd⟩ := hp
      show ((d :: a).head? != some ':' && (_ != some '?' || (d :: a).head? == some ' ')) = false
      rw [name]
      rcases hd with rfl | rfl <;> rfl
    rw [plain, Bool.not_false, Bool.and_false, if_neg Bool.false_ne_true]
    split
    · exact ⟨_, rfl, nofun, nofun⟩
    · refine ⟨_, rfl, ?_⟩
      split
      · exact ⟨nofun, nofun⟩
      · exact ⟨nofun, nofun⟩
  · have label : labelColon (c :: x.take (wordLength x)) ([':'] ++ q) = true := by
      show (q.head? != some ':' && (_ || q.head? == some ' ')) = true
      rw [hq, show (some ' ' == some ' ') = true from rfl, Bool.or_true]
      rfl
    rw [label]
    rfl

/-- Behind the name of a method `=` makes a setter only where no blank follows. -/
theorem methodName?_of_openSetter (hc : isNameStart c) (hinge : openSetter x) (hp : LineStops p)
    (hq : q.head? = some ' ') :
    methodName? c (x ++ p) = some (.methodName, x.length, false) ∧
      methodName? c (x ++ q) = some (.methodName, x.length - 1, false) := by
  unfold openSetter at hinge
  rw [beq_iff_eq, ← drop_run] at hinge
  have length : x.length = run isNameChar x + 1 := by
    have count := congrArg List.length hinge
    have le := run_le isNameChar x
    rw [List.length_drop, List.length_singleton] at count
    omega
  -- the equals sign is part of the name only with a line feed right behind it
  have marked : methodMark ('=' :: p) = 1 := by
    obtain ⟨d, a, rfl, rfl | rfl⟩ := hp <;> rfl
  have unmarked : methodMark ('=' :: q) = 0 := by
    obtain ⟨a, rfl⟩ := List.head?_eq_some_iff.1 hq
    rfl
  have name : ∀ {s : Text}, Stops s →
      methodName? c (x ++ s) =
        some (.methodName, run isNameChar x + methodMark ('=' :: s), false) := by
    intro s hs
    unfold methodName?
    rw [if_pos hc]
    dsimp only
    rw [drop_append_run solid_isNameChar x hs, run_append x (solid_isNameChar.head hs), hinge]
    rfl
  rw [name hp.stops, name (stops_of_space hq), marked, unmarked, length]
  exact ⟨rfl, rfl⟩

/-! ## Variables and characters -/

/-- Behind `$-` a blank is taken as part of the variable, whichever it is. -/
theorem globalVar_of_dash (hp : LineStops p) (hq : q.head? = some ' ') :
    globalVar (['-'] ++ p) = .token .var 2 ∧ globalVar (['-'] ++ q) = .token .var 2 := by
  obtain ⟨a, rfl⟩ := List.head?_eq_some_iff.1 hq
  obtain ⟨d, b, rfl, rfl | rfl⟩ := hp
  · exact ⟨rfl, rfl⟩
  · exact ⟨rfl, rfl⟩

/-- An open escape takes a blank that follows. -/
theorem lt_escapeLength_of_openEscape (hinge : openEscape x) (hx : '\n' ∉ x)
    (hq : q.head? = some ' ') :
    x.length < escapeLength (x ++ q) := by
  obtain ⟨a, rfl⟩ := List.head?_eq_some_iff.1 hq
  fun_induction openEscape x with
  | case1 => exact Nat.zero_lt_one
  | case2 =>
    show 2 < 2 + min 1 (a.length + 1)
    omega
  | case3 =>
    show 2 < 2 + min 1 (a.length + 1)
    omega
  | case4 r ih =>
    have hr : '\n' ∉ r := fun h => hx (by simp [h])
    have := ih hinge hr
    show r.length + 3 < 3 + escapeLength (r ++ ' ' :: a)
    omega
  | case5 r ih =>
    have hr : '\n' ∉ r := fun h => hx (by simp [h])
    have := ih hinge hr
    show r.length + 3 < 3 + escapeLength (r ++ ' ' :: a)
    omega
  | case6 r =>
    -- the escape goes on to a brace behind the blank
    have hr : '\n' ∉ r := fun h => hx (by simp [h])
    have pass : ∀ d ∈ r ++ [' '], (d != '}' && d != '\n') = true := by
      intro d hd
      rw [Bool.and_eq_true, bne_iff_ne, bne_iff_ne]
      rcases List.mem_append.1 hd with hd | hd
      · rw [Bool.not_eq_true', List.contains_eq_mem, decide_eq_false_iff_not] at hinge
        exact ⟨fun h => hinge (h ▸ hd), fun h => hr (h ▸ hd)⟩
      · rw [List.mem_singleton.1 hd]
        decide
    have inside : r.length + 1 ≤ run (fun d => d != '}' && d != '\n') (r ++ ' ' :: a) := by
      unfold run
      rw [List.append_cons, List.takeWhile_append_of_pos pass, List.length_append,
        List.length_append, List.length_singleton]
      omega
    rw [List.cons_append, List.cons_append, escapeLength, List.length_cons, List.length_cons]
    omega
  | case7 => cases hinge

/-- Behind an open character literal a space is taken as part of it. -/
theorem charLiteral_of_openChar (hinge : openChar x) (hx : '\n' ∉ x) (hq : q.head? = some ' ') :
    (∃ n, charLiteral (x ++ p) = .token .literal n) ∧
      ∃ n, charLiteral (x ++ q) = .token .literal n ∧ x.length < n := by
  unfold openChar at hinge
  split at hinge
  · next r =>
    have hr : '\n' ∉ r := fun h => hx (List.mem_cons_of_mem _ h)
    have lt := lt_escapeLength_of_openEscape hinge hr hq
    refine ⟨⟨1 + escapeLength (r ++ p), rfl⟩, 1 + escapeLength (r ++ q), rfl, ?_⟩
    rw [List.length_cons]
    omega
  · cases hinge

/-- An open character literal is ahead, whatever follows. -/
theorem charLiteralAhead_of_openChar (hinge : openChar x) : charLiteralAhead (x ++ p) := by
  unfold openChar at hinge
  split at hinge
  · rfl
  · cases hinge

/-! ## Hinges -/

/-- A hinge starts with a name, a dollar sign or a question mark. -/
theorem first_of_hinges (hinge : hinges m (c :: x)) : isNameStart c ∨ c = '$' ∨ c = '?' := by
  rw [hinges_cons] at hinge
  by_cases name : isNameStart c
  · exact .inl name
  · rw [if_neg name] at hinge
    split at hinge
    · next dollar => exact .inr (.inl (beq_iff_eq.1 dollar))
    · rw [Bool.and_eq_true, Bool.and_eq_true, beq_iff_eq] at hinge
      exact .inr (.inr hinge.1.1)

/-- A hinge starts with code. -/
theorem code_of_hinges (hinge : hinges m (c :: x)) :
    Text.isAsciiBlank c = false ∧ c ≠ '=' ∧ c ≠ '\\' := by
  rcases first_of_hinges hinge with name | rfl | rfl
  · refine ⟨?_, ?_, ?_⟩
    · rw [Bool.eq_false_iff]
      intro blank
      rw [solid_isNameStart c blank] at name
      cases name
    · rintro rfl
      exact absurd name (by decide)
    · rintro rfl
      exact absurd name (by decide)
  · decide
  · decide

/-- An open escape has no brace. -/
theorem brace_notMem_of_openEscape (hinge : openEscape x) : '}' ∉ x := by
  fun_induction openEscape x with
  | case1 => exact List.not_mem_nil
  | case2 => decide
  | case3 => decide
  | case4 r ih =>
    intro h
    simp only [List.mem_cons] at h
    rcases h with h | h | h | h
    · cases h
    · cases h
    · cases h
    · exact ih hinge h
  | case5 r ih =>
    intro h
    simp only [List.mem_cons] at h
    rcases h with h | h | h | h
    · cases h
    · cases h
    · cases h
    · exact ih hinge h
  | case6 r =>
    rw [Bool.not_eq_true', List.contains_eq_mem, decide_eq_false_iff_not] at hinge
    intro h
    simp only [List.mem_cons] at h
    rcases h with h | h | h
    · cases h
    · cases h
    · exact hinge h
  | case7 => cases hinge

/-- No hinge holds a closing brace. -/
theorem brace_notMem_of_hinges (hinge : hinges m (c :: x)) : '}' ∉ c :: x := by
  have letters : ∀ {tail : Text}, x.dropWhile isNameChar = tail → '}' ∉ tail → '}' ∉ x := by
    intro tail htail none h
    rw [← List.takeWhile_append_dropWhile (p := isNameChar) (l := x), htail] at h
    rcases List.mem_append.1 h with h | h
    · have := List.all_eq_true.1 List.all_takeWhile _ h
      exact absurd this (by decide)
    · exact none h
  rw [List.mem_cons, not_or]
  -- a name or label, the variable `$-`, or a character literal
  rcases first_of_hinges hinge with name | rfl | rfl
  · refine ⟨fun h => ?_, ?_⟩
    · rw [← h] at name
      exact absurd name (by decide)
    · rw [hinges_cons, if_pos name] at hinge
      split at hinge
      · exact letters (beq_iff_eq.1 hinge) (by decide)
      · unfold openLabel at hinge
        rw [Bool.and_eq_true, beq_iff_eq] at hinge
        exact letters hinge.2 (by decide)
  · have dash : x = ['-'] := beq_iff_eq.1 hinge
    rw [dash]
    decide
  · refine ⟨by decide, ?_⟩
    have char : (true && !m.afterValue && openChar x) = true := hinge
    rw [Bool.and_eq_true] at char
    have char := char.2
    unfold openChar at char
    split at char
    · rw [List.mem_cons, not_or]
      exact ⟨by decide, brace_notMem_of_openEscape char⟩
    · cases char

/-- What follows a hinge decides which token it is. -/
theorem read_of_hinges (spaced spaced' : Bool) (unnamed : m.namesMethod = false)
    (hinge : hinges m (c :: x)) (hx : '\n' ∉ c :: x)
    (hp : LineStops p) (hq : q.head? = some ' ') :
    ∃ kind n kind' n', read m spaced c (x ++ p) = .token kind n ∧
      read m spaced' c (x ++ q) = .token kind' n' ∧ kind ≠ .newline ∧
      (kind ≠ kind' ∨ (c :: (x ++ p)).take (n + 1) ≠ (c :: (x ++ q)).take (n' + 1)) := by
  have head : p.head? ≠ some ' ' := by
    obtain ⟨d, a, rfl, rfl | rfl⟩ := hp <;> exact fun h => absurd (Option.some.inj h) (by decide)
  have other : ∀ {n k : Nat}, x.length < k →
      (c :: (x ++ p)).take (n + 1) ≠ (c :: (x ++ q)).take (k + 1) := fun hk =>
    take_ne (y := c :: x) (Nat.succ_lt_succ hk) hq head
  -- a name may become a key; the other two kinds take the blank that stands in the second text
  -- alone
  rcases first_of_hinges hinge with name | rfl | rfl
  · rw [hinges_cons, if_pos name, unnamed, if_neg Bool.false_ne_true] at hinge
    obtain ⟨⟨kind, left, newline, label⟩, right⟩ := word_of_openLabel hinge hp hq
    rw [read_of_nameStart name, read_of_nameStart name, left, right]
    exact ⟨_, _, _, _, rfl, rfl, newline, .inl label⟩
  · obtain rfl : x = ['-'] := beq_iff_eq.1 hinge
    obtain ⟨left, right⟩ := globalVar_of_dash hp hq
    exact ⟨.var, 2, .var, 2, left, right, nofun, .inr (other (by decide))⟩
  · have char : (true && !m.afterValue && openChar x) = true := hinge
    rw [Bool.and_eq_true, Bool.and_eq_true, Bool.not_eq_true'] at char
    obtain ⟨⟨-, value⟩, char⟩ := char
    have ahead : ∀ s : Text, ('?' == '?' && !m.afterValue && charLiteralAhead (x ++ s)) = true := by
      intro s
      rw [value, charLiteralAhead_of_openChar char]
      rfl
    have read_eq : ∀ (spaced : Bool) (s : Text),
        read m spaced '?' (x ++ s) = charLiteral (x ++ s) := fun _ s => if_pos (ahead s)
    rw [List.mem_cons, not_or] at hx
    obtain ⟨⟨n, left⟩, k, right, lt⟩ := charLiteral_of_openChar (p := p) char hx.2 hq
    rw [read_eq, read_eq, left, right]
    exact ⟨_, _, _, _, rfl, rfl, nofun, .inr (other lt)⟩

end Lexeme

namespace Tokenizer

variable {s t u : Tokenizer} {c : Char} {x y p q : Text}

/-! ## Words at the end of a line -/

/-- A word without blanks is visible. -/
theorem visible_of_any {w : Text} (h : w.any Text.isAsciiBlank = false) :
    ∀ c ∈ w, Text.isAsciiBlank c = false := fun c hc =>
  Bool.eq_false_iff.2 (List.any_eq_false.1 h c hc)

/-- A word without blanks does not reach into the blanks that follow some code. -/
theorem wordAhead_blanks {w y s : Text} {ends : Text → Bool}
    (hw : ∀ c ∈ w, Text.isAsciiBlank c = false) (hs : Stops s) :
    (List.isPrefixOf? w (y ++ s)).any ends = (List.isPrefixOf? w y).any fun z => ends (z ++ s) := by
  induction w generalizing y with
  | nil => rfl
  | cons d w ih =>
    have others := fun c hc => hw c (List.mem_cons_of_mem d hc)
    cases y with
    | nil =>
      cases s with
      | nil => rfl
      | cons c s =>
        -- no character of the word is a blank, and so the word ends before the seam
        have hd : d ≠ c := by
          rintro rfl
          have blank := hs d rfl
          rw [hw d List.mem_cons_self] at blank
          cases blank
        show (if d == c then List.isPrefixOf? w s else none).any ends = false
        rw [beq_false_of_ne hd]
        rfl
    | cons c y =>
      rw [List.cons_append, List.isPrefixOf?, List.isPrefixOf?]
      split
      · exact ih others
      · rfl

/-- The end mark is not made of a blank. -/
theorem mark_of_space (hp : LineStops p) (hq : q.head? = some ' ')
    (h : wordAhead "__END__" lineEnds (y ++ q)) : wordAhead "__END__" lineEnds (y ++ p) := by
  have visible : ∀ c ∈ "__END__".toList, Text.isAsciiBlank c = false := visible_of_any (by decide)
  unfold wordAhead at h ⊢
  rw [wordAhead_blanks visible (stops_of_space hq), Option.any_eq_true] at h
  rw [wordAhead_blanks visible hp.stops, Option.any_eq_true]
  obtain ⟨z, hz, ends⟩ := h
  refine ⟨z, hz, ?_⟩
  cases z with
  | nil =>
    obtain ⟨a, rfl⟩ := List.head?_eq_some_iff.1 hq
    cases ends
  | cons d z => exact ends

/-- Whether a document begins depends only on whether what follows the code ends a word. -/
theorem begins_append (hp : Stops p) (hq : Stops q) (same : wordEnds q = wordEnds p) :
    wordAhead "=begin" wordEnds (y ++ q) = wordAhead "=begin" wordEnds (y ++ p) := by
  have visible : ∀ c ∈ "=begin".toList, Text.isAsciiBlank c = false := visible_of_any (by decide)
  have ends : ∀ z : Text, wordEnds (z ++ q) = wordEnds (z ++ p) := by
    intro z
    cases z with
    | nil => exact same
    | cons d z => rfl
  unfold wordAhead
  rw [wordAhead_blanks visible hp, wordAhead_blanks visible hq]
  simp only [ends]

/-- Code that is not the whole word ends the program before either margin, or before none. -/
theorem mark_append (hp : Stops p) (hq : Stops q) (other : y ≠ "__END__".toList)
    (mark : wordAhead "__END__" lineEnds (y ++ q)) : wordAhead "__END__" lineEnds (y ++ p) := by
  have visible : ∀ c ∈ "__END__".toList, Text.isAsciiBlank c = false := visible_of_any (by decide)
  unfold wordAhead at mark ⊢
  rw [wordAhead_blanks visible hq, Option.any_eq_true] at mark
  rw [wordAhead_blanks visible hp, Option.any_eq_true]
  obtain ⟨z, hz, ends⟩ := mark
  refine ⟨z, hz, ?_⟩
  cases z with
  | nil => exact absurd ((List.append_eq_of_isPrefixOf?_eq_some hz).symm.trans
    (List.append_nil _)) other
  | cons d z => exact ends

/-- Behind code that is no hinge, a space may stand for the end of the line. -/
theorem clear_of_space (hp : LineStops p) (hq : q.head? = some ' ') (line : '\n' ∉ y)
    (hinge : Lexeme.hinges s.memory y = false) : s.Clear y p q where
  hinge := hinge
  begins := by
    refine begins_append hp.stops (stops_of_space hq) ?_
    obtain ⟨a, rfl⟩ := List.head?_eq_some_iff.1 hq
    obtain ⟨d, b, rfl, rfl | rfl⟩ := hp <;> rfl
  mark _ := mark_of_space hp hq
  joins := by
    obtain ⟨a, rfl⟩ := List.head?_eq_some_iff.1 hq
    intro w hw joins
    exfalso
    have start := List.isPrefixOf_iff_prefix.1 joins
    -- the line feed of the join stands behind the code, and so does the space
    have front : y ++ [' '] <+: y ++ ' ' :: a := (List.prefix_append_right_inj y).2 ⟨a, rfl⟩
    rcases List.prefix_or_prefix_of_prefix start front with short | long
    · obtain ⟨z, hz⟩ := short
      have mem : '\n' ∈ y ++ [' '] := by
        rw [← hz]
        exact List.mem_append_left z (List.mem_append_right w List.mem_cons_self)
      rcases List.mem_append.1 mem with mem | mem
      · exact line mem
      · exact absurd (List.mem_singleton.1 mem) (by decide)
    · have mem : ' ' ∈ w ++ ['\n'] := long.subset (List.mem_append_right y List.mem_cons_self)
      have none : ∀ w ∈ [['\\'], ['\\', '\r']], ' ' ∉ w ++ ['\n'] := by decide
      exact none w hw mem

/-! ## Tokens of hinges -/

/-- A dollar sign or a question mark names no method. -/
theorem methodName?_of_sigil (hc : c = '$' ∨ c = '?') (r : Text) :
    Lexeme.methodName? c r = none := by
  rcases hc with rfl | rfl
  · exact methodName?_eq_none (by decide) (by decide) (by decide) r
  · exact methodName?_eq_none (by decide) (by decide) (by decide) r

/-- Two steps that find a token each, on the same line. The tokens differ, and the first is no end
of a line. -/
def FindApart (line : Nat) (f g : Step) : Prop := ∃ k l u v,
  f = .next [.token k] u ∧ g = .next [.token l] v ∧ k.line = line ∧ l.line = line ∧
    k.kind ≠ .newline ∧
    k.view ≠ l.view

/-- Two tokens that differ in their kinds or in their characters. -/
theorem findApart_take {kind kind' : TokenKind} {n n' : Nat} (outside : s.suspended = [])
    (outside' : t.suspended = []) (line : t.cursor.line = s.cursor.line) (newline : kind ≠ .newline)
    (differ : kind ≠ kind' ∨ s.cursor.rest.take (n + 1) ≠ t.cursor.rest.take (n' + 1)) :
    FindApart s.cursor.line (s.take kind n) (t.take kind' n') := by
  refine ⟨_, _, _, _, take_of_outside outside kind n, take_of_outside outside' kind' n', rfl, line,
    newline, fun same => ?_⟩
  rcases differ with differ | differ
  · exact differ (congrArg TokenView.kind same)
  · exact differ (congrArg TokenView.text same)

section Hinge

variable (twin : s.Twin (c :: x) p q t) (outside : s.suspended = []) (hp : LineStops p)
  (hq : q.head? = some ' ')

include twin outside hp hq

/-- A name that waits for the `=` of a setter. -/
theorem findApart_of_openSetter (named : s.memory.namesMethod = true) (name : isNameStart c)
    (setter : Lexeme.openSetter x) :
    FindApart s.cursor.line (s.readToken c (x ++ p)) (t.readToken c (x ++ q)) := by
  obtain ⟨hleft, hright⟩ := Lexeme.methodName?_of_openSetter name setter hp hq
  have left : s.cursor.rest = c :: (x ++ p) := twin.cursor.left
  have right : t.cursor.rest = c :: (x ++ q) := twin.cursor.right
  have some : 0 < x.length := by
    refine List.length_pos_iff.2 fun hx => ?_
    rw [hx] at setter
    cases setter
  unfold readToken
  rw [twin.memory, named, if_pos rfl, if_pos rfl, hleft, hright]
  refine findApart_take (s := { s with memory := _ }) (t := { t with memory := _ }) outside
    (twin.outside outside) twin.cursor.line nofun (.inr fun same => ?_)
  have length := congrArg List.length same
  rw [left, right, List.length_take, List.length_take, List.length_cons, List.length_cons,
    List.length_append, List.length_append] at length
  omega

/-- At a hinge the two walks find different tokens. -/
theorem findApart_of_hinge (hinge : Lexeme.hinges s.memory (c :: x)) (line : '\n' ∉ c :: x)
    (free : ¬ (s.memory.namesMethod ∧ isNameStart c)) :
    FindApart s.cursor.line (s.readToken c (x ++ p)) (t.readToken c (x ++ q)) := by
  have first := Lexeme.first_of_hinges hinge
  have noMethod : s.memory.namesMethod → ∀ r, Lexeme.methodName? c r = none := fun named =>
    methodName?_of_sigil (first.resolve_left fun name => free ⟨named, name⟩)
  obtain ⟨spaced, hleft⟩ := readToken_unnamed (s := s) fun named => noMethod named (x ++ p)
  obtain ⟨spaced', hright⟩ := readToken_unnamed (s := t) fun named =>
    noMethod (by rw [← twin.memory]; exact named) (x ++ q)
  -- what may follow a `def` does not matter, for no name is at the hinge
  have hinge' : Lexeme.hinges { s.memory with namesMethod := false } (c :: x) := by
    cases named : s.memory.namesMethod with
    | false =>
      rw [← named]
      exact hinge
    | true =>
      have name : isNameStart c = false := Bool.eq_false_iff.2 fun name => free ⟨named, name⟩
      rw [hinges_unnamed name]
      exact hinge
  obtain ⟨kind, n, kind', n', read, read', newline, differ⟩ :=
    Lexeme.read_of_hinges spaced spaced' rfl hinge' line hp hq
  have memory : t.unnamed.memory = { s.memory with namesMethod := false } := by
    unfold unnamed
    rw [twin.memory]
  rw [← memory] at read'
  rw [hleft, hright]
  unfold readLexeme
  rw [show Lexeme.read (Tokenizer.memory { s.unnamed with spaced := spaced }) spaced c (x ++ p) =
    _ from read,
    show Lexeme.read (Tokenizer.memory { t.unnamed with spaced := spaced' }) spaced' c (x ++ q) =
      _ from read']
  refine findApart_take (s := { s.unnamed with spaced := spaced })
    (t := { t.unnamed with spaced := spaced' })
    outside (twin.outside outside) twin.cursor.line newline ?_
  show kind ≠ kind' ∨ s.cursor.rest.take (n + 1) ≠ t.cursor.rest.take (n' + 1)
  rw [twin.cursor.left, twin.cursor.right]
  exact differ

/-- At a hinge the two programs have different tokens. -/
theorem tokens_of_hinge (hinge : Lexeme.hinges s.memory (c :: x)) (line : '\n' ∉ c :: x)
    (unmarked : s.atEndMark = false) (unmarked' : t.atEndMark = false) :
    FindApart s.cursor.line s.step t.step := by
  have code := Lexeme.code_of_hinges hinge
  rw [step_eq_readToken twin.cursor.left (.inl code.1) code.2.1 code.2.2 unmarked,
    step_eq_readToken twin.cursor.right (.inl code.1) code.2.1 code.2.2 unmarked']
  by_cases method : s.memory.namesMethod ∧ isNameStart c
  · obtain ⟨named, name⟩ := method
    rw [Lexeme.hinges_cons, if_pos name, named] at hinge
    exact findApart_of_openSetter twin outside hp hq named name hinge
  · exact findApart_of_hinge twin outside hp hq hinge line method

end Hinge

/-! ## Walks through hinges -/

/-- The code that is ahead on the line. -/
def codeAhead (s : Tokenizer) : Text :=
  Text.dropEndWhile Text.isAsciiBlank (s.cursor.rest.takeWhile (· != '\n'))

/-- Up to its line feed stands the text of a line. -/
theorem takeWhile_line {y a : Text} (hy : '\n' ∉ y) :
    (y ++ '\n' :: a).takeWhile (· != '\n') = y := by
  have stop : List.takeWhile (· != '\n') ('\n' :: a) = [] := rfl
  rw [List.takeWhile_append_of_pos (bne_lineFeed hy), stop, List.append_nil]

/-- The code that is ahead is what stands before the blanks at the end of the line. -/
theorem codeAhead_eq {u a : Text} (hr : s.cursor.rest = y ++ (u ++ '\n' :: a)) (hy : '\n' ∉ y)
    (visible : ∀ c, y.getLast? = some c → Text.isAsciiBlank c = false ∨ c = '\n') (hu : Blanks u) :
    s.codeAhead = y := by
  have line : '\n' ∉ y ++ u := by
    rw [List.mem_append, not_or]
    exact ⟨hy, hu.notMem (.inr rfl)⟩
  unfold codeAhead
  rw [hr, ← List.append_assoc, takeWhile_line line, Text.dropEndWhile_append_of_all]
  · refine Text.dropEndWhile_of_getLast? fun c hc => (visible c hc).resolve_right fun h => ?_
    exact hy (h ▸ List.mem_of_getLast? hc)
  · exact List.all_eq_true.2 fun c hc => (hu c hc).1

variable {m : Margins} {s₀ t₀ : Tokenizer}

/-- Behind the code of the lines that differ the second program goes on with a space, and the first
with the end of the line. -/
def Spaced (m : Margins) : Prop :=
  ∀ u w, m.ends u w → (∀ c ∈ u, c = '\r') ∧ w.head? = some ' '

/-- What follows the code of a line that differs, where the code ahead is all that is left of it. -/
theorem margin_of_line (spaced : Spaced m) (stretch : m.Stretch s.cursor.line y p q) (hy : y ≠ [])
    (line : '\n' ∉ y) : ∃ u a, p = u ++ '\n' :: a ∧ Blanks u ∧ m.differs s.cursor.line ∧
      LineStops p ∧ q.head? = some ' ' := by
  have split := stretch.split
  rw [Text.lineFeeds_eq_zero line, Nat.add_zero] at split
  have closed := stretch.closed
  generalize hn : s.cursor.line = n at split
  cases split with
  | ended =>
    rcases closed rfl with h | h
    · exact absurd h hy
    · exact absurd (List.mem_of_getLast? h) line
  | @line _ u w z p q differs ends =>
    obtain ⟨hu, hw⟩ := spaced u w ends
    obtain ⟨a, rfl⟩ := List.head?_eq_some_iff.1 hw
    refine ⟨u, z ++ p, rfl, (m.blanks u _ ends).1, differs, ?_, rfl⟩
    cases u with
    | nil => exact ⟨'\n', _, rfl, .inl rfl⟩
    | cons c u => exact ⟨c, _, rfl, .inr (hu c List.mem_cons_self)⟩

/-- Walks that find tokens which differ, behind the same tokens, find different tokens in the lines
of the first program. -/
theorem tokensBefore_ne_of_findApart {f g : List Finding} (whole : s₀.Whole) (first : Finds s₀ f s)
    (second : Finds t₀ g t) (woven : Woven m f g) (apart : FindApart s.cursor.line s.step t.step) :
    tokensBefore s₀.endLine t₀.run.tokens ≠
      withComments m.comment (tokensBefore s₀.endLine s₀.run.tokens) := by
  obtain ⟨k, l, u, v, hstep, hstep', hk, hl, newline, differ⟩ := apart
  have lines : s.cursor.line < s₀.endLine := by
    have lines := line_lt_of_finds whole (first.step hstep) k (by
      rw [tokensOf_append]
      exact List.mem_append_right _ List.mem_cons_self)
    rw [hk] at lines
    exact lines
  have before := line_lt_of_finds whole first
  have views := views_of_woven woven
  have before' := line_lt_of_woven woven before
  have runs : s₀.run.tokens = tokensOf f ++ ([k] ++ u.run.tokens) := by
    rw [Tokenization.tokens_eq, first.run_eq, run_of_next hstep, tokensOf_append, tokensOf_append,
      Tokenization.tokens_eq]
    rfl
  have runs' : t₀.run.tokens = tokensOf g ++ ([l] ++ v.run.tokens) := by
    rw [Tokenization.tokens_eq, second.run_eq, run_of_next hstep', tokensOf_append, tokensOf_append,
      Tokenization.tokens_eq]
    rfl
  have here : ∀ {k : Token}, k.line = s.cursor.line → tokensBefore s₀.endLine [k] = [k.view] :=
    fun hk =>
    tokensBefore_of_lt fun j hj => by
      rw [List.mem_singleton.1 hj, hk]
      exact lines
  -- up to the two tokens the lists are the same, and these differ
  rw [runs, runs', tokensBefore_append, tokensBefore_append, tokensBefore_append,
    tokensBefore_append, tokensBefore_of_lt before, tokensBefore_of_lt before', here hk, here hl,
    withComments_append, withComments_append, ← views]
  intro same
  have same := List.append_cancel_left same
  have plain : withComments m.comment [k.view] = [k.view] := by
    refine withComments_of_plain fun v hv hkind => ?_
    rw [List.mem_singleton.1 hv] at hkind
    exact absurd hkind newline
  rw [plain] at same
  exact differ (List.cons.inj same).1.symm

section Walk

variable (whole : s₀.Whole) (fits : Fits m s₀) (spaced : Spaced m)

include whole fits spaced

/-- Where the code ahead is not clear, the programs have different tokens. -/
theorem tokens_ne_of_unclear (unclear : Unclear m s₀ t₀) :
    tokensBefore s₀.endLine t₀.run.tokens ≠
      withComments m.comment (tokensBefore s₀.endLine s₀.run.tokens) := by
  obtain @⟨f, g, found, s, t, u, y, p, q, first, second, woven, goes, twin, stretch, hy, line,
      unclear⟩ :=
    unclear
  obtain ⟨v, a, hp, hv, differs, ends, space⟩ := margin_of_line spaced stretch hy line
  have hinge : Lexeme.hinges s.memory y := by
    rw [← Bool.not_eq_false]
    exact fun none => unclear (clear_of_space ends space line none)
  obtain ⟨c, x, rfl⟩ := List.exists_cons_of_ne_nil hy
  have left := twin.cursor.left
  -- the line that differs would be covered if a literal were open on it
  have outside : s.suspended = [] := by
    refine Classical.byContradiction fun hopen => fits.uncovered _ differs ?_
    rw [hp, ← List.append_assoc] at left
    refine whole.covers_of_open first.reaches hopen left ?_ ?_
    · rw [List.mem_append, not_or]
      exact ⟨Lexeme.brace_notMem_of_hinges hinge, hv.notMem (.inl (by decide))⟩
    · rw [List.mem_append, not_or]
      exact ⟨line, hv.notMem (.inr rfl)⟩
  have unmarked : s.atEndMark = false := by
    rw [Bool.eq_false_iff]
    intro mark
    obtain ⟨last, stop⟩ := step_of_atEndMark mark outside
    rw [goes] at stop
    cases stop
  have unmarked' : t.atEndMark = false := by
    rw [Bool.eq_false_iff] at unmarked ⊢
    intro mark
    refine unmarked ?_
    unfold atEndMark at mark ⊢
    rw [twin.cursor.lineStart, twin.cursor.right, Bool.and_eq_true] at mark
    rw [left, Bool.and_eq_true]
    exact ⟨mark.1, mark_of_space ends space mark.2⟩
  exact tokensBefore_ne_of_findApart whole first second woven
    (tokens_of_hinge twin outside ends space hinge line unmarked unmarked')

/-- The tokens of the second program are those of the first with the comments at the ends of lines,
if and only if the code of no line that differs comes to a hinge. -/
theorem tokens_iff (start : Along m s₀ t₀) : tokensBefore s₀.endLine t₀.run.tokens =
      withComments m.comment (tokensBefore s₀.endLine s₀.run.tokens) ↔
    ∀ s, Reaches s₀ s → m.differs s.cursor.line → Lexeme.hinges s.memory s.codeAhead = false := by
  constructor
  · -- a hinge on a line that differs makes a token of the second program another one
    intro same s reach differs
    rw [Bool.eq_false_iff]
    intro hinge
    have ahead : s.codeAhead ≠ [] := by
      intro h
      rw [h] at hinge
      cases hinge
    refine tokens_ne_of_unclear whole fits spaced ?_ same
    rcases woven_of_reaches whole fits start reach with ⟨f, g, t, first, second, along, woven⟩
      | unclear
    · -- a hinge needs code ahead, which the margin of a line has not
      cases along with
      | @margin u w y p q _ left _ blanks =>
        refine absurd ?_ ahead
        exact codeAhead_eq (y := []) left List.not_mem_nil nofun blanks
      | @code y p q twin stretch eager =>
        have line : '\n' ∉ y := fun hy => by
          have some : 0 < Text.lineFeeds y := List.count_pos_iff.2 hy
          exact stretch.plain _ (Nat.le_refl _) (Nat.lt_add_of_pos_right some) differs
        have left := twin.cursor.left
        have hy : y ≠ [] := by
          intro hy
          refine ahead ?_
          rw [hy, eager hy] at left
          unfold codeAhead
          rw [left]
          rfl
        obtain ⟨v, a, rfl, hv, -⟩ := margin_of_line spaced stretch hy line
        rw [codeAhead_eq left line stretch.visible hv] at hinge
        cases hstep : s.step with
        | next found u =>
          refine .intro first second woven hstep twin stretch hy line fun clear => ?_
          rw [clear.hinge] at hinge
          cases hinge
        | stop found ending =>
          -- a walk does not end in a line that is not covered
          exfalso
          have complete := ending_of_reaches reach whole.complete
          rw [run_of_stop hstep] at complete
          cases complete
          rcases (stop_cases hstep).2 with h | ⟨-, covers⟩
          · rw [left] at h
            exact hy (List.append_eq_nil_iff.1 h).1
          · refine fits.uncovered _ differs ?_
            rw [first.run_eq, run_of_stop hstep]
            exact covers.right f
    · exact unclear
  · intro none
    -- where the walks part, the line that they part on has a hinge
    refine (tokens_or_unclear whole fits start).resolve_right fun unclear => ?_
    obtain @⟨f, g, found, s, t, u, y, p, q, first, second, woven, goes, twin, stretch, hy, line,
        unclear⟩ :=
      unclear
    obtain ⟨v, a, hp, hv, differs, ends, space⟩ := margin_of_line spaced stretch hy line
    have hinge := none s first.reaches differs
    have left := twin.cursor.left
    rw [hp] at left
    rw [codeAhead_eq left line stretch.visible hv] at hinge
    exact unclear (clear_of_space ends space line hinge)

end Walk

end Tokenizer

end Marginalia.Source
