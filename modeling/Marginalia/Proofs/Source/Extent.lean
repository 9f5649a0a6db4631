import Mathlib.Tactic.SplitIfs
import Marginalia.Proofs.Source.LineEnd

/-!
# How far lexemes reach

No lexeme reaches beyond the text (`read_more_le`), and of the tokens only literals and variables
reach beyond the line (`read_within`). What `read` comes to is one of a few cases (`Branch`), and
each kind of lexeme comes from some of them only (`Yields`), which is what such statements are
proved by.
-/

namespace Marginalia.Source

namespace Lexeme

variable {s : Text}

/-! ## Lengths -/

/-- How many characters belong to a lexeme behind its first. -/
def more : Lexeme → Nat
  | .token _ n => n
  | .delimited n _ _ => n
  | .heredoc n _ _ => n
  | _ => 0

/-- The colon of a key is there. -/
theorem labelColon_pos {name y : Text} (h : labelColon name y) : 0 < y.length := by
  cases y with
  | nil => cases h
  | cons c y => exact Nat.zero_lt_succ _

theorem word_more_le (m : Memory) (c : Char) (x : Text) : (word m c x).more ≤ x.length := by
  have within := wordLength_le x
  rw [word_eq]
  unfold wordBefore
  split
  · next hlabel =>
    rw [Bool.and_eq_true] at hlabel
    have := labelColon_pos hlabel.2
    rw [List.length_drop] at this
    show wordLength x + 1 ≤ x.length
    omega
  · split <;> exact within

theorem colon_more_le (m : Memory) (x : Text) : (colon m x).more ≤ x.length := by
  cases x with
  | nil => exact Nat.le_refl 0
  | cons c x =>
    rw [colon_cons]
    have one : 1 ≤ (c :: x).length := Nat.succ_le_succ (Nat.zero_le _)
    split
    · exact one
    · split
      · exact one
      · split
        · exact one
        · split
          · have h1 := symbolLength_le (c :: x)
            have h2 := symbolMark_le ((c :: x).drop (symbolLength (c :: x)))
            rw [List.length_drop] at h2
            show _ + _ ≤ _
            omega
          · split
            · exact Nat.zero_le _
            · split
              · next hop => exact operatorLength?_le hop
              · exact Nat.zero_le _

theorem memberVar_more_le (x : Text) : (memberVar x).more ≤ x.length := by
  unfold memberVar
  split
  · next r =>
    have := run_le isNameChar r
    show 1 + run isNameChar r ≤ r.length + 1
    omega
  · exact run_le isNameChar _

theorem globalVar_more_le (x : Text) : (globalVar x).more ≤ x.length := by
  unfold globalVar
  split
  · exact Nat.le_refl 0
  · exact Nat.le_refl 1
  · split
    · exact Nat.zero_le _
    · show 2 ≤ _ + 1 + 1
      omega
  · split
    · exact run_le isNameChar _
    · exact Nat.le_trans (show (if _ then 0 else 1) ≤ 1 by split <;> decide)
        (Nat.succ_le_succ (Nat.zero_le _))

theorem percent_more_le {x : Text} (h : percentAhead x) : (percent x).more ≤ x.length := by
  cases x with
  | nil => cases h
  | cons c x =>
    unfold percent
    dsimp only
    split
    · next hk =>
      cases x with
      | nil => simp [percentAhead, hk] at h
      | cons d x =>
        show 2 ≤ x.length + 1 + 1
        omega
    · show 1 ≤ x.length + 1
      omega

theorem charLiteral_more_le {x : Text} (h : charLiteralAhead x) :
    (charLiteral x).more ≤ x.length := by
  unfold charLiteral
  split
  · next r =>
    have := escapeLength_le r
    show 1 + escapeLength r ≤ r.length + 1
    omega
  · cases x with
    | nil => cases h
    | cons c x =>
      show 1 ≤ x.length + 1
      omega

/-- The name of a here-document takes no more than what is left. -/
theorem heredocName?_le {name id : Text} {length : Nat}
    (h : heredocName? name = some (id, length)) :
    length ≤ name.length := by
  unfold heredocName? at h
  split at h
  · cases h
    exact Nat.le_refl 0
  · next c r =>
    split at h
    · dsimp only at h
      split at h
      · next hq =>
        cases h
        rw [beq_iff_eq] at hq
        have := (List.getElem?_eq_some_iff.1 hq).1
        rw [List.length_cons]
        omega
      · cases h
    · cases h
      exact (List.takeWhile_sublist _).length_le

theorem operator_more_le (c : Char) (x : Text) : (operator c x).more ≤ x.length := by
  show (operatorLength? operators (c :: x)).getD 1 - 1 ≤ x.length
  cases hop : operatorLength? operators (c :: x) with
  | none => exact Nat.zero_le _
  | some n =>
    have := operatorLength?_le hop
    rw [List.length_cons] at this
    show n - 1 ≤ x.length
    omega

theorem heredocOrOperator_more_le (m : Memory) (spaced : Bool) (c : Char) (x : Text) :
    (heredocOrOperator m spaced c x).more ≤ x.length := by
  unfold heredocOrOperator
  split
  · next after =>
    split
    · rw [heredocOpener_eq]
      split
      · next id length hname =>
        have hle := heredocName?_le hname
        have hlength : (heredocName after).length +
            (if after.head? == some '~' || after.head? == some '-' then 1 else 0) =
              after.length := by
          cases after with
          | nil => rfl
          | cons d after =>
            by_cases h1 : d = '~'
            · subst h1; rfl
            · by_cases h2 : d = '-'
              · subst h2; rfl
              · simp [heredocName, h1, h2]
        show 1 + _ + length ≤ after.length + 1
        omega
      · exact Nat.zero_le _
    · exact operator_more_le '<' _
  · exact operator_more_le c x

/-! ## The cases of reading -/

/-- What reading comes to, case by case. -/
inductive Branch (m : Memory) (spaced : Bool) (c : Char) (r : Text) : Lexeme → Prop where
  | newline (h : c = '\n') : Branch m spaced c r .newline
  | comment (h : c = '#') : Branch m spaced c r (.token .comment (run (· != '\n') r))
  | semicolon : Branch m spaced c r (.token .semicolon 0)
  | quoted (interpolates : Bool) (h : c = '"' ∨ c = '`' ∨ c = '\'') :
      Branch m spaced c r (.delimited 0 ⟨c, none, interpolates⟩ false)
  | colon : Branch m spaced c r (colon m r)
  | memberVar (h : c = '@') : Branch m spaced c r (memberVar r)
  | globalVar (h : c = '$') : Branch m spaced c r (globalVar r)
  | number : Branch m spaced c r (.token .number (numberLength false r))
  | word : Branch m spaced c r (word m c r)
  | percent (sign : c = '%') (h : percentAhead r) : Branch m spaced c r (percent r)
  | regexp : Branch m spaced c r (.delimited 0 ⟨'/', none, true⟩ true)
  | char (h : charLiteralAhead r) : Branch m spaced c r (charLiteral r)
  | operator : Branch m spaced c r (heredocOrOperator m spaced c r)

/-- Reading comes to one of the cases. -/
theorem branch_read (m : Memory) (spaced : Bool) (c : Char) (r : Text) :
    Branch m spaced c r (read m spaced c r) := by
  -- the branches in their order, each taken when all before it are not
  unfold read
  by_cases h1 : (c == '\n') = true
  · rw [if_pos h1]
    exact .newline (beq_iff_eq.1 h1)
  rw [if_neg h1]
  by_cases h2 : (c == '#') = true
  · rw [if_pos h2]
    exact .comment (beq_iff_eq.1 h2)
  rw [if_neg h2]
  by_cases h3 : (c == ';') = true
  · rw [if_pos h3]
    exact .semicolon
  rw [if_neg h3]
  by_cases h4 : (c == '"' || c == '`') = true
  · rw [if_pos h4]
    rw [Bool.or_eq_true, beq_iff_eq, beq_iff_eq] at h4
    exact .quoted true (h4.imp_right .inl)
  rw [if_neg h4]
  by_cases h5 : (c == '\'') = true
  · rw [if_pos h5]
    exact .quoted false (.inr (.inr (beq_iff_eq.1 h5)))
  rw [if_neg h5]
  by_cases h6 : (c == ':') = true
  · rw [if_pos h6]
    exact .colon
  rw [if_neg h6]
  by_cases h7 : (c == '@') = true
  · rw [if_pos h7]
    exact .memberVar (beq_iff_eq.1 h7)
  rw [if_neg h7]
  by_cases h8 : (c == '$') = true
  · rw [if_pos h8]
    exact .globalVar (beq_iff_eq.1 h8)
  rw [if_neg h8]
  by_cases h9 : c.isDigit = true
  · rw [if_pos h9]
    exact .number
  rw [if_neg h9]
  by_cases h10 : isNameStart c = true
  · rw [if_pos h10]
    exact .word
  rw [if_neg h10]
  by_cases h11 : (c == '%' && m.literalPosition spaced r.head? && percentAhead r) = true
  · rw [if_pos h11]
    rw [Bool.and_eq_true, Bool.and_eq_true, beq_iff_eq] at h11
    exact .percent h11.1.1 h11.2
  rw [if_neg h11]
  by_cases h12 : (c == '/' && m.literalPosition spaced r.head?) = true
  · rw [if_pos h12]
    exact .regexp
  rw [if_neg h12]
  by_cases h13 : (c == '?' && !m.afterValue && charLiteralAhead r) = true
  · rw [if_pos h13]
    rw [Bool.and_eq_true] at h13
    exact .char h13.2
  rw [if_neg h13]
  exact .operator

theorem read_more_le (m : Memory) (spaced : Bool) (c : Char) (x : Text) :
    (read m spaced c x).more ≤ x.length := by
  have branch := branch_read m spaced c x
  generalize read m spaced c x = lexeme at branch
  cases branch with
  | newline => exact Nat.zero_le _
  | comment => exact run_le _ x
  | semicolon => exact Nat.zero_le _
  | quoted => exact Nat.zero_le _
  | colon => exact colon_more_le m x
  | memberVar => exact memberVar_more_le x
  | globalVar => exact globalVar_more_le x
  | number => exact numberLength_le false x
  | word => exact word_more_le m c x
  | percent _ h => exact percent_more_le h
  | regexp => exact Nat.zero_le _
  | char h => exact charLiteral_more_le h
  | operator => exact heredocOrOperator_more_le m spaced c x

/-! ## Tokens that stay on their line -/

/-- A word stays within its line. -/
theorem word_within (m : Memory) (c : Char) (x : Text) (hs : Stops s) :
    (word m c (x ++ s)).more ≤ x.length := by
  have within := wordLength_le x
  rw [word_eq, wordLength_append x hs]
  unfold wordBefore
  split
  · next hlabel =>
    -- a colon is no blank, and so it stands before those that follow
    rw [Bool.and_eq_true, List.drop_append_of_le_length within] at hlabel
    obtain ⟨-, hlabel⟩ := hlabel
    unfold labelColon at hlabel
    split at hlabel
    · next heq =>
      obtain ⟨y, hy, -⟩ := hs.eq_cons (by decide) heq
      have length := congrArg List.length hy
      rw [List.length_drop, List.length_cons] at length
      show wordLength x + 1 ≤ x.length
      omega
    · cases hlabel
  · split <;> exact within

theorem kind_of_globalVar {r : Text} {kind : TokenKind} {n : Nat}
    (h : globalVar r = .token kind n) : kind = .var := by
  unfold globalVar at h
  split at h
  · cases h; rfl
  · cases h; rfl
  · split at h
    · cases h
    · cases h; rfl
  · split at h
    · cases h; rfl
    · cases h; rfl

theorem kind_of_charLiteral {r : Text} {kind : TokenKind} {n : Nat}
    (h : charLiteral r = .token kind n) : kind = .literal := by
  unfold charLiteral at h
  split at h
  · cases h; rfl
  · cases h; rfl

/-- Where no here-document is opened, an operator is read. -/
theorem operator_of_token {m : Memory} {spaced : Bool} {c : Char} {r : Text} {kind : TokenKind}
    {n : Nat} (h : heredocOrOperator m spaced c r = .token kind n) :
    operator c r = .token kind n := by
  unfold heredocOrOperator at h
  split at h
  · split at h
    · rw [heredocOpener_eq] at h
      split at h
      · cases h
      · cases h
    · exact h
  · exact h

/-- A token that is no literal and no variable ends on its line. -/
theorem read_within {m : Memory} {spaced : Bool} {c : Char} {x : Text} {kind : TokenKind} {n : Nat}
    (hs : s = [] ∨ ∃ a, s = '\n' :: a) (h : read m spaced c (x ++ s) = .token kind n)
    (literal : kind ≠ .literal) (var : kind ≠ .var) : n ≤ x.length := by
  have stops : Stops s := by
    rcases hs with rfl | ⟨a, rfl⟩
    · exact stops_nil
    · exact stops_cons (by decide) a
  -- each branch reads on while the characters are its own, and a line feed is none of them
  have branch := branch_read m spaced c (x ++ s)
  rw [h] at branch
  show (Lexeme.token kind n).more ≤ x.length
  generalize htoken : Lexeme.token kind n = lexeme at branch
  cases branch with
  | newline => exact Nat.zero_le _
  | comment =>
    have head : s.head?.any (· != '\n') = false := by
      rcases hs with rfl | ⟨a, rfl⟩ <;> rfl
    rw [run_append x head]
    exact run_le _ x
  | semicolon => exact Nat.zero_le _
  | quoted => exact Nat.zero_le _
  | colon =>
    rw [colon_append m x stops]
    exact colon_more_le m x
  | memberVar =>
    rw [memberVar_append x stops]
    exact memberVar_more_le x
  | globalVar => exact absurd (kind_of_globalVar htoken.symm) var
  | number =>
    rw [numberLength_append false x stops]
    exact numberLength_le false x
  | word => exact word_within m c x stops
  | percent _ ahead =>
    rw [percentAhead_append x stops] at ahead
    rw [percent_append ahead]
    exact percent_more_le ahead
  | regexp => exact Nat.zero_le _
  | char => exact absurd (kind_of_charLiteral htoken.symm) literal
  | operator =>
    rw [← htoken, ← operator_of_token htoken.symm, operator_append c x stops]
    exact operator_more_le c x

/-- The name of a method stays within its line. -/
theorem methodName?_within {c : Char} {x : Text} {kind : TokenKind} {n : Nat} {pending : Bool}
    (hs : Stops s) (h : methodName? c (x ++ s) = some (kind, n, pending)) : n ≤ x.length := by
  unfold methodName? at h
  by_cases hn : isNameStart c
  · rw [if_pos hn] at h
    dsimp only at h
    have letters := run_le isNameChar x
    rw [drop_append_run solid_isNameChar x hs, run_append x (solid_isNameChar.head hs)] at h
    split at h
    · cases h
      exact letters
    · cases h
      -- the mark of a name is no blank
      have mark : methodMark (x.drop (run isNameChar x) ++ s) ≤
          (x.drop (run isNameChar x)).length := by
        cases hy : x.drop (run isNameChar x) with
        | nil =>
          cases s with
          | nil => exact Nat.le_refl 0
          | cons d s =>
            rcases isAsciiBlank_cases (hs d rfl) with rfl | rfl | rfl | rfl | rfl <;>
              exact Nat.le_refl 0
        | cons d y =>
          have one : methodMark (d :: (y ++ s)) ≤ 1 := by
            unfold methodMark
            split
            · exact Nat.le_refl 1
            · exact Nat.le_refl 1
            · exact Nat.le_refl 1
            · split
              · exact Nat.zero_le 1
              · exact Nat.le_refl 1
            · exact Nat.zero_le 1
          exact Nat.le_trans one (Nat.succ_le_succ (Nat.zero_le _))
      rw [List.length_drop] at mark
      omega
  · rw [if_neg hn] at h
    split at h
    · cases h
      exact Nat.zero_le _
    · obtain ⟨k, hk, heq⟩ := Option.map_eq_some_iff.1 h
      cases heq
      rw [← List.cons_append, operatorLength?_append solid_methodOperators (c :: x) hs] at hk
      have := operatorLength?_le hk
      rw [List.length_cons] at this
      omega

/-! ## Variables -/

theorem lineFeed_notMem_name (r : Text) : '\n' ∉ r.take (run isNameChar r) := by
  rw [take_run]
  intro h
  exact absurd (List.all_eq_true.1 List.all_takeWhile _ h) (by decide)

theorem lineFeed_notMem_memberVar {r : Text} {kind : TokenKind} {n : Nat}
    (h : memberVar r = .token kind n) : '\n' ∉ r.take n := by
  unfold memberVar at h
  split at h
  · next r =>
    cases h
    rw [Nat.add_comm, List.take_succ_cons, List.mem_cons, not_or]
    exact ⟨by decide, lineFeed_notMem_name r⟩
  · cases h
    exact lineFeed_notMem_name _

/-- No variable but `$-` takes a line feed. -/
theorem lineFeed_notMem_globalVar {r : Text} {kind : TokenKind} {n : Nat}
    (h : globalVar r = .token kind n) (dash : ∀ a, r ≠ '-' :: '\n' :: a) : '\n' ∉ r.take n := by
  unfold globalVar at h
  split at h
  · cases h
    exact List.not_mem_nil
  · cases h
    decide
  · next d a =>
    split at h
    · cases h
    · cases h
      show '\n' ∉ ['-', d]
      rw [List.mem_cons, List.mem_singleton, not_or]
      refine ⟨by decide, fun hd => ?_⟩
      rw [← hd] at dash
      exact dash a rfl
  · next c r _ _ =>
    split at h
    · cases h
      exact lineFeed_notMem_name _
    · cases h
      split
      · exact List.not_mem_nil
      · next hblank =>
        show '\n' ∉ [c]
        rw [List.mem_singleton]
        rintro rfl
        exact hblank (by decide)

theorem kind_of_colon {m : Memory} {r : Text} {kind : TokenKind} {n : Nat}
    (h : colon m r = .token kind n) : kind = .literal ∨ kind = .punct := by
  cases r with
  | nil =>
    cases h
    exact .inr rfl
  | cons c r =>
    rw [colon_cons] at h
    split at h
    · cases h
      exact .inr rfl
    split at h
    · cases h
    split at h
    · cases h
    split at h
    · cases h
      exact .inl rfl
    split at h
    · cases h
      exact .inr rfl
    split at h
    · cases h
      exact .inl rfl
    · cases h
      exact .inr rfl

/-- No word is a variable with a sigil. -/
theorem word_ne_var {m : Memory} {c : Char} {r : Text} {n : Nat} : word m c r ≠ .token .var n := by
  rw [word_eq]
  unfold wordBefore
  intro h
  split at h
  · cases h
  · split at h
    · cases h
    · split at h
      · cases h
      · cases h

/-- No percent literal is a variable. -/
theorem percent_ne_var {r : Text} {n : Nat} : percent r ≠ .token .var n := by
  unfold percent
  intro h
  split at h
  · dsimp only at h
    split at h
    · cases h
    · cases h
  · cases h

theorem lineFeed_notMem_of_var {m : Memory} {spaced : Bool} {c : Char} {r : Text} {n : Nat}
    (h : read m spaced c r = .token .var n) (dash : ∀ a, c :: r ≠ '$' :: '-' :: '\n' :: a) :
    '\n' ∉ (c :: r).take (n + 1) := by
  have branch := branch_read m spaced c r
  rw [h] at branch
  rw [List.take_succ_cons, List.mem_cons, not_or]
  generalize htoken : Lexeme.token .var n = lexeme at branch
  cases branch with
  | newline => cases htoken
  | comment => cases htoken
  | semicolon => cases htoken
  | quoted => cases htoken
  | colon => exact absurd (kind_of_colon htoken.symm) (by decide)
  | memberVar h => exact ⟨by rw [h]; decide, lineFeed_notMem_memberVar htoken.symm⟩
  | globalVar h =>
    refine ⟨by rw [h]; decide, lineFeed_notMem_globalVar htoken.symm fun a ha => ?_⟩
    exact dash a (by rw [h, ha])
  | number => cases htoken
  | word => exact absurd htoken.symm word_ne_var
  | percent => exact absurd htoken.symm percent_ne_var
  | regexp => cases htoken
  | char => exact absurd (kind_of_charLiteral htoken.symm) (by decide)
  | operator => cases operator_of_token htoken.symm

/-! ## Openers -/

/-- What closes a literal is visible, if what opens it is. -/
theorem blank_close_ofOpening {c : Char} (hc : Text.isAsciiBlank c = false) (interpolates : Bool) :
    Text.isAsciiBlank (Delimiters.ofOpening c interpolates).close = false := by
  have brackets : Text.isAsciiBlank ')' = false ∧ Text.isAsciiBlank ']' = false ∧
      Text.isAsciiBlank '}' = false ∧ Text.isAsciiBlank '>' = false := by decide
  unfold Delimiters.ofOpening
  split
  · exact brackets.1
  · exact brackets.2.1
  · exact brackets.2.2.1
  · exact brackets.2.2.2
  · exact hc

/-- What delimits a percent literal is visible. -/
theorem blank_of_isPercentDelimiter {c : Char} (h : isPercentDelimiter c) :
    Text.isAsciiBlank c = false := by
  unfold isPercentDelimiter at h
  rw [Bool.and_eq_true] at h
  exact Bool.not_eq_eq_eq_not.1 h.2

/-- What reading comes to, by the kind of the lexeme: what opens a literal is a quote, a slash, or
the character that a `%` leads to. -/
inductive Yields (c : Char) (r : Text) : Lexeme → Prop where
  | token (kind : TokenKind) (more : Nat) : Yields c r (.token kind more)
  | newline (h : c = '\n') : Yields c r .newline
  | quoted (quote : Char) (more : Nat) (interpolates flags : Bool)
      (h : quote = '"' ∨ quote = '`' ∨ quote = '\'' ∨ quote = '/') :
      Yields c r (.delimited more ⟨quote, none, interpolates⟩ flags)
  | percent (opening : Char) (more : Nat) (interpolates flags : Bool) (sign : c = '%')
      (delimits : isPercentDelimiter opening)
      (h : (∃ y, r = opening :: y) ∨ ∃ kind y, isPercentKind kind ∧ r = kind :: opening :: y) :
      Yields c r (.delimited more (.ofOpening opening interpolates) flags)
  | heredoc (more : Nat) (id : Text) (indented : Bool) : Yields c r (.heredoc more id indented)
  | brokenHeredoc : Yields c r .brokenHeredoc
  | split (letter : Char) (y : Text) (sign : c = '$') (wide : isWide letter)
    (h : r = '-' :: letter :: y) :
      Yields c r .split

/-- A colon opens quoted symbols. -/
theorem yields_colon (m : Memory) (c : Char) (r : Text) : Yields c r (colon m r) := by
  cases r with
  | nil => exact .token _ _
  | cons d r =>
    rw [colon_cons]
    split_ifs
    · exact .token _ _
    · exact .quoted '"' _ _ _ (.inl rfl)
    · exact .quoted '\'' _ _ _ (.inr (.inr (.inl rfl)))
    · exact .token _ _
    · exact .token _ _
    · split <;> exact .token _ _

/-- A dollar sign opens nothing. -/
theorem yields_globalVar (r : Text) : Yields '$' r (globalVar r) := by
  unfold globalVar
  split
  · exact .token _ _
  · exact .token _ _
  · next letter y =>
    split
    · next wide => exact .split letter y rfl wide rfl
    · exact .token _ _
  · split <;> exact .token _ _

/-- A percent sign opens a literal that its delimiter closes. -/
theorem yields_percent {r : Text} (ahead : percentAhead r) : Yields '%' r (percent r) := by
  cases r with
  | nil => cases ahead
  | cons c r =>
    unfold percentAhead at ahead
    unfold percent
    dsimp only at ahead ⊢
    by_cases hk : isPercentKind c
    · rw [if_pos hk] at ahead ⊢
      cases r with
      | nil => cases ahead
      | cons e r => exact .percent e _ _ _ rfl ahead (.inr ⟨c, r, hk, rfl⟩)
    · rw [if_neg hk] at ahead ⊢
      rw [Bool.and_eq_true] at ahead
      exact .percent c _ _ _ rfl ahead.1 (.inl ⟨r, rfl⟩)

/-- A letter opens nothing. -/
theorem yields_word (m : Memory) (c : Char) (r : Text) : Yields c r (word m c r) := by
  rw [word_eq]
  unfold wordBefore
  split
  · exact .token _ _
  · split <;> exact .token _ _

/-- An angle bracket opens nothing but a here-document. -/
theorem yields_heredocOrOperator (m : Memory) (spaced : Bool) (c : Char) (r : Text) :
    Yields c r (heredocOrOperator m spaced c r) := by
  unfold heredocOrOperator
  split
  · split
    · rw [heredocOpener_eq]
      split
      · exact .heredoc _ _ _
      · exact .brokenHeredoc
    · exact .token _ _
  · exact .token _ _

/-- Reading opens nothing but what the kinds of lexemes allow. -/
theorem yields_read (m : Memory) (spaced : Bool) (c : Char) (r : Text) :
    Yields c r (read m spaced c r) := by
  have branch := branch_read m spaced c r
  generalize read m spaced c r = lexeme at branch
  cases branch with
  | newline h => exact .newline h
  | comment | semicolon | number => exact .token _ _
  | quoted interpolates h => exact .quoted c _ _ _ (h.imp_right (Or.imp_right .inl))
  | colon => exact yields_colon m c r
  | memberVar =>
    unfold memberVar
    split <;> exact .token _ _
  | globalVar sign => exact sign ▸ yields_globalVar r
  | word => exact yields_word m c r
  | percent sign ahead => exact sign ▸ yields_percent ahead
  | regexp => exact .quoted '/' _ _ _ (.inr (.inr (.inr rfl)))
  | char =>
    unfold charLiteral
    split <;> exact .token _ _
  | operator => exact yields_heredocOrOperator m spaced c r

/-- No blank closes a literal. -/
theorem blank_close_of_read {m : Memory} {spaced : Bool} {c : Char} {r : Text} {n : Nat}
    {d : Delimiters} {flags : Bool} (h : read m spaced c r = .delimited n d flags) :
    Text.isAsciiBlank d.close = false := by
  have yields := yields_read m spaced c r
  rw [h] at yields
  cases yields with
  | quoted quote _ _ _ hq =>
    show Text.isAsciiBlank quote = false
    rcases hq with rfl | rfl | rfl | rfl <;> decide
  | percent _ _ _ _ _ delimits =>
    exact blank_close_ofOpening (blank_of_isPercentDelimiter delimits) _

/-- Behind the text of a quoted name stands its quote. -/
theorem getElem?_takeWhile_quote {c : Char} {r : Text} (hc : c ∈ r) (hr : '\n' ∉ r) :
    r[(r.takeWhile fun x => x != '\n' && x != c).length]? = some c := by
  induction r with
  | nil => cases hc
  | cons d r ih =>
    rw [List.mem_cons, not_or] at hr
    rw [List.takeWhile_cons]
    by_cases hd : d = c
    · subst hd
      rw [if_neg (by simp)]
      rfl
    · have pass : (d != '\n' && d != c) = true := by
        rw [Bool.and_eq_true, bne_iff_ne, bne_iff_ne]
        exact ⟨Ne.symm hr.1, hd⟩
      rw [if_pos pass, List.length_cons, List.getElem?_cons_succ]
      exact ih ((List.mem_cons.1 hc).resolve_left (Ne.symm hd)) hr.2

/-- Without a name there is a quote that nothing behind it closes. -/
theorem quote_of_heredocName? {name : Text} (h : heredocName? name = none) (hname : '\n' ∉ name) :
    ∃ c r, name = c :: r ∧ (c == '"' || c == '\'' || c == '`') = true ∧
      Text.isAsciiBlank c = false ∧
      ∀ x ∈ r, (x != '\n' && x != c) = true := by
  cases name with
  | nil => cases h
  | cons c r =>
    rw [List.mem_cons, not_or] at hname
    unfold heredocName? at h
    dsimp only at h
    split at h
    · next quote =>
      split at h
      · cases h
      · next hopen =>
        have solid : Solid fun x => x == '"' || x == '\'' || x == '`' := solid_of_blanks (by decide)
        refine ⟨c, r, rfl, quote, ?_, fun x hx => ?_⟩
        · exact Bool.eq_false_iff.2 fun blank =>
            Bool.false_ne_true ((solid c blank).symm.trans quote)
        · rw [Bool.and_eq_true, bne_iff_ne, bne_iff_ne]
          refine ⟨fun heq => hname.2 (heq ▸ hx), fun heq => hopen ?_⟩
          rw [heq] at hx
          rw [getElem?_takeWhile_quote hx hname.2]
          exact beq_self_eq_true _
    · cases h

/-- A quoted name that its line does not close is not closed by blanks either. -/
theorem heredocName?_append_blanks {name u a : Text} (h : heredocName? name = none)
    (hname : '\n' ∉ name) (hu : ∀ c ∈ u, Text.isAsciiBlank c ∧ c ≠ '\n')
    (ha : a = [] ∨ ∃ r, a = '\n' :: r) : heredocName? (name ++ (u ++ a)) = none := by
  obtain ⟨c, r, rfl, quote, visible, unclosed⟩ := quote_of_heredocName? h hname
  have inner : ∀ x ∈ r ++ u, (x != '\n' && x != c) = true := by
    intro x hx
    rcases List.mem_append.1 hx with hx | hx
    · exact unclosed x hx
    · rw [Bool.and_eq_true, bne_iff_ne, bne_iff_ne]
      refine ⟨(hu x hx).2, fun heq => ?_⟩
      have blank := (hu x hx).1
      rw [heq, visible] at blank
      cases blank
  have stop : (a.takeWhile fun x => x != '\n' && x != c) = [] := by
    rcases ha with rfl | ⟨t, rfl⟩
    · rfl
    · rw [List.takeWhile_cons, if_neg (by simp)]
  -- the closing quote is missing on the line, and what is appended does not have it either
  have next : a.head? ≠ some c := by
    rcases ha with rfl | ⟨t, rfl⟩
    · nofun
    · exact fun heq => hname (Option.some.inj heq ▸ List.mem_cons_self)
  rw [List.cons_append, ← List.append_assoc]
  unfold heredocName?
  dsimp only
  rw [if_pos quote, List.takeWhile_append_of_pos inner, stop, List.append_nil,
    List.getElem?_append_right (Nat.le_refl _), Nat.sub_self, ← List.head?_eq_getElem?,
    if_neg (by rw [beq_iff_eq]; exact next)]

/-- What opens a here-document whose name is not closed on its line. -/
theorem exists_of_opensHeredoc {m : Memory} {spaced : Bool} {c : Char} {x : Text}
    (h : opensHeredoc m spaced (c :: x)) (hx : '\n' ∉ x) :
    ∃ after, c = '<' ∧ x = '<' :: after ∧ heredocAhead m spaced after ∧
      heredocName? (heredocName after) = none ∧ '\n' ∉ heredocName after := by
  unfold opensHeredoc at h
  split at h
  · next after heq =>
    obtain ⟨rfl, rfl⟩ := List.cons.inj heq
    rw [Bool.and_eq_true] at h
    refine ⟨after, rfl, rfl, h.1, Option.isNone_iff_eq_none.1 h.2, fun hm => ?_⟩
    refine hx (List.mem_cons_of_mem _ ?_)
    unfold heredocName at hm
    split at hm
    · exact List.mem_cons_of_mem _ hm
    · exact List.mem_cons_of_mem _ hm
    · exact hm
  · cases h

/-- A here-document whose name is not closed on its line is broken. -/
theorem read_of_opensHeredoc {m : Memory} {spaced : Bool} {c : Char} {x u a : Text}
    (h : opensHeredoc m spaced (c :: x)) (hx : '\n' ∉ x)
    (hu : ∀ c ∈ u, Text.isAsciiBlank c ∧ c ≠ '\n') (ha : a = [] ∨ ∃ r, a = '\n' :: r)
    (stops : Stops (u ++ a)) : read m spaced c (x ++ (u ++ a)) = .brokenHeredoc := by
  obtain ⟨after, rfl, rfl, ahead, hopen, hname⟩ := exists_of_opensHeredoc h hx
  have unclosed : heredocName? (heredocName (after ++ (u ++ a))) = none := by
    rw [heredocName_append after stops]
    exact heredocName?_append_blanks hopen hname hu ha
  show heredocOrOperator m spaced '<' ('<' :: (after ++ (u ++ a))) = .brokenHeredoc
  show (if heredocAhead m spaced (after ++ (u ++ a)) then _ else _) = _
  rw [heredocAhead_append m spaced after stops, if_pos ahead, heredocOpener_eq, unclosed]

/-- A quoted name that the code of its line does not close is closed by a quote behind the code, if
at all. -/
theorem heredocName?_append_open {name p : Text} (h : heredocName? name = none)
    (hname : '\n' ∉ name) :
    heredocName? (name ++ p) = none ∨ ∃ id n, heredocName? (name ++ p) = some (id, n) ∧
      name.length < n ∧
      ∃ q, (name ++ p)[n - 1]? = some q ∧ Text.isAsciiBlank q = false := by
  obtain ⟨c, r, rfl, quote, visible, inner⟩ := quote_of_heredocName? h hname
  rw [List.cons_append]
  unfold heredocName?
  dsimp only
  rw [if_pos quote, List.takeWhile_append_of_pos inner]
  split
  · next closes =>
    refine .inr ⟨_, _, rfl, ?_, c, beq_iff_eq.1 closes, visible⟩
    rw [List.length_append, List.length_cons]
    omega
  · exact .inl rfl

/-- The mark before the name of a here-document, if there is one. -/
theorem exists_heredocMark (after : Text) {p : Text} (stops : Stops p) : ∃ mark : Text,
    after = mark ++ heredocName after ∧
      mark.length = if (after ++ p).head? == some '~' || (after ++ p).head? == some '-' then 1
        else 0 := by
  unfold heredocName
  split
  · exact ⟨['~'], rfl, rfl⟩
  · exact ⟨['-'], rfl, rfl⟩
  · next tilde dash =>
    refine ⟨[], rfl, (if_neg fun marked => ?_).symm⟩
    rw [Bool.or_eq_true, beq_iff_eq, beq_iff_eq] at marked
    cases after with
    | nil =>
      rcases marked with marked | marked
      all_goals exact absurd (stops _ marked) (by decide)
    | cons d after =>
      rcases marked with marked | marked
      · exact tilde after (by rw [Option.some.inj marked])
      · exact dash after (by rw [Option.some.inj marked])

/-- What opens a here-document whose name the code of its line does not close is broken, or it goes
on to a quote behind the code. -/
theorem read_of_openHeredoc {m : Memory} {spaced : Bool} {c : Char} {x p : Text}
    (h : opensHeredoc m spaced (c :: x)) (hx : '\n' ∉ x) (stops : Stops p) :
    read m spaced c (x ++ p) = .brokenHeredoc ∨ ∃ more id indented,
      read m spaced c (x ++ p) = .heredoc more id indented ∧ x.length < more ∧
        ∃ q, (c :: (x ++ p))[more]? = some q ∧ Text.isAsciiBlank q = false := by
  obtain ⟨after, rfl, rfl, ahead, hopen, hname⟩ := exists_of_opensHeredoc h hx
  obtain ⟨mark, split, length⟩ := exists_heredocMark after stops
  have reads : read m spaced '<' ('<' :: (after ++ p)) = heredocOpener (after ++ p) := by
    show (if heredocAhead m spaced (after ++ p) then _ else _) = _
    rw [heredocAhead_append m spaced after stops, if_pos ahead]
  rw [List.cons_append, reads, heredocOpener_eq, heredocName_append after stops, ← length]
  -- the quote is closed behind the seam, or on no line
  obtain none | ⟨id, n, closed, long, q, hq, visible⟩ :=
    heredocName?_append_open (p := p) hopen hname
  · rw [none]
    exact .inl rfl
  · rw [closed]
    refine .inr ⟨_, id, _, rfl, ?_, q, ?_, visible⟩
    · conv => lhs; rw [split]
      rw [List.length_cons, List.length_append]
      omega
    · rw [show 1 + mark.length + n = mark.length + (n - 1) + 1 + 1 by omega,
        List.getElem?_cons_succ, List.getElem?_cons_succ]
      conv => lhs; arg 1; arg 1; rw [split]
      rw [List.append_assoc, List.getElem?_append_right (Nat.le_add_right _ _),
        Nat.add_sub_cancel_left]
      exact hq

/-! ## Ends of lines -/

theorem read_lineFeed (m : Memory) (spaced : Bool) (r : Text) :
    read m spaced '\n' r = .newline := rfl

/-- Only a line feed is the end of a line. -/
theorem read_ne_newline {c : Char} (hc : c ≠ '\n') (m : Memory) (spaced : Bool) (r : Text) :
    read m spaced c r ≠ .newline := by
  intro h
  have yields := yields_read m spaced c r
  rw [h] at yields
  cases yields with
  | newline lineFeed => exact hc lineFeed

/-- A token that is read is not the end of a line, nor that of the program; it is a comment only
behind its hash. -/
theorem kind_of_read {m : Memory} {spaced : Bool} {c : Char} {r : Text} {kind : TokenKind} {n : Nat}
    (h : read m spaced c r = .token kind n) :
    kind = .comment ∧ c = '#' ∨ kind ≠ .newline ∧ kind ≠ .eof ∧ kind ≠ .comment := by
  -- the kinds that each branch can give
  have branch := branch_read m spaced c r
  rw [h] at branch
  generalize htoken : Lexeme.token kind n = lexeme at branch
  cases branch with
  | newline | quoted | regexp => cases htoken
  | comment hash =>
    cases htoken
    exact .inl ⟨rfl, hash⟩
  | semicolon | number =>
    cases htoken
    exact .inr (by decide)
  | colon =>
    refine .inr ?_
    rcases kind_of_colon htoken.symm with rfl | rfl <;> decide
  | memberVar =>
    unfold memberVar at htoken
    split at htoken <;> cases htoken <;> exact .inr (by decide)
  | globalVar =>
    rw [kind_of_globalVar htoken.symm]
    exact .inr (by decide)
  | word =>
    rw [word_eq] at htoken
    unfold wordBefore at htoken
    split at htoken
    · cases htoken
      exact .inr (by decide)
    · split at htoken
      · cases htoken
        exact .inr ⟨nofun, nofun, nofun⟩
      · refine .inr ?_
        split at htoken <;> cases htoken <;> decide
  | percent =>
    unfold percent at htoken
    split at htoken
    · dsimp only at htoken
      split at htoken <;> cases htoken
    · cases htoken
      exact .inr (by decide)
  | char =>
    rw [kind_of_charLiteral htoken.symm]
    exact .inr (by decide)
  | operator =>
    cases operator_of_token htoken.symm
    exact .inr (by decide)

theorem kind_of_methodName? {c : Char} {r : Text} {kind : TokenKind} {n : Nat} {pending : Bool}
    (h : methodName? c r = some (kind, n, pending)) :
    kind ≠ .newline ∧ kind ≠ .eof ∧ kind ≠ .comment := by
  unfold methodName? at h
  split at h
  · dsimp only at h
    split at h
    · cases h
      decide
    · cases h
      decide
  · split at h
    · cases h
      decide
    · obtain ⟨_, -, heq⟩ := Option.map_eq_some_iff.1 h
      cases heq
      decide

/-- A line feed names no method. -/
theorem methodName?_lineFeed (r : Text) : methodName? '\n' r = none := by
  have no : operatorLength? methodOperators ('\n' :: r) = none :=
    (operatorLength?_append solid_methodOperators [] (stops_cons (by decide) r)).trans rfl
  unfold methodName?
  rw [if_neg (by decide), if_neg (by decide), no]
  rfl

end Lexeme

end Marginalia.Source
