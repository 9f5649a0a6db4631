import Marginalia.Json.Parser
import Mathlib.Tactic.IntervalCases

/-!
# Reading what was written

A value on one line is read back as it was, and its text holds no line feed. The reader takes
numbers of 64 bits and a bounded number of levels, so the values are those that fit (`Fits`). A
number ends where its digits end; what is written behind a value, a comma or a bracket, does not go
on with it (`EndsNumber`).
-/

namespace Marginalia.JsonValue

/-! ## Strings -/

/-- A hexadecimal digit is read as what it stands for. -/
theorem hexValue?_hexDigit {n : Nat} (h : n < 16) : hexValue? (hexDigit n) = some n := by
  interval_cases n <;> rfl

/-- A control character is read back from its four digits. -/
theorem unicodeEscape?_control {n : Nat} (h : n < 0x20) (rest : Text) :
    unicodeEscape? ('0' :: '0' :: hexDigit (n / 16) :: hexDigit (n % 16) :: rest) =
      some (Char.ofNat n, 4) := by
  have zero : hexValue? '0' = some 0 := rfl
  have high : hexValue? (hexDigit (n / 16)) = some (n / 16) := hexValue?_hexDigit (by omega)
  have low : hexValue? (hexDigit (n % 16)) = some (n % 16) := hexValue?_hexDigit (by omega)
  have digits : fourDigits? ('0' :: '0' :: hexDigit (n / 16) :: hexDigit (n % 16) :: rest) =
      some n := by
    simp only [fourDigits?, zero, high, low, Option.bind_eq_bind, Option.bind_some, Option.pure_def]
    congr 1
    omega
  rw [unicodeEscape?, digits, Option.bind_eq_bind, Option.bind_some, if_neg (by omega),
    if_neg (by omega)]
  rfl

/-- An escape in a string is read as its character. -/
theorem stringBody?_escape {r : Text} {c : Char} {n : Nat} (h : escape? r = some (c, n)) :
    stringBody? 0 ('\\' :: r) =
      (stringBody? n r).map fun p => (c :: p.1, p.2) := by
  simp only [stringBody?, h]
  rfl

/-- A character is read back from its escaped form. -/
theorem stringBody?_escapeChar (c : Char) (rest : Text) :
    stringBody? 0 (escapeChar c ++ rest) =
      (stringBody? 0 rest).map fun p => (c :: p.1, p.2) := by
  unfold escapeChar
  simp only [beq_iff_eq]
  -- seven characters have an escape of two characters, the other controls one of six
  split
  · next h => subst h; rfl
  split
  · next h => subst h; rfl
  split
  · next h => subst h; rfl
  split
  · next h => subst h; rfl
  split
  · next h => subst h; rfl
  split
  · next h => subst h; rfl
  split
  · next h => subst h; rfl
  split
  · next control =>
    have escape : escape? ('u' :: '0' :: '0' :: hexDigit (c.toNat / 16) ::
        hexDigit (c.toNat % 16) :: rest) = some (c, 5) := by
      show (unicodeEscape? _).map _ = _
      rw [unicodeEscape?_control control, Char.ofNat_toNat]
      rfl
    exact stringBody?_escape escape
  · next quote backslash _ _ _ _ _ printable =>
    rw [List.singleton_append]
    simp only [stringBody?, beq_iff_eq]
    rw [if_neg quote, if_neg backslash, if_neg printable]

/-- A text that is escaped is read back up to the closing quote. -/
theorem stringBody?_flatMap (t rest : Text) :
    stringBody? 0 (t.flatMap escapeChar ++ '"' :: rest) = some (t, rest) := by
  induction t with
  | nil => rfl
  | cons c t ih =>
    rw [List.flatMap_cons, List.append_assoc, stringBody?_escapeChar, ih]
    rfl

theorem quote_append (t rest : Text) :
    quote t ++ rest = '"' :: (t.flatMap escapeChar ++ '"' :: rest) := by
  simp [quote]

/-! ## Numbers -/

/-- A text does not go on with a number that stands before it. -/
def EndsNumber (rest : Text) : Prop :=
  ∀ c, rest.head? = some c → c.isDigit = false ∧ c ≠ '.' ∧ c ≠ 'e' ∧ c ≠ 'E'

theorem endsNumber_cons {c : Char} (rest : Text)
    (h : c.isDigit = false ∧ c ≠ '.' ∧ c ≠ 'e' ∧ c ≠ 'E') : EndsNumber (c :: rest) := by
  intro d hd
  cases hd
  exact h

/-- A number is written with digits. -/
theorem isDigit_of_mem_ofNat {n : Nat} {c : Char} (h : c ∈ Text.ofNat n) : c.isDigit = true :=
  Nat.isDigit_of_mem_toDigits (by decide) (by decide) h

theorem ofNat_ne_nil (n : Nat) : Text.ofNat n ≠ [] := Nat.toDigits_ne_nil

/-- Only the digits of zero start with a zero. -/
theorem eq_zero_of_ofNat {n : Nat} {r : Text} (h : Text.ofNat n = '0' :: r) : n = 0 := by
  induction n using Nat.strongRecOn generalizing r with
  | ind n ih =>
    unfold Text.ofNat at h
    rw [Nat.toDigits_eq_if (by decide)] at h
    split at h
    · next small =>
      have digit : n.digitChar = '0' := (List.cons.inj h).1
      interval_cases n
      · rfl
      all_goals exact absurd digit (by decide)
    · next large =>
      cases hd : Nat.toDigits 10 (n / 10) with
      | nil => exact absurd hd Nat.toDigits_ne_nil
      | cons c s =>
        rw [hd] at h
        -- the first digit is also that of the number without its last digit
        have head : c = '0' := (List.cons.inj h).1
        have := ih (n / 10) (by omega) (head ▸ hd)
        omega

/-- The digits of a number are those that were written. -/
theorem digitsOf_ofNat (n : Nat) {rest : Text} (h : EndsNumber rest) :
    digitsOf (Text.ofNat n ++ rest) = Text.ofNat n := by
  have none : rest.takeWhile Char.isDigit = [] := by
    cases rest with
    | nil => rfl
    | cons c r => rw [List.takeWhile_cons_of_neg (by rw [(h c rfl).1]; nofun)]
  rw [digitsOf, List.takeWhile_append_of_pos fun c hc => isDigit_of_mem_ofNat hc, none,
    List.append_nil]

/-- The digits of a number are accepted, without a zero too many. -/
theorem wholeDigits?_ofNat (n : Nat) {rest : Text} (h : EndsNumber rest) :
    wholeDigits? (Text.ofNat n ++ rest) = some (Text.ofNat n) := by
  rw [wholeDigits?, digitsOf_ofNat n h]
  split
  · next empty => exact absurd empty (ofNat_ne_nil n)
  · next zero =>
    rw [eq_zero_of_ofNat zero]
    rfl
  · rfl

/-- A number of 64 bits is read back from its digits. -/
theorem unsigned?_ofNat {negative : Bool} {n : Nat} {rest : Text} (h : EndsNumber rest)
    (fits : (if negative then 0 < n && n ≤ 0x8000000000000000 else n ≤ maxWord : Bool) = true) :
    unsigned? negative (Text.ofNat n ++ rest) =
      some (.integer (if negative then -(n : Int) else n), rest) := by
  have value : Nat.ofDigitChars 10 (Text.ofNat n) 0 = n := Nat.ofDigitChars_ten_toDigits
  simp only [unsigned?, wholeDigits?_ofNat n h, Option.bind_eq_bind, Option.bind_some,
    List.drop_left, value]
  cases rest with
  | nil => simp [fits]
  | cons c r =>
    obtain ⟨-, point, small, large⟩ := h c rfl
    simp [fits, point, small, large]

/-- The first digit of a number. -/
theorem exists_ofNat (n : Nat) : ∃ c r, Text.ofNat n = c :: r ∧ c.isDigit = true := by
  cases h : Text.ofNat n with
  | nil => exact absurd h (ofNat_ne_nil n)
  | cons c r => exact ⟨c, r, rfl, isDigit_of_mem_ofNat (h ▸ List.mem_cons_self)⟩

/-- A digit is none of the other characters. -/
theorem ne_of_isDigit {c d : Char} (h : c.isDigit = true) (hd : d.isDigit = false) : c ≠ d := by
  rintro rfl
  rw [h] at hd
  cases hd

/-- A whole number is read back from its digits and its sign. -/
theorem number?_ofInt {n : Int} {rest : Text} (h : EndsNumber rest)
    (low : -0x8000000000000000 ≤ n) (high : n < UInt64.size) :
    number? (Text.ofInt n ++ rest) = some (.integer n, rest) := by
  unfold Text.ofInt
  -- the sign is written, or the first digit shows that there is none
  split
  · next negative =>
    have fits : (0 < n.natAbs && n.natAbs ≤ 0x8000000000000000 : Bool) = true := by
      simp only [Bool.and_eq_true, decide_eq_true_eq]
      omega
    have same : -(n.natAbs : Int) = n := by omega
    show unsigned? true (Text.ofNat n.natAbs ++ rest) = _
    rw [@unsigned?_ofNat true _ _ h fits, if_pos rfl, same]
  · next positive =>
    obtain ⟨c, r, hdigits, hc⟩ := exists_ofNat n.natAbs
    have fits : (n.natAbs ≤ maxWord : Bool) = true := by
      unfold maxWord
      rw [decide_eq_true_eq]
      omega
    have same : (n.natAbs : Int) = n := by omega
    have unsigned : number? (Text.ofNat n.natAbs ++ rest) =
        unsigned? false (Text.ofNat n.natAbs ++ rest) := by
      rw [hdigits, List.cons_append]
      unfold number?
      split
      · next sign =>
        have : c = '-' := (List.cons.inj sign).1
        exact absurd this (ne_of_isDigit hc rfl)
      · rfl
    rw [unsigned, @unsigned?_ofNat false _ _ h fits]
    show some (JsonValue.integer (n.natAbs : Int), rest) = _
    rw [same]

/-! ## Values -/

/-- What the reader takes: whole numbers of 64 bits, and at most `depth` levels. -/
inductive Fits : Nat → JsonValue → Prop where
  | null {depth : Nat} : Fits depth .null
  | bool {depth : Nat} (b : Bool) : Fits depth (.bool b)
  | integer {depth : Nat} {n : Int} (low : -0x8000000000000000 ≤ n) (high : n < UInt64.size) :
    Fits depth (.integer n)
  | string {depth : Nat} (t : Text) : Fits depth (.string t)
  | array {depth : Nat} {vs : List JsonValue} (elements : ∀ v ∈ vs, Fits depth v) :
    Fits (depth + 1) (.array vs)
  | object {depth : Nat} {ms : List (Text × JsonValue)} (members : ∀ m ∈ ms, Fits depth m.2) :
    Fits (depth + 1) (.object ms)

/-- A character with which a value may start; no blank and no closing bracket is one. -/
def StartsValue (c : Char) : Prop :=
  skipBlanks [c] = [c] ∧ c ≠ ']' ∧ c ≠ '}'

theorem skipBlanks_cons {c : Char} (h : skipBlanks [c] = [c]) (r : Text) :
    skipBlanks (c :: r) = c :: r := by
  unfold skipBlanks at h ⊢
  rw [List.dropWhile_cons] at h ⊢
  split at h
  · cases h
  · next visible => rw [if_neg visible]

/-- A digit starts a value. -/
theorem startsValue_of_isDigit {c : Char} (h : c.isDigit = true) : StartsValue c := by
  have visible : (c == ' ' || c == '\n' || c == '\t' || c == '\r') = false := by
    simp only [Bool.or_eq_false_iff, beq_eq_false_iff_ne]
    refine ⟨⟨⟨?_, ?_⟩, ?_⟩, ?_⟩
    all_goals exact ne_of_isDigit h rfl
  refine ⟨?_, ne_of_isDigit h rfl, ne_of_isDigit h rfl⟩
  rw [skipBlanks, List.dropWhile_cons, if_neg (by rw [visible]; nofun)]

/-- What is written for a value starts a value. -/
theorem Fits.exists_compact {depth : Nat} {v : JsonValue} (h : Fits depth v) :
    ∃ c r, v.compact = c :: r ∧ StartsValue c := by
  cases h with
  | null => exact ⟨_, _, rfl, rfl, by decide, by decide⟩
  | bool b =>
    cases b with
    | false => exact ⟨_, _, rfl, rfl, by decide, by decide⟩
    | true => exact ⟨_, _, rfl, rfl, by decide, by decide⟩
  | @integer _ n low high =>
    show ∃ c r, Text.ofInt n = c :: r ∧ _
    unfold Text.ofInt
    split
    · exact ⟨_, _, rfl, rfl, by decide, by decide⟩
    · obtain ⟨c, r, hdigits, hc⟩ := exists_ofNat n.natAbs
      exact ⟨c, r, hdigits, startsValue_of_isDigit hc⟩
  | string t => exact ⟨_, _, rfl, rfl, by decide, by decide⟩
  | array elements => exact ⟨_, _, rfl, rfl, by decide, by decide⟩
  | object members => exact ⟨_, _, rfl, rfl, by decide, by decide⟩

/-- Some elements start with the first. -/
theorem exists_compactElements (v : JsonValue) (vs : List JsonValue) :
    ∃ s, compactElements (v :: vs) = v.compact ++ s := by
  cases vs with
  | nil => exact ⟨[], by rw [compactElements, List.append_nil]⟩
  | cons w vs => exact ⟨_, rfl⟩

/-- Some members start with a quote. -/
theorem exists_compactMembers (m : Text × JsonValue) (ms : List (Text × JsonValue)) :
    ∃ s, compactMembers (m :: ms) = '"' :: s := by
  obtain ⟨k, v⟩ := m
  cases ms with
  | nil => exact ⟨_, rfl⟩
  | cons w ms => exact ⟨_, rfl⟩

/-- A value is read back from its text if there is fuel for each of its characters twice. -/
def ReadsBack (depth : Nat) (v : JsonValue) : Prop :=
  ∀ fuel rest, 2 * v.compact.length ≤ fuel → EndsNumber rest →
    value? fuel depth (v.compact ++ rest) = some (v, rest)

/-- The last element is followed by the closing bracket. -/
theorem elements?_last {fuel depth : Nat} {v : JsonValue} {t rest : Text}
    (h : value? fuel depth t = some (v, ']' :: rest)) :
    elements? (fuel + 1) depth t = some ([v], rest) := by
  rw [elements?, h]
  rfl

/-- Behind a comma the next element follows. -/
theorem elements?_comma {fuel depth : Nat} {v : JsonValue} {vs : List JsonValue} {t r rest : Text}
    (h : value? fuel depth t = some (v, ',' :: r))
    (tail : elements? fuel depth r = some (vs, rest)) :
    elements? (fuel + 1) depth t = some (v :: vs, rest) := by
  rw [elements?, h]
  show Option.map _ (elements? fuel depth r) = _
  rw [tail]
  rfl

section Members

variable {fuel depth : Nat} {k : Text} {v : JsonValue} {t r rest : Text}

/-- The last member is followed by the closing brace. -/
theorem members?_last (h : value? fuel depth t = some (v, '}' :: rest)) :
    members? (fuel + 1) depth (quote k ++ ':' :: t) = some ([(k, v)], rest) := by
  have opening (r : Text) : skipBlanks ('"' :: r) = '"' :: r := rfl
  have colon : skipBlanks (':' :: t) = ':' :: t := rfl
  have closing : skipBlanks ('}' :: rest) = '}' :: rest := rfl
  rw [quote_append, members?]
  simp only [opening, stringBody?_flatMap, colon, h, closing]

/-- Behind a comma the next member follows. -/
theorem members?_comma {ms : List (Text × JsonValue)} (h : value? fuel depth t = some (v, ',' :: r))
    (tail : members? fuel depth r = some (ms, rest)) :
    members? (fuel + 1) depth (quote k ++ ':' :: t) = some ((k, v) :: ms, rest) := by
  have opening (r : Text) : skipBlanks ('"' :: r) = '"' :: r := rfl
  have colon : skipBlanks (':' :: t) = ':' :: t := rfl
  have comma : skipBlanks (',' :: r) = ',' :: r := rfl
  rw [quote_append, members?]
  simp only [opening, stringBody?_flatMap, colon, h, comma, tail, Option.map_some]

end Members

/-- Elements that are each read back are read back together. -/
theorem elements?_compact {depth : Nat} {vs : List JsonValue} (hvs : vs ≠ [])
    (reads : ∀ v ∈ vs, ReadsBack depth v) {fuel : Nat}
    (hfuel : 2 * (compactElements vs).length + 1 ≤ fuel) (rest : Text) :
    elements? fuel depth (compactElements vs ++ ']' :: rest) = some (vs, rest) := by
  induction vs generalizing fuel with
  | nil => exact absurd rfl hvs
  | cons v vs ih =>
    -- one unit of fuel for the element, and the rest for its text and the elements behind it
    obtain ⟨fuel, rfl⟩ : ∃ n, fuel = n + 1 := ⟨fuel - 1, by omega⟩
    have read := reads v List.mem_cons_self
    cases vs with
    | nil =>
      simp only [compactElements] at hfuel ⊢
      exact elements?_last (read fuel _ (by omega) (endsNumber_cons _ (by decide)))
    | cons w vs =>
      simp only [compactElements, List.length_append, List.length_cons] at hfuel ⊢
      rw [List.append_assoc]
      apply elements?_comma (read fuel _ (by omega) (endsNumber_cons _ (by decide)))
      exact ih nofun (fun u hu => reads u (List.mem_cons_of_mem _ hu)) (by omega)

/-- Members that are each read back are read back together. -/
theorem members?_compact {depth : Nat} {ms : List (Text × JsonValue)} (hms : ms ≠ [])
    (reads : ∀ m ∈ ms, ReadsBack depth m.2) {fuel : Nat}
    (hfuel : 2 * (compactMembers ms).length + 1 ≤ fuel) (rest : Text) :
    members? fuel depth (compactMembers ms ++ '}' :: rest) = some (ms, rest) := by
  induction ms generalizing fuel with
  | nil => exact absurd rfl hms
  | cons m ms ih =>
    obtain ⟨k, v⟩ := m
    obtain ⟨fuel, rfl⟩ : ∃ n, fuel = n + 1 := ⟨fuel - 1, by omega⟩
    have read : ReadsBack depth v := reads (k, v) List.mem_cons_self
    cases ms with
    | nil =>
      simp only [compactMembers, List.length_append, List.length_cons] at hfuel ⊢
      rw [List.append_assoc]
      exact members?_last (read fuel _ (by omega) (endsNumber_cons _ (by decide)))
    | cons m ms =>
      simp only [compactMembers, List.length_append, List.length_cons] at hfuel ⊢
      rw [List.append_assoc, List.append_assoc]
      apply members?_comma (read fuel _ (by omega) (endsNumber_cons _ (by decide)))
      exact ih nofun (fun u hu => reads u (List.mem_cons_of_mem _ hu)) (by omega)

/-- What follows an opening bracket is read as the elements. -/
theorem value?_bracket {fuel depth : Nat} {c : Char} {vs : List JsonValue} {t rest : Text}
    (hc : StartsValue c) (h : elements? fuel depth (c :: t) = some (vs, rest)) :
    value? (fuel + 1) (depth + 1) ('[' :: c :: t) = some (.array vs, rest) := by
  have opening : skipBlanks ('[' :: c :: t) = '[' :: c :: t := rfl
  have inside : skipBlanks (c :: t) = c :: t := skipBlanks_cons hc.1 t
  have string : ('[' == '"') = false := rfl
  rw [value?, opening]
  dsimp only
  rw [string, if_neg Bool.false_ne_true, if_pos (beq_self_eq_true '['), inside]
  split
  · next closing => exact absurd (List.cons.inj closing).1 hc.2.1
  · rw [h]
    rfl

/-- What follows an opening brace is read as the members. -/
theorem value?_brace {fuel depth : Nat} {ms : List (Text × JsonValue)} {t rest : Text}
    (h : members? fuel depth ('"' :: t) = some (ms, rest)) :
    value? (fuel + 1) (depth + 1) ('{' :: '"' :: t) = some (.object ms, rest) := by
  have opening : skipBlanks ('{' :: '"' :: t) = '{' :: '"' :: t := rfl
  rw [value?, opening]
  show (members? fuel depth ('"' :: t)).map _ = _
  rw [h]
  rfl

/-- There is fuel for one step, since something is written for each value. -/
theorem Fits.exists_fuel {depth fuel : Nat} {v : JsonValue} (h : Fits depth v)
    (hfuel : 2 * v.compact.length ≤ fuel) : ∃ n, fuel = n + 1 := by
  obtain ⟨c, r, hcompact, -⟩ := h.exists_compact
  rw [hcompact, List.length_cons] at hfuel
  exact ⟨fuel - 1, by omega⟩

/-- What starts like a number is read as one. -/
theorem value?_number {fuel depth : Nat} {n : Int} {t rest : Text} {c : Char} {r : Text}
    (ht : t = c :: r) (hc : c = '-' ∨ c.isDigit = true) (h : number? t = some (.integer n, rest)) :
    value? (fuel + 1) depth t = some (.integer n, rest) := by
  have starts : StartsValue c := by
    rcases hc with rfl | hc
    · exact ⟨rfl, by decide, by decide⟩
    · exact startsValue_of_isDigit hc
  have other {d : Char} (hd : d.isDigit = false) (hminus : d ≠ '-') : c ≠ d := by
    rcases hc with rfl | hc
    · exact hminus.symm
    · exact ne_of_isDigit hc hd
  subst ht
  rw [value?, skipBlanks_cons starts.1]
  simp only [beq_iff_eq, Bool.or_eq_true]
  rw [if_neg (other rfl (by decide)), if_neg (other rfl (by decide)),
    if_neg (other rfl (by decide)), if_neg, h]
  rintro ((h | h) | h)
  all_goals exact other rfl (by decide) h

/-- Every value that fits is read back from its text. -/
theorem Fits.readsBack {depth : Nat} {v : JsonValue} (h : Fits depth v) : ReadsBack depth v := by
  -- on the levels of the value; that the fuel is positive is due to its first character
  induction h with
  | @null depth =>
    intro fuel rest hfuel _
    obtain ⟨fuel, rfl⟩ := (Fits.null : Fits depth _).exists_fuel hfuel
    rfl
  | @bool depth b =>
    intro fuel rest hfuel _
    obtain ⟨fuel, rfl⟩ := (Fits.bool b : Fits depth _).exists_fuel hfuel
    cases b
    · rfl
    · rfl
  | @integer depth n low high =>
    intro fuel rest hfuel hrest
    obtain ⟨fuel, rfl⟩ := (Fits.integer low high : Fits depth _).exists_fuel hfuel
    have read := number?_ofInt hrest low high
    show value? _ _ (Text.ofInt n ++ rest) = _
    unfold Text.ofInt at read ⊢
    split at read
    · next negative =>
      rw [if_pos negative]
      exact value?_number rfl (.inl rfl) read
    · next positive =>
      rw [if_neg positive]
      obtain ⟨c, r, hdigits, hc⟩ := exists_ofNat n.natAbs
      exact value?_number (by rw [hdigits, List.cons_append]) (.inr hc) read
  | @string depth t =>
    intro fuel rest hfuel _
    obtain ⟨fuel, rfl⟩ := (Fits.string t : Fits depth _).exists_fuel hfuel
    show value? _ _ (quote t ++ rest) = _
    rw [quote_append]
    show (stringBody? 0 _).map _ = _
    rw [stringBody?_flatMap]
    rfl
  | @array depth vs elements ih =>
    intro fuel rest hfuel _
    obtain ⟨fuel, rfl⟩ := (Fits.array elements).exists_fuel hfuel
    cases vs with
    | nil => rfl
    | cons v vs =>
      simp only [compact, List.length_cons, List.length_append] at hfuel
      have read : elements? fuel depth (compactElements (v :: vs) ++ ']' :: rest) =
          some (v :: vs, rest) :=
        elements?_compact (List.cons_ne_nil v vs) ih (by omega) rest
      obtain ⟨c, r, hcompact, hc⟩ := (elements v List.mem_cons_self).exists_compact
      obtain ⟨s, hs⟩ := exists_compactElements v vs
      have written : compactElements (v :: vs) ++ ']' :: rest = c :: (r ++ s ++ ']' :: rest) := by
        rw [hs, hcompact, List.cons_append, List.cons_append]
      rw [compact, List.cons_append, List.cons_append, List.append_assoc, List.singleton_append,
        written]
      exact value?_bracket hc (written ▸ read)
  | @object depth ms members ih =>
    intro fuel rest hfuel _
    obtain ⟨fuel, rfl⟩ := (Fits.object members).exists_fuel hfuel
    cases ms with
    | nil => rfl
    | cons m ms =>
      simp only [compact, List.length_cons, List.length_append] at hfuel
      have read : members? fuel depth (compactMembers (m :: ms) ++ '}' :: rest) =
          some (m :: ms, rest) :=
        members?_compact (List.cons_ne_nil m ms) ih (by omega) rest
      obtain ⟨s, hs⟩ := exists_compactMembers m ms
      have written : compactMembers (m :: ms) ++ '}' :: rest = '"' :: (s ++ '}' :: rest) := by
        rw [hs, List.cons_append]
      rw [compact, List.cons_append, List.cons_append, List.append_assoc, List.singleton_append,
        written]
      exact value?_brace (written ▸ read)

/-- A value that fits is read back from its text, also with blanks behind it. -/
theorem parse?_compact {v : JsonValue} (h : Fits maxDepth v) {blanks : Text}
    (hblanks : skipBlanks blanks = []) : parse? (v.compact ++ blanks) = some v := by
  -- a blank does not go on with a number
  have ends : EndsNumber blanks := by
    intro c hc
    cases blanks with
    | nil => cases hc
    | cons d r =>
      cases hc
      unfold skipBlanks at hblanks
      rw [List.dropWhile_cons] at hblanks
      split at hblanks
      · next blank =>
        simp only [Bool.or_eq_true, beq_iff_eq] at blank
        rcases blank with ((rfl | rfl) | rfl) | rfl
        all_goals decide
      · cases hblanks
  have read := h.readsBack (2 * (v.compact ++ blanks).length + 2) blanks
    (by rw [List.length_append]; omega) ends
  rw [parse?, read]
  simp only [hblanks, List.isEmpty_nil, if_true]

/-! ## One line -/

/-- No digit is a line feed. -/
theorem hexDigit_ne_lineFeed {n : Nat} (h : n < 16) : hexDigit n ≠ '\n' := by
  interval_cases n <;> decide

theorem lineFeed_notMem_escapeChar (c : Char) : '\n' ∉ escapeChar c := by
  unfold escapeChar
  simp only [beq_iff_eq]
  split
  · decide
  split
  · decide
  split
  · decide
  split
  · decide
  split
  · decide
  split
  · decide
  split
  · decide
  split
  · next control =>
    have high : hexDigit (c.toNat / 16) ≠ '\n' := hexDigit_ne_lineFeed (by omega)
    have low : hexDigit (c.toNat % 16) ≠ '\n' := hexDigit_ne_lineFeed (by omega)
    simp [high.symm, low.symm]
  · next _ _ lineFeed _ _ _ _ _ =>
    rw [List.mem_singleton]
    exact fun h => lineFeed h.symm

theorem lineFeed_notMem_quote (t : Text) : '\n' ∉ quote t := by
  have inside : '\n' ∉ t.flatMap escapeChar := by
    rw [List.mem_flatMap]
    rintro ⟨c, -, hc⟩
    exact lineFeed_notMem_escapeChar c hc
  simp [quote, inside]

theorem lineFeed_notMem_ofInt (n : Int) : '\n' ∉ Text.ofInt n := by
  have digits (m : Nat) : '\n' ∉ Text.ofNat m := fun h => nomatch isDigit_of_mem_ofNat h
  unfold Text.ofInt
  split
  · simp [digits]
  · exact digits _

theorem lineFeed_notMem_compactElements {vs : List JsonValue} (h : ∀ v ∈ vs, '\n' ∉ v.compact) :
    '\n' ∉ compactElements vs := by
  induction vs with
  | nil => exact List.not_mem_nil
  | cons v vs ih =>
    have first := h v List.mem_cons_self
    cases vs with
    | nil => exact first
    | cons w vs =>
      have rest := ih fun u hu => h u (List.mem_cons_of_mem _ hu)
      simp [compactElements, first, rest]

theorem lineFeed_notMem_compactMembers {ms : List (Text × JsonValue)}
    (h : ∀ m ∈ ms, '\n' ∉ m.2.compact) : '\n' ∉ compactMembers ms := by
  induction ms with
  | nil => exact List.not_mem_nil
  | cons m ms ih =>
    obtain ⟨k, v⟩ := m
    have first : '\n' ∉ v.compact := h (k, v) List.mem_cons_self
    have key := lineFeed_notMem_quote k
    cases ms with
    | nil => simp [compactMembers, first, key]
    | cons m ms =>
      have rest := ih fun u hu => h u (List.mem_cons_of_mem _ hu)
      simp [compactMembers, first, key, rest]

/-- The text of a value is one line. -/
theorem Fits.lineFeed_notMem {depth : Nat} {v : JsonValue} (h : Fits depth v) :
    '\n' ∉ v.compact := by
  induction h with
  | null => decide
  | bool b => cases b <;> decide
  | @integer _ n low high => exact lineFeed_notMem_ofInt n
  | string t => exact lineFeed_notMem_quote t
  | array elements ih => simp [compact, lineFeed_notMem_compactElements ih]
  | object members ih => simp [compact, lineFeed_notMem_compactMembers ih]

end Marginalia.JsonValue
