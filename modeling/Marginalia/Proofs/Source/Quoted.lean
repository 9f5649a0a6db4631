import Mathlib.Data.Nat.Find
import Marginalia.Proofs.Source.Bodies
import Marginalia.Proofs.Source.LineTail
import Marginalia.Proofs.Source.Narrow

/-!
# Where literals without interpolations end

Of such a literal a backslash takes the next character with it, the pairs of its brackets nest, and
it ends behind the first closing delimiter that is neither escaped nor the end of a pair inside
(`Delimiters.ClosesAt`). One delimiter is read by a rule of its own: a slash between square brackets
ends no literal, as in a regexp, whatever kind the literal is of (`Delimiters.StopsAt`).
-/

namespace Marginalia.Source

/-! ## Places in a literal -/

/-- The characters of a text that are part of no escape, each at its place. A backslash takes the
next character with it. -/
def unescaped : Text → List (Option Char)
  | [] => []
  | ['\\'] => [none]
  | '\\' :: _ :: r => none :: none :: unescaped r
  | c :: r => some c :: unescaped r

/-- A place is the first one with a property. -/
def First (P : Nat → Prop) (k : Nat) : Prop := P k ∧ ∀ j < k, ¬ P j

/-- Whether a class is open behind a character, given whether one is open before it. -/
def classAfter (inside : Bool) (c : Option Char) : Bool :=
  if c = some '[' then true else if c = some ']' then false else inside

/-- Whether a class is open behind some characters: the last of their square brackets opens one. -/
def classOpen (inside : Bool) (u : List (Option Char)) : Bool := u.foldl classAfter inside

namespace Delimiters

/-- Whether a character opens a pair. -/
def opens (d : Delimiters) (c : Option Char) : Bool := c.any fun x => d.opener == some x

/-- A closing delimiter stands at the place `k`, and before it as many pairs are closed as are
opened; `depth` of them are open at the start. -/
structure ClosesAt (d : Delimiters) (depth : Nat) (u : List (Option Char)) (k : Nat) : Prop where
  close : u[k]? = some (some d.close)
  level : (u.take k).countP (· == some d.close) = depth + (u.take k).countP d.opens

/-- A slash stands at the place `k`, and no class is open there. -/
structure ClosesApart (inside : Bool) (u : List (Option Char)) (k : Nat) : Prop where
  close : u[k]? = some (some '/')
  apart : classOpen inside (u.take k) = false

/-- A delimiter stands at the place `k` that ends the literal if none does before: a slash outside
of classes, or another delimiter outside of pairs. -/
def StopsAt (d : Delimiters) (u : List (Option Char)) (k : Nat) : Prop :=
  if d.hasClasses then ClosesApart false u k else d.ClosesAt 0 u k

end Delimiters

instance (P : Nat → Prop) [DecidablePred P] (k : Nat) : Decidable (First P k) :=
  inferInstanceAs (Decidable (P k ∧ ∀ j < k, ¬ P j))

instance (d : Delimiters) (depth : Nat) (u : List (Option Char)) :
    DecidablePred (d.ClosesAt depth u) :=
  fun _ => decidable_of_iff (_ ∧ _) ⟨fun h => ⟨h.1, h.2⟩, fun h => ⟨h.close, h.level⟩⟩

instance (inside : Bool) (u : List (Option Char)) :
    DecidablePred (Delimiters.ClosesApart inside u) :=
  fun _ => decidable_of_iff (_ ∧ _) ⟨fun h => ⟨h.1, h.2⟩, fun h => ⟨h.close, h.apart⟩⟩

instance (d : Delimiters) (u : List (Option Char)) : DecidablePred (d.StopsAt u) := fun k =>
  inferInstanceAs (Decidable
    (if d.hasClasses then Delimiters.ClosesApart false u k else d.ClosesAt 0 u k))

/-- There is one first number. -/
theorem First.unique {P : Nat → Prop} {j k : Nat} (hj : First P j) (hk : First P k) : j = k := by
  rcases Nat.lt_trichotomy j k with lt | eq | lt
  · exact absurd hj.1 (hk.2 j lt)
  · exact eq
  · exact absurd hk.1 (hj.2 k lt)

/-- Where there is a number there is a first one. -/
theorem exists_first {P : Nat → Prop} (h : ∃ k, P k) : ∃ k, First P k := by
  classical
  exact ⟨Nat.find h, Nat.find_spec h, fun _ => Nat.find_min h⟩

theorem unescaped_backslash (c : Char) (r : Text) :
    unescaped ('\\' :: c :: r) = none :: none :: unescaped r := rfl

theorem unescaped_cons {c : Char} (hc : c ≠ '\\') (r : Text) :
    unescaped (c :: r) = some c :: unescaped r := by
  rw [unescaped]
  · exact fun h _ => hc h
  · exact fun _ _ h _ => hc h

/-- Each character has its place. -/
theorem length_unescaped (t : Text) : (unescaped t).length = t.length := by
  induction t using Delimiters.read_induction with
  | nil => rfl
  | lone => rfl
  | backslash e r ih => exact congrArg (· + 2) ih
  | cons c r hc ih =>
    rw [unescaped_cons hc]
    exact congrArg (· + 1) ih

/-! ## Reading -/

/-- How reading stops, told by the places at which a literal ends: it stops behind the first of
them. -/
def LiteralStop.Behind (P : Nat → Prop) : LiteralStop → Prop
  | .closed n => ∃ k, n = k + 1 ∧ First P k
  | .unterminated => ∀ k, ¬ P k
  | _ => False

/-- One character is passed that ends nothing. -/
theorem LiteralStop.Behind.after_one {P Q : Nat → Prop} {stop : LiteralStop} (h : stop.Behind Q)
    (here : ¬ P 0) (later : ∀ k, P (k + 1) ↔ Q k) : (stop.after 1).Behind P := by
  cases stop with
  | closed n =>
    obtain ⟨k, rfl, hk, before⟩ := h
    refine ⟨k + 1, Nat.add_comm .., (later k).2 hk, fun j hj => ?_⟩
    cases j with
    | zero => exact here
    | succ j => exact mt (later j).1 (before j (Nat.lt_of_succ_lt_succ hj))
  | unterminated =>
    intro k
    cases k with
    | zero => exact here
    | succ k => exact mt (later k).1 (h k)
  | interpolation => exact h
  | split => exact h

namespace Delimiters

variable {d : Delimiters} {depth deeper : Nat} {inside : Bool} {u : List (Option Char)}
  {c : Option Char}

theorem opens_some (c : Char) : d.opens (some c) = (d.opener == some c) := rfl

/-- What is no closer does not close a literal. -/
theorem not_closesAt_zero (hc : c ≠ some d.close) : ¬ d.ClosesAt depth (c :: u) 0 :=
  fun h => hc (Option.some.inj h.close)

/-- Behind an opener one pair more is open, and behind a closing delimiter one less. -/
theorem closesAt_succ (levels : depth + (if d.opens c then 1 else 0) =
      deeper + if c == some d.close then 1 else 0) (k : Nat) :
    d.ClosesAt depth (c :: u) (k + 1) ↔ d.ClosesAt deeper u k := by
  have level : ((c :: u).take (k + 1)).countP (· == some d.close) =
        depth + ((c :: u).take (k + 1)).countP d.opens ↔
      (u.take k).countP (· == some d.close) = deeper + (u.take k).countP d.opens := by
    rw [List.take_succ_cons, List.countP_cons, List.countP_cons]
    omega
  exact ⟨fun h => ⟨h.close, level.1 h.level⟩, fun h => ⟨h.close, level.2 h.level⟩⟩

/-- What is no slash, or stands in a class, does not close a pattern. -/
theorem not_closesApart_zero (hc : c ≠ some '/' ∨ inside) : ¬ ClosesApart inside (c :: u) 0 := by
  intro h
  rcases hc with hc | open'
  · exact hc (Option.some.inj h.close)
  · exact Bool.false_ne_true (h.apart.symm.trans open')

/-- A pattern is closed behind its first character. -/
theorem closesApart_succ (k : Nat) : ClosesApart inside (c :: u) (k + 1) ↔
    ClosesApart (classAfter inside c) u k :=
  ⟨fun h => ⟨h.close, h.apart⟩, fun h => ⟨h.close, h.apart⟩⟩

/-- Delimiters that are no slash: reading keeps the account of the pairs that are open. -/
theorem read_behind_closesAt (narrow : d.Narrow) (code : d.interpolates = false)
    (plain : d.hasClasses = false) (pair : d.opener ≠ some d.close) (t : Text) :
    (d.read depth false t).Behind (d.ClosesAt depth (unescaped t)) := by
  -- along the reading, with the depth that has been come to
  induction t using read_induction generalizing depth with
  | nil =>
    rw [read_nil]
    exact fun _ h => nomatch h.close
  | lone =>
    rw [read_lone]
    intro k h
    cases k with
    | zero => exact nomatch h.close
    | succ k => exact nomatch h.close
  | backslash e r ih =>
    rw [read_backslash, unescaped_backslash, show (2 : Nat) = 1 + 1 from rfl,
      ← LiteralStop.after_after]
    have here : ∀ {v}, ¬ d.ClosesAt depth (none :: v) 0 :=
      not_closesAt_zero (Option.some_ne_none _).symm
    exact (ih.after_one here (closesAt_succ rfl)).after_one here (closesAt_succ rfl)
  | cons c r hc ih =>
    rw [read_cons hc, unescaped_cons hc]
    unfold next
    rw [code, plain, Bool.and_false, Bool.and_false, Bool.and_false, Bool.false_and,
      if_neg Bool.false_ne_true, if_neg Bool.false_ne_true, if_neg Bool.false_ne_true]
    by_cases opening : d.opener = some c
    · have other : c ≠ d.close := fun h => pair (h ▸ opening)
      rw [if_pos (beq_iff_eq.2 opening)]
      refine ih.after_one (not_closesAt_zero (mt Option.some.inj other)) (closesAt_succ ?_)
      rw [opens_some, beq_iff_eq.2 opening, beq_false_of_ne (mt Option.some.inj other)]
      rfl
    have noOpener : (d.opener == some c) = false := beq_false_of_ne opening
    rw [noOpener, if_neg Bool.false_ne_true]
    by_cases closing : c = d.close
    · subst closing
      rw [(closes_iff narrow).2 rfl, Bool.not_false, Bool.and_true, if_pos rfl]
      -- the closer of an inner pair only lowers the depth
      cases depth with
      | zero =>
        rw [narrow.1]
        exact ⟨0, rfl, ⟨rfl, rfl⟩, nofun⟩
      | succ n =>
        refine ih.after_one (fun h => nomatch h.level) (closesAt_succ ?_)
        rw [opens_some, noOpener, beq_self_eq_true]
        rfl
    · rw [Bool.eq_false_iff.2 (mt (closes_iff narrow).1 closing), Bool.false_and,
        if_neg Bool.false_ne_true]
      refine ih.after_one (not_closesAt_zero (mt Option.some.inj closing)) (closesAt_succ ?_)
      rw [opens_some, noOpener, beq_false_of_ne (mt Option.some.inj closing)]

/-- A slash as the delimiter: square brackets are the classes of a regexp. -/
theorem read_behind_closesApart (t : Text) :
    ((⟨'/', none, false⟩ : Delimiters).read 0 inside t).Behind
    (ClosesApart inside (unescaped t)) := by
  -- along the reading, with the class that is open so far
  induction t using read_induction generalizing inside with
  | nil =>
    rw [read_nil]
    exact fun _ h => nomatch h.close
  | lone =>
    rw [read_lone]
    intro k h
    cases k with
    | zero => exact nomatch h.close
    | succ k => exact nomatch h.close
  | backslash e r ih =>
    rw [read_backslash, unescaped_backslash, show (2 : Nat) = 1 + 1 from rfl,
      ← LiteralStop.after_after]
    have here : ∀ {v}, ¬ ClosesApart inside (none :: v) 0 :=
      not_closesApart_zero (.inl (Option.some_ne_none _).symm)
    exact (ih.after_one here closesApart_succ).after_one here closesApart_succ
  | cons c r hc ih =>
    rw [read_cons hc, unescaped_cons hc]
    have closes : (⟨'/', none, false⟩ : Delimiters).closes c ↔ c = '/' :=
      closes_iff (d := ⟨'/', none, false⟩) (narrow_ofOpening (c := '/') rfl false)
    have goes : ∀ {b}, classAfter inside (some c) = b →
      ¬ ClosesApart inside (some c :: unescaped r) 0 →
        (((⟨'/', none, false⟩ : Delimiters).read 0 b r).after 1).Behind
          (ClosesApart inside (some c :: unescaped r)) := by
      intro b hb here
      subst hb
      exact ih.after_one here closesApart_succ
    have classes : (⟨'/', none, false⟩ : Delimiters).hasClasses = true := rfl
    unfold next
    rw [classes, Bool.and_false, Bool.false_and, if_neg Bool.false_ne_true, Bool.and_true,
      Bool.and_true]
    by_cases opening : c = '['
    · subst opening
      exact goes rfl (not_closesApart_zero (.inl (by decide)))
    rw [if_neg (mt beq_iff_eq.1 opening)]
    by_cases closing : c = ']'
    · subst closing
      exact goes rfl (not_closesApart_zero (.inl (by decide)))
    rw [if_neg (mt beq_iff_eq.1 closing)]
    have outside : classAfter inside (some c) = inside := by
      rw [classAfter, if_neg (mt Option.some.inj opening), if_neg (mt Option.some.inj closing)]
    by_cases slash : c = '/'
    · subst slash
      cases inside with
      | true => exact goes outside (not_closesApart_zero (.inr rfl))
      | false => exact ⟨0, rfl, ⟨rfl, rfl⟩, nofun⟩
    · rw [Bool.eq_false_iff.2 (mt closes.1 slash)]
      exact goes outside (not_closesApart_zero (.inl (mt Option.some.inj slash)))

/-- Brackets pair; a slash does not. -/
theorem ofOpening_cases (c : Char) :
    (ofOpening c false).interpolates = false ∧ (ofOpening c false).opener ≠
      some (ofOpening c false).close ∧
        ((ofOpening c false).hasClasses → ofOpening c false = ⟨'/', none, false⟩) := by
  unfold ofOpening
  split
  case h_5 =>
    refine ⟨rfl, (Option.some_ne_none _).symm, fun h => ?_⟩
    rw [show c = '/' from beq_iff_eq.1 h]
  all_goals exact ⟨rfl, by decide, fun h => absurd h (by decide)⟩

/-- Reading stops behind the first delimiter that ends a literal. -/
theorem read_behind_stopsAt {c : Char} (hc : isWide c = false) (t : Text) :
    ((ofOpening c false).read 0 false t).Behind ((ofOpening c false).StopsAt (unescaped t)) := by
  unfold StopsAt
  obtain ⟨code, pair, slash⟩ := ofOpening_cases c
  cases classes : (ofOpening c false).hasClasses with
  | false => exact read_behind_closesAt (narrow_ofOpening hc false) code classes pair t
  | true =>
    rw [slash classes]
    exact read_behind_closesApart t

/-- A literal stops within the text. -/
theorem StopsAt.lt {k : Nat} (h : d.StopsAt u k) : k < u.length := by
  unfold StopsAt at h
  split at h
  · exact (List.getElem?_eq_some_iff.1 h.close).1
  · exact (List.getElem?_eq_some_iff.1 h.close).1

/-- The first of all slashes closes no pair, for a slash has none. -/
theorem first_closesAt_slash {k : Nat} :
    First (ClosesAt ⟨'/', none, false⟩ 0 u) k ↔ First (fun k => u[k]? = some (some '/')) k := by
  have unpaired : ∀ v : List (Option Char), v.countP (opens ⟨'/', none, false⟩) = 0 := fun v =>
    List.countP_eq_zero.2 fun c _ h => by cases c <;> cases h
  have none_of_first :
      ∀ {k}, (∀ j < k, u[j]? ≠ some (some '/')) → (u.take k).countP (· == some '/') = 0 := by
    intro k before
    refine List.countP_eq_zero.2 fun c hc h => ?_
    obtain ⟨j, hj, hget⟩ := List.mem_take_iff_getElem.1 hc
    refine before j (by omega) ?_
    rw [List.getElem?_eq_getElem (by omega), hget, beq_iff_eq.1 h]
  have closes : ∀ {k}, First (fun k => u[k]? = some (some '/')) k →
      First (ClosesAt ⟨'/', none, false⟩ 0 u) k := by
    rintro k ⟨here, before⟩
    refine ⟨⟨here, ?_⟩, fun j hj h => before j hj h.close⟩
    rw [unpaired]
    exact none_of_first before
  refine ⟨fun h => ?_, closes⟩
  obtain ⟨j, first⟩ := exists_first (P := fun k => u[k]? = some (some '/')) ⟨k, h.1.close⟩
  exact h.unique (closes first) ▸ first

/-- A slash ends a literal where another delimiter would, unless the first one is in a class. -/
theorem first_stopsAt_iff (slash : d.hasClasses → d = ⟨'/', none, false⟩) :
    (∀ k, First (d.ClosesAt 0 u) k ↔ First (d.StopsAt u) k) ↔
      ¬ (d.hasClasses ∧ ∃ k, First (d.ClosesAt 0 u) k ∧ classOpen false (u.take k)) := by
  unfold StopsAt
  cases classes : d.hasClasses with
  | false => simp
  | true =>
    have slash := slash classes
    subst slash
    simp only [if_pos, first_closesAt_slash]
    constructor
    · rintro same ⟨-, k, first, inside⟩
      exact Bool.false_ne_true (((same k).1 first).1.apart.symm.trans inside)
    · intro outside
      have stops : ∀ {k}, First (fun k => u[k]? = some (some '/')) k →
          First (ClosesApart false u) k := by
        intro k first
        refine ⟨⟨first.1, ?_⟩, fun j hj h => first.2 j hj h.close⟩
        exact Bool.eq_false_iff.2 fun inside => outside ⟨trivial, k, first, inside⟩
      refine fun k => ⟨stops, fun h => ?_⟩
      obtain ⟨j, first⟩ := exists_first (P := fun k => u[k]? = some (some '/')) ⟨k, h.1.close⟩
      exact h.unique (stops first) ▸ first

end Delimiters

/-! ## Openers -/

/-- The ASCII characters that are neither letters nor digits nor blanks. -/
def isPunctuation (c : Char) : Bool := '!' ≤ c && c ≤ '~' && !c.isAlphanum

/-- The openers of the literals without interpolations, with their delimiters, where the tokenizer
remembers `m`: a single quote, a symbol in single quotes, and `%` with a letter and a delimiter,
where a literal can stand. -/
inductive OpensQuoted (m : Memory) (spaced : Bool) : Text → Delimiters → Prop where
  | quote : OpensQuoted m spaced ['\''] (.ofOpening '\'' false)
  | symbol : OpensQuoted m spaced [':', '\''] (.ofOpening '\'' false)
  | percent {letter delimiter : Char} (kind : letter ∈ ['q', 'w', 'i', 's'])
      (punctuation : isPunctuation delimiter) (other : delimiter ≠ '\\')
      (place : m.literalPosition spaced (some letter)) (unnamed : m.namesMethod = false) :
      OpensQuoted m spaced ['%', letter, delimiter] (.ofOpening delimiter false)

/-- A punctuation mark delimits a percent literal. -/
theorem isPercentDelimiter_of_isPunctuation {c : Char} (h : isPunctuation c) :
    Lexeme.isPercentDelimiter c ∧ isWide c = false := by
  unfold isPunctuation at h
  rw [Bool.and_eq_true, Bool.and_eq_true, decide_eq_true_iff, decide_eq_true_iff] at h
  obtain ⟨⟨low, high⟩, other⟩ := h
  have low : 0x21 ≤ c.toNat := low
  have high : c.toNat ≤ 0x7e := high
  refine ⟨?_, ?_⟩
  · unfold Lexeme.isPercentDelimiter
    rw [other, Bool.true_and, Bool.not_eq_true']
    refine Bool.eq_false_iff.2 fun blank => ?_
    rcases isAsciiBlank_cases blank with rfl | rfl | rfl | rfl | rfl <;> exact absurd low
      (by decide)
  · unfold isWide
    simpa using Nat.lt_of_le_of_lt high (by decide)

/-- What opens a quoted literal tells what closes it. -/
theorem OpensQuoted.ofOpening {m : Memory} {spaced : Bool} {opener : Text} {d : Delimiters}
    (h : OpensQuoted m spaced opener d) : ∃ c, d = .ofOpening c false ∧ isWide c = false := by
  cases h with
  | quote => exact ⟨_, rfl, by decide⟩
  | symbol => exact ⟨_, rfl, by decide⟩
  | percent _ punctuation => exact ⟨_, rfl, (isPercentDelimiter_of_isPunctuation punctuation).2⟩

namespace Tokenizer

variable {s : Tokenizer} {opener t : Text} {d : Delimiters}

/-- The literal of `n` characters at the place of a state. -/
def literal (s : Tokenizer) (n : Nat) : Token :=
  s.cut .literal (s.cursor.rest.take n) (s.cursor.advance n)

/-- Takes a literal of `n` characters. -/
def takeLiteral (s : Tokenizer) (n : Nat) : Step :=
  { s.unnamed with cursor := s.cursor.advance n }.record (s.literal n)

/-- A step takes a literal that ends behind the first of some places behind its opener; it is
refused as unterminated if there is no such place. -/
structure EndsBehind (s : Tokenizer) (opener : Text) (P : Nat → Prop) : Prop where
  ends : ∀ k, First P k → s.step = s.takeLiteral (opener.length + (k + 1))
  never : s.step = refuse [] s.cursor.line .unterminatedLiteral ↔ ∀ k, ¬ P k

/-- What opens a quoted literal is read as its opener. -/
theorem read_of_opensQuoted {m : Memory} {spaced : Bool} {c : Char} {r : Text}
    (h : OpensQuoted m spaced (c :: r) d) (t : Text) :
    Lexeme.read m spaced c (r ++ t) = .delimited r.length d false := by
  cases h with
  | quote => rfl
  | symbol => rfl
  | @percent letter delimiter kind punctuation _ place _ =>
    obtain ⟨isKind, plain, noFlags⟩ :
      Lexeme.isPercentKind letter = true ∧ (letter == 'Q' || letter == 'W' ||
        letter == 'I' || letter == 'r' || letter == 'x') = false ∧ (letter == 'r') = false := by
      simp only [List.mem_cons, List.not_mem_nil, or_false] at kind
      rcases kind with rfl | rfl | rfl | rfl <;> decide
    have test : ('%' == '%' && m.literalPosition spaced (letter :: delimiter :: t).head? &&
        Lexeme.percentAhead (letter :: delimiter :: t)) = true := by
      rw [List.head?_cons, place, beq_self_eq_true, Bool.true_and, Bool.true_and,
        Lexeme.percentAhead, if_pos isKind]
      exact (isPercentDelimiter_of_isPunctuation punctuation).1
    rw [List.cons_append, List.cons_append, List.nil_append]
    show (if _ then Lexeme.percent (letter :: delimiter :: t) else _) = _
    rw [if_pos test, Lexeme.percent, if_pos isKind, plain, noFlags]
    rfl

/-- Where the name of a method is waited for, the openers that are left are read as elsewhere. -/
theorem readToken_of_opensQuoted {c : Char} {r : Text}
    (h : OpensQuoted s.memory s.spaced (c :: r) d) (t : Text) :
    ∃ spaced, s.readToken c (r ++ t) = ({ s.unnamed with spaced := spaced }).readLexeme c (r ++ t) ∧
      OpensQuoted s.unnamed.memory spaced (c :: r) d := by
  cases named : s.memory.namesMethod with
  | false =>
    have memory : s.unnamed.memory = s.memory := by
      show { s.memory with namesMethod := false } = s.memory
      rw [← named]
    refine ⟨s.spaced, ?_, memory ▸ h⟩
    unfold readToken
    rw [named, if_neg Bool.false_ne_true]
    show s.readLexeme _ _ = Tokenizer.readLexeme { s with memory := s.unnamed.memory } _ _
    rw [memory]
  | true =>
    -- where the name of a method is read, a quote starts none, and a percent sign does not quote
    have notMethod : (c = '\'' ∨ c = ':') ∧ ∀ spaced,
        OpensQuoted s.unnamed.memory spaced (c :: r) d := by
      cases h with
      | quote => exact ⟨.inl rfl, fun _ => .quote⟩
      | symbol => exact ⟨.inr rfl, fun _ => .symbol⟩
      | percent _ _ _ _ unnamed => exact nomatch unnamed.symm.trans named
    have noName : Lexeme.methodName? c (r ++ t) = none := by
      rcases notMethod.1 with rfl | rfl
      · exact methodName?_eq_none (by decide) (by decide) (by decide) _
      · exact methodName?_eq_none (by decide) (by decide) (by decide) _
    obtain ⟨spaced, hread⟩ := readToken_unnamed (s := s) fun _ => noName
    exact ⟨spaced, hread, notMethod.2 spaced⟩

/-- At an opener a step reads on with the delimiters that it tells. -/
theorem step_of_opensQuoted (h : OpensQuoted s.memory s.spaced opener d)
    (hr : s.cursor.rest = opener ++ t) :
    ∃ spaced, s.step = ({ s.unnamed with
        spaced := spaced, cursor := s.cursor.advance opener.length }).readLiteral
      { source := s.cursor.rest, start := s.cursor.position, line := s.cursor.line, delimiters := d,
        flags := false } := by
  obtain ⟨c, r, rfl, visible, equal, join, other⟩ : ∃ c r, opener = c :: r ∧
      Text.isAsciiBlank c = false ∧ c ≠ '=' ∧ c ≠ '\\' ∧ c ≠ '_' := by
    cases h with
    | quote => exact ⟨_, _, rfl, by decide⟩
    | symbol => exact ⟨_, _, rfl, by decide⟩
    | percent => exact ⟨_, _, rfl, by decide⟩
  obtain ⟨spaced, hread, opens⟩ := readToken_of_opensQuoted h t
  refine ⟨spaced, ?_⟩
  rw [List.cons_append] at hr
  rw [step_eq_readToken hr (.inl visible) equal join (not_atEndMark hr other), hread]
  unfold readLexeme
  rw [show Lexeme.read _ spaced c (r ++ t) = _ from read_of_opensQuoted opens t]
  rfl

/-! ## The end of the literal -/

/-- What a cursor moves over. -/
theorem take_advance (c : Cursor) (n : Nat) :
    c.rest.take ((c.advance n).position - c.position) = c.rest.take n := by
  have measure := (Cursor.leads_advance n c).measure
  rw [Cursor.rest_advance, List.length_drop] at measure
  by_cases hn : n ≤ c.rest.length
  · rw [show (c.advance n).position - c.position = n from by omega]
  · rw [List.take_of_length_le (by omega), List.take_of_length_le (by omega)]

/-- Where reading stops behind the first of some places, the literal ends there. -/
theorem endsBehind_of_read {P : Nat → Prop} (h : OpensQuoted s.memory s.spaced opener d)
    (hr : s.cursor.rest = opener ++ t) (hread : (d.read 0 false t).Behind P) :
    s.EndsBehind opener P := by
  obtain ⟨spaced, hstep⟩ := step_of_opensQuoted h hr
  unfold readLiteral at hstep
  have rest : (s.cursor.advance opener.length).rest = t := by
    rw [Cursor.rest_advance, hr, List.drop_left]
  dsimp only at hstep
  rw [rest] at hstep
  -- what the reading says of the literal's end is what the step does
  cases stop : d.read 0 false t with
  | unterminated =>
    rw [stop] at hread hstep
    exact ⟨fun k hk => absurd hk.1 (hread k), fun _ => hread, fun _ => hstep⟩
  | closed n =>
    rw [stop] at hread hstep
    obtain ⟨k, rfl, hk⟩ := hread
    have taken : s.step = s.takeLiteral (opener.length + (k + 1)) := by
      rw [hstep]
      dsimp only
      rw [if_neg Bool.false_ne_true, ← Cursor.advance_add, take_advance]
      rfl
    refine ⟨fun j hj => hj.unique hk ▸ taken, fun never => ?_, fun never => absurd hk.1 (never k)⟩
    rw [taken] at never
    cases never
  | interpolation =>
    rw [stop] at hread
    exact hread.elim
  | split =>
    rw [stop] at hread
    exact hread.elim

/-- Literals of different lengths are different. -/
theorem takeLiteral_inj {m n : Nat} (hm : m ≤ s.cursor.rest.length) (hn : n ≤ s.cursor.rest.length)
    (h : s.takeLiteral m = s.takeLiteral n) : m = n := by
  have place : (s.cursor.advance m).position = (s.cursor.advance n).position :=
    congrArg (fun u : Tokenizer => u.cursor.position) (Step.next.inj h).2
  rw [advance_position _ _ hm, advance_position _ _ hn] at place
  omega

/-- Once it is known behind which places a literal ends, other places tell the same if and only if
they have the same first one. -/
theorem EndsBehind.iff_first {P Q : Nat → Prop} (h : s.EndsBehind opener Q)
    (hP : ∀ {k}, P k → opener.length + (k + 1) ≤ s.cursor.rest.length)
    (hQ : ∀ {k}, Q k → opener.length + (k + 1) ≤ s.cursor.rest.length) :
    s.EndsBehind opener P ↔ ∀ k, First P k ↔ First Q k := by
  constructor
  · intro h' k
    -- the step tells where the literal ends, so both conditions have their first place there
    have same : ∀ {i j}, First P i → First Q j → i = j := by
      intro i j hi hj
      have := takeLiteral_inj (hP hi.1) (hQ hj.1) ((h'.ends i hi).symm.trans (h.ends j hj))
      omega
    have refused : (∀ k, ¬ P k) ↔ ∀ k, ¬ Q k := h'.never.symm.trans h.never
    constructor
    · intro hk
      obtain ⟨j, hj⟩ := exists_first
        (Classical.not_forall_not.1 fun never => refused.2 never k hk.1)
      exact same hk hj ▸ hj
    · intro hk
      obtain ⟨j, hj⟩ := exists_first
        (Classical.not_forall_not.1 fun never => refused.1 never k hk.1)
      exact same hj hk ▸ hj
  · intro same
    refine ⟨fun k hk =>
      h.ends k ((same k).1 hk), h.never.trans ⟨fun never k hk => ?_, fun never k hk => ?_⟩⟩
    · obtain ⟨j, hj⟩ := exists_first ⟨k, hk⟩
      exact never j ((same j).1 hj).1
    · obtain ⟨j, hj⟩ := exists_first ⟨k, hk⟩
      exact never j ((same j).2 hj).1

/-- What a step takes or refuses, the program has as a token or as its end. -/
theorem EndsBehind.answers {P : Nat → Prop} (h : s.EndsBehind opener P) {source : Text}
    (reached : Reaches (.ofSource source) s) :
    (s.suspended = [] → ∀ k, First P k →
        s.literal (opener.length + (k + 1)) ∈ (tokenize source).tokens) ∧
      ((∀ k, ¬ P k) → (tokenize source).ending =
        .refused { line := s.cursor.line, fault := .unterminatedLiteral }) := by
  refine ⟨fun outside k hk => ?_, fun never => ?_⟩
  · obtain ⟨u, step⟩ : ∃ u, s.step = .next [.token (s.literal (opener.length + (k + 1)))] u := by
      rw [h.ends k hk, takeLiteral, record]
      refine ⟨_, congrArg (Step.next · _) ?_⟩
      show (if s.suspended.isEmpty then _ else _) = _
      rw [outside]
      rfl
    rw [Tokenization.tokens_eq]
    exact mem_tokensOf.2 (mem_found_of_reaches reached step _ List.mem_cons_self)
  · obtain ⟨before, hrun⟩ := reached.run_eq
    have last : s.run.ending =
        .refused { line := s.cursor.line, fault := .unterminatedLiteral } := by
      rw [run_of_stop (h.never.2 never)]
    exact (congrArg Tokenization.ending hrun).trans last

/-- A literal without interpolations ends behind the first delimiter that is neither escaped nor the
end of a pair inside, and not between square brackets if it is a slash; without one the program is
refused. So it ends behind the first that is neither escaped nor the end of a pair, unless this is a
slash between square brackets. -/
theorem quoted_endsBehind_iff (h : OpensQuoted s.memory s.spaced opener d)
    (hr : s.cursor.rest = opener ++ t) :
    s.EndsBehind opener (d.StopsAt (unescaped t)) ∧
      (∀ source, Reaches (.ofSource source) s →
        (s.suspended = [] → ∀ k, First (d.StopsAt (unescaped t)) k →
          s.literal (opener.length + (k + 1)) ∈ (tokenize source).tokens) ∧
        ((∀ k, ¬ d.StopsAt (unescaped t) k) → (tokenize source).ending =
          .refused { line := s.cursor.line, fault := .unterminatedLiteral })) ∧
      (s.EndsBehind opener (d.ClosesAt 0 (unescaped t)) ↔
        ¬ (d.hasClasses ∧ ∃ k, First (d.ClosesAt 0 (unescaped t)) k ∧
          classOpen false ((unescaped t).take k))) := by
  obtain ⟨c, rfl, narrow⟩ := h.ofOpening
  have stops := endsBehind_of_read h hr (Delimiters.read_behind_stopsAt narrow t)
  have within : ∀ {k}, k < (unescaped t).length →
      opener.length + (k + 1) ≤ s.cursor.rest.length := by
    intro k hk
    rw [length_unescaped] at hk
    rw [hr, List.length_append]
    omega
  refine ⟨stops, fun source reached => stops.answers reached, ?_⟩
  rw [stops.iff_first (fun hk => within (List.getElem?_eq_some_iff.1 hk.close).1) fun hk =>
    within hk.lt]
  exact Delimiters.first_stopsAt_iff (Delimiters.ofOpening_cases c).2.2

/-- A pair inside, and an escaped bracket. -/
theorem quoted_endsBehind_nested :
    let s := ofSource "%q(a(b)\\)c) + 1\n".toList
    OpensQuoted s.memory s.spaced ['%', 'q', '('] ⟨')', some '(', false⟩ ∧
      s.step = s.takeLiteral 11 ∧ s.literal 11 ∈ (tokenize "%q(a(b)\\)c) + 1\n".toList).tokens := by
  have opens : OpensQuoted {} false ['%', 'q', '('] (.ofOpening '(' false) :=
    .percent (by decide) (by decide) (by decide) (by decide) rfl
  have stops : First
      (Delimiters.StopsAt (.ofOpening '(' false) (unescaped "a(b)\\)c) + 1\n".toList)) 7 := by
    decide
  have result := quoted_endsBehind_iff (s := ofSource "%q(a(b)\\)c) + 1\n".toList) opens rfl
  exact ⟨opens, result.1.ends 7 stops, (result.2.1 _ .here).1 rfl 7 stops⟩

/-- A slash after a square bracket closes nothing, though no class can open in a string. -/
theorem quoted_endsBehind_slash :
    let s := ofSource "%q/[/\n".toList
    First (Delimiters.ClosesAt ⟨'/', none, false⟩ 0 (unescaped "[/\n".toList)) 1 ∧
      s.step = refuse [] 1 .unterminatedLiteral ∧
      ¬ s.EndsBehind ['%', 'q', '/']
        (Delimiters.ClosesAt ⟨'/', none, false⟩ 0 (unescaped "[/\n".toList)) := by
  have closes : First (Delimiters.ClosesAt ⟨'/', none, false⟩ 0 (unescaped "[/\n".toList)) 1 := by
    decide
  have refused : (ofSource "%q/[/\n".toList).step = refuse [] 1 .unterminatedLiteral := by
    decide +kernel
  exact ⟨closes, refused, fun h => h.never.1 refused 1 closes.1⟩

end Tokenizer

end Marginalia.Source
