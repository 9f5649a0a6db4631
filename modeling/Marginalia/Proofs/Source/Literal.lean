import Mathlib.Tactic.SplitIfs
import Marginalia.Proofs.Source.LineEnd
import Marginalia.Source.Literal

/-!
# Where literals stop

A literal stops behind a character that is no blank (`visible_of_read`), and where it stops before
the end of a text, it does not depend on what follows that text (`read_append`).
-/

namespace Marginalia.Source

/-- How many characters were read, if the reading stopped before the end of the program. -/
def LiteralStop.length? : LiteralStop → Option Nat
  | .closed n => some n
  | .interpolation n _ _ => some n
  | .unterminated => none
  | .split => none

/-- The length of a stop that is moved on. -/
theorem LiteralStop.length?_after (k : Nat) (r : LiteralStop) :
    (r.after k).length? = r.length?.map (k + ·) := by
  cases r <;> rfl

namespace Delimiters

variable {d : Delimiters}

/-- What a character inside a literal does, given whether a brace follows it: it stops the reading,
or the reading goes on at a nesting depth and perhaps in a character class. -/
def next (d : Delimiters) (depth : Nat) (inClass : Bool) (c : Char) (brace : Bool) :
    LiteralStop ⊕ Nat × Bool :=
  if c == '#' && d.interpolates && brace then .inl (.interpolation 2 depth inClass)
  else if c == '[' && d.hasClasses then .inr (depth, true)
  else if c == ']' && d.hasClasses then .inr (depth, false)
  else if d.opener == some c then .inr (depth + 1, inClass)
  else if d.closes c && !inClass then
    match depth with
    | 0 => .inl (if isWide c then .split else .closed 1)
    | n + 1 => .inr (n, inClass)
  else .inr (depth, inClass)

theorem read_cons {c : Char} (hc : c ≠ '\\') (depth : Nat) (inClass : Bool) (r : Text) :
    d.read depth inClass (c :: r) =
      match d.next depth inClass c (r.head? == some '{') with
      | .inl stop => stop
      | .inr (n, b) => (d.read n b r).after 1 := by
  have plain : ∀ e t, c = '\\' → r = e :: t → False := fun _ _ h => absurd h hc
  unfold next
  cases depth with
  | zero =>
    rw [read.eq_4 _ _ _ _ (fun h => absurd h hc) plain]
    split_ifs <;> rfl
  | succ n =>
    rw [read.eq_5 _ _ _ _ _ (fun h => absurd h hc) plain]
    split_ifs <;> rfl

theorem read_nil (depth : Nat) (inClass : Bool) : d.read depth inClass [] = .unterminated := by
  rw [read]

/-- Behind a backslash a character is skipped. -/
theorem read_backslash (depth : Nat) (inClass : Bool) (c : Char) (r : Text) :
    d.read depth inClass ('\\' :: c :: r) = (d.read depth inClass r).after 2 := by
  rw [read]

/-- A backslash at the end of the program leaves the literal without an end. -/
theorem read_lone (depth : Nat) (inClass : Bool) :
    d.read depth inClass ['\\'] = .unterminated := by
  rw [read]

/-- Induction along the reading of a literal, in which a backslash takes the next character with
it. -/
@[elab_as_elim]
theorem read_induction {motive : Text → Prop} (t : Text) (nil : motive []) (lone : motive ['\\'])
    (backslash : ∀ e r, motive r → motive ('\\' :: e :: r))
    (cons : ∀ c r, c ≠ '\\' → motive r → motive (c :: r)) : motive t := by
  match t with
  | [] => exact nil
  | c :: r =>
    by_cases hc : c = '\\'
    · subst hc
      match r with
      | [] => exact lone
      | e :: r => exact backslash e r (read_induction r nil lone backslash cons)
    · exact cons c r hc (read_induction r nil lone backslash cons)

/-- A character that stops the reading closes the literal, or it is the first of an
interpolation. -/
theorem length?_next {depth n : Nat} {inClass brace : Bool} {c : Char} {stop : LiteralStop}
    (h : d.next depth inClass c brace = .inl stop) (hn : stop.length? = some n) :
    n = 1 ∧ d.closes c ∧ isWide c = false ∨ n = 2 ∧ brace := by
  -- the literal stops at an interpolation, or at its closer outside of inner pairs
  unfold next at h
  split at h
  · next hopen =>
    cases h
    cases hn
    rw [Bool.and_eq_true] at hopen
    exact .inr ⟨rfl, hopen.2⟩
  split at h
  · cases h
  split at h
  · cases h
  split at h
  · cases h
  split at h
  · next hclose =>
    rw [Bool.and_eq_true] at hclose
    split at h
    · cases h
      split at hn
      · cases hn
      · next wide =>
        cases hn
        exact .inl ⟨rfl, hclose.1, Bool.eq_false_iff.2 wide⟩
    · cases h
  · cases h

theorem length_pos_of_read {depth n : Nat} {inClass : Bool} {t : Text}
    (h : (d.read depth inClass t).length? = some n) : 0 < n := by
  cases t using read_induction with
  | nil =>
    rw [read_nil] at h
    cases h
  | lone =>
    rw [read_lone] at h
    cases h
  | backslash e r =>
    rw [read_backslash, LiteralStop.length?_after] at h
    obtain ⟨m, -, rfl⟩ := Option.map_eq_some_iff.1 h
    omega
  | cons c r hc =>
    rw [read_cons hc] at h
    split at h
    · next stop hnext =>
      rcases length?_next hnext h with ⟨rfl, -⟩ | ⟨rfl, -⟩ <;> omega
    · rw [LiteralStop.length?_after] at h
      obtain ⟨m, -, rfl⟩ := Option.map_eq_some_iff.1 h
      omega

/-- Where a literal stops within a text, what follows that text plays no role. -/
theorem read_append {s t : Text} (hs : Stops s) (ht : Stops t) {y : Text} {depth n : Nat}
    {inClass : Bool} (h : (d.read depth inClass (y ++ s)).length? = some n) (hn : n ≤ y.length) :
    d.read depth inClass (y ++ t) = d.read depth inClass (y ++ s) := by
  induction y using read_induction generalizing depth n inClass with
  | nil =>
    have := length_pos_of_read h
    rw [List.length_nil] at hn
    omega
  | lone =>
    rw [List.singleton_append] at h
    cases s with
    | nil =>
      rw [read_lone] at h
      cases h
    | cons e s =>
      -- the backslash takes a character with it that is not within the text
      rw [read_backslash, LiteralStop.length?_after] at h
      obtain ⟨m, -, rfl⟩ := Option.map_eq_some_iff.1 h
      rw [List.length_singleton] at hn
      omega
  | backslash e y ih =>
    rw [List.cons_append, List.cons_append] at h
    rw [List.cons_append, List.cons_append, List.cons_append, List.cons_append, read_backslash,
      read_backslash]
    rw [read_backslash, LiteralStop.length?_after] at h
    obtain ⟨m, hm, rfl⟩ := Option.map_eq_some_iff.1 h
    rw [List.length_cons, List.length_cons] at hn
    rw [ih hm (by omega)]
  | cons c y hc ih =>
    have head : ∀ {u : Text}, Stops u → ((y ++ u).head? == some '{') = (y.head? == some '{') := by
      intro u hu
      cases y with
      | nil =>
        cases u with
        | nil => rfl
        | cons e u => rcases isAsciiBlank_cases (hu e rfl) with rfl | rfl | rfl | rfl | rfl <;> rfl
      | cons e y => rfl
    rw [List.length_cons] at hn
    rw [List.cons_append, read_cons hc, head hs] at h
    rw [List.cons_append, List.cons_append, read_cons hc, read_cons hc, head hs, head ht]
    cases hnext : d.next depth inClass c (y.head? == some '{') with
    | inl stop => rfl
    | inr go =>
      obtain ⟨k, b⟩ := go
      rw [hnext] at h
      dsimp only at h ⊢
      rw [LiteralStop.length?_after] at h
      obtain ⟨m, hm, rfl⟩ := Option.map_eq_some_iff.1 h
      rw [ih hm (by omega)]

/-- The first byte of an ASCII character is the character; that of any other is no ASCII byte. -/
theorem toNat_leadByte (c : Char) :
    if c.toNat ≤ 0x7f then (Utf8.leadByte c).toNat = c.toNat else 0x80 ≤
      (Utf8.leadByte c).toNat := by
  have value : c.val.toNat = c.toNat := rfl
  have bound : c.toNat < 0x110000 := by
    rcases c.valid with h | h
    · have : c.toNat < 0xd800 := h
      omega
    · exact h.2
  unfold Utf8.leadByte String.utf8EncodeChar
  dsimp only
  rw [value]
  split
  · rw [List.headD_cons, UInt8.toNat_ofNat']
    omega
  · split
    · rw [List.headD_cons, UInt8.toNat_ofNat']
      omega
    · split
      · rw [List.headD_cons, UInt8.toNat_ofNat']
        omega
      · rw [List.headD_cons, UInt8.toNat_ofNat']
        omega

/-- What closes a literal is visible, if its closer is. -/
theorem visible_of_closes {c : Char} (hclose : Text.isAsciiBlank d.close = false)
    (h : d.closes c) : Text.isAsciiBlank c = false := by
  rw [Bool.eq_false_iff]
  intro hc
  unfold closes at h
  rw [beq_iff_eq] at h
  have small : c.toNat ≤ 0x7f := by
    rcases isAsciiBlank_cases hc with rfl | rfl | rfl | rfl | rfl <;> decide
  have lead := toNat_leadByte c
  have close := toNat_leadByte d.close
  rw [if_pos small] at lead
  rw [← h, lead] at close
  split at close
  · rw [← Char.toNat_inj.1 close, hc] at hclose
    cases hclose
  · omega

/-- The last character that is read of a literal is no blank. -/
theorem visible_of_read {t : Text} {depth n : Nat} {inClass : Bool}
    (hclose : Text.isAsciiBlank d.close = false)
    (h : (d.read depth inClass t).length? = some n) :
    ∃ c, t[n - 1]? = some c ∧ Text.isAsciiBlank c = false := by
  induction t using read_induction generalizing depth n inClass with
  | nil =>
    rw [read_nil] at h
    cases h
  | lone =>
    rw [read_lone] at h
    cases h
  | backslash e r ih =>
    rw [read_backslash, LiteralStop.length?_after] at h
    obtain ⟨m, hm, rfl⟩ := Option.map_eq_some_iff.1 h
    have pos := length_pos_of_read hm
    obtain ⟨x, hx, visible⟩ := ih hm
    refine ⟨x, ?_, visible⟩
    rw [show 2 + m - 1 = m - 1 + 1 + 1 from by omega, List.getElem?_cons_succ,
      List.getElem?_cons_succ]
    exact hx
  | cons c r hc ih =>
    rw [read_cons hc] at h
    -- a literal ends with its closer or with the brace of an interpolation, or goes on
    split at h
    · next stop hnext =>
      rcases length?_next hnext h with ⟨rfl, hcloses, -⟩ | ⟨rfl, brace⟩
      · exact ⟨c, rfl, visible_of_closes hclose hcloses⟩
      · rw [beq_iff_eq] at brace
        refine ⟨'{', ?_, by decide⟩
        rw [show 2 - 1 = 0 + 1 from rfl, List.getElem?_cons_succ, ← List.head?_eq_getElem?]
        exact brace
    · rw [LiteralStop.length?_after] at h
      obtain ⟨m, hm, rfl⟩ := Option.map_eq_some_iff.1 h
      have pos := length_pos_of_read hm
      obtain ⟨x, hx, visible⟩ := ih hm
      refine ⟨x, ?_, visible⟩
      rw [show 1 + m - 1 = m - 1 + 1 from by omega, List.getElem?_cons_succ]
      exact hx

end Delimiters

end Marginalia.Source
