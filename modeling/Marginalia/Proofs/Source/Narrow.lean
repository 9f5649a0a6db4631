import Mathlib.Data.List.Infix
import Marginalia.Proofs.Source.Extent
import Marginalia.Proofs.Source.Literal
import Marginalia.Proofs.Text.Utf8

/-!
# ASCII delimiters

A literal whose delimiters are ASCII characters may be read byte by byte (`bytewise_of_narrow`): a
backslash may pass the first byte of a character only, and yet every stop is between two characters,
because no byte of a character outside of ASCII is taken for a delimiter. Such a literal never ends
inside a character. All literals of a program are of this kind if no character outside of ASCII
stands where a delimiter is due (`NarrowDelimiters`).
-/

namespace Marginalia.Source

/-- Whether a text starts with `$-`, `%`, or `%` and the letter of a kind of literal, and a
character outside of ASCII follows directly. -/
def wideDelimiterAhead : Text → Bool
  | '$' :: '-' :: c :: _ => isWide c
  | '%' :: c :: r => isWide c || Lexeme.isPercentKind c && r.head?.any isWide
  | _ => false

/-- No character outside of ASCII stands where a delimiter, or the letter of a variable, is due. -/
def NarrowDelimiters (source : Text) : Prop := ∀ t ∈ source.tails, wideDelimiterAhead t = false

instance (source : Text) : Decidable (NarrowDelimiters source) :=
  inferInstanceAs (Decidable (∀ t ∈ source.tails, wideDelimiterAhead t = false))

/-- The delimiters are ASCII characters. -/
def Delimiters.Narrow (d : Delimiters) : Prop :=
  isWide d.close = false ∧ ∀ c ∈ d.opener, isWide c = false

/-- What an ASCII character opens has narrow delimiters. -/
theorem narrow_ofOpening {c : Char} (h : isWide c = false) (interpolates : Bool) :
    (Delimiters.ofOpening c interpolates).Narrow := by
  have bracket : ∀ close opener : Char, isWide close = false → isWide opener = false →
      (⟨close, some opener, interpolates⟩ : Delimiters).Narrow := fun close opener hclose hopener =>
    ⟨hclose, fun c hc => Option.some.inj hc ▸ hopener⟩
  unfold Delimiters.ofOpening
  split
  case h_5 => exact ⟨h, fun _ hc => nomatch hc⟩
  all_goals exact bracket _ _ (by decide) (by decide)

namespace Delimiters

variable {d : Delimiters}

/-- Only the delimiter itself closes a literal if it is an ASCII character. -/
theorem closes_iff (h : d.Narrow) {c : Char} : d.closes c ↔ c = d.close := by
  have close : d.close.toNat < 0x80 := by
    have := h.1
    unfold isWide at this
    simpa using this
  unfold closes
  rw [beq_iff_eq]
  refine ⟨fun same => ?_, fun same => same ▸ rfl⟩
  have leads := toNat_leadByte d.close
  have leads' := toNat_leadByte c
  rw [if_pos (by omega)] at leads
  rw [same, leads] at leads'
  split at leads'
  · exact Char.toNat_inj.1 leads'.symm
  · omega

/-- Narrow delimiters split no character. -/
theorem next_ne_split (h : d.Narrow) (depth : Nat) (inClass : Bool) (c : Char) (brace : Bool) :
    d.next depth inClass c brace ≠ .inl .split := by
  intro hnext
  unfold next at hnext
  split at hnext
  · cases hnext
  split at hnext
  · cases hnext
  split at hnext
  · cases hnext
  split at hnext
  · cases hnext
  split at hnext
  · next closing =>
    rw [Bool.and_eq_true, closes_iff h] at closing
    cases depth with
    | zero =>
      rw [closing.1, h.1] at hnext
      cases hnext
    | succ n => cases hnext
  · cases hnext

/-- A literal with ASCII delimiters does not end inside a character. -/
theorem read_ne_split (h : d.Narrow) (depth : Nat) (inClass : Bool) (t : Text) :
    d.read depth inClass t ≠ .split := by
  have after : ∀ (k : Nat) (stop : LiteralStop), stop ≠ .split → stop.after k ≠ .split := by
    intro k stop hstop
    cases stop with
    | split => exact absurd rfl hstop
    | _ => nofun
  induction t using read_induction generalizing depth inClass with
  | nil =>
    rw [read_nil]
    nofun
  | lone =>
    rw [read_lone]
    nofun
  | backslash e r ih =>
    rw [read_backslash]
    exact after 2 _ (ih depth inClass)
  | cons c r hc ih =>
    rw [read_cons hc]
    split
    · next stop hnext => exact fun split => next_ne_split h _ _ _ _ (split ▸ hnext)
    · next n b hnext => exact after 1 _ (ih n b)

end Delimiters

/-! ## Reading byte by byte -/

/-- Counts bytes where characters were counted, in a text that was read. -/
def LiteralStop.inBytes (t : Text) : LiteralStop → LiteralStop
  | .closed length => .closed (Utf8.encode (t.take length)).length
  | .interpolation length depth inClass =>
    .interpolation (Utf8.encode (t.take length)).length depth inClass
  | .unterminated => .unterminated
  | .split => .split

/-- A stop is moved on twice. -/
theorem LiteralStop.after_after (m n : Nat) (stop : LiteralStop) :
    (stop.after m).after n = stop.after (n + m) := by
  cases stop with
  | closed => exact congrArg _ (Nat.add_assoc ..).symm
  | interpolation =>
    exact congrArg (fun x => LiteralStop.interpolation x _ _) (Nat.add_assoc ..).symm
  | _ => rfl

theorem LiteralStop.after_zero (stop : LiteralStop) : stop.after 0 = stop := by
  cases stop <;> simp [LiteralStop.after]

/-- What is read behind some characters is behind their bytes. -/
theorem LiteralStop.inBytes_after (u t : Text) (stop : LiteralStop) :
    (stop.after u.length).inBytes (u ++ t) = (stop.inBytes t).after (Utf8.encode u).length := by
  have bytes : ∀ n, (Utf8.encode ((u ++ t).take (u.length + n))).length =
      (Utf8.encode u).length + (Utf8.encode (t.take n)).length := by
    intro n
    rw [List.take_length_add_append, Utf8.encode_append, List.length_append]
  cases stop with
  | closed n => exact congrArg _ (bytes n)
  | interpolation n depth inClass =>
    exact congrArg (fun x => LiteralStop.interpolation x _ _) (bytes n)
  | _ => rfl

namespace Delimiters

/-- What a byte inside a literal does, as `next` tells it of a character. -/
def nextByte (d : Delimiters) (depth : Nat) (inClass : Bool) (b : UInt8) (brace : Bool) :
    LiteralStop ⊕ Nat × Bool :=
  if b == Utf8.leadByte '#' && d.interpolates && brace then .inl (.interpolation 2 depth inClass)
  else if b == Utf8.leadByte '[' && d.hasClasses then .inr (depth, true)
  else if b == Utf8.leadByte ']' && d.hasClasses then .inr (depth, false)
  else if d.opener.any fun c => b == Utf8.leadByte c then .inr (depth + 1, inClass)
  else if b == Utf8.leadByte d.close && !inClass then
    match depth with
    | 0 => .inl (.closed 1)
    | n + 1 => .inr (n, inClass)
  else .inr (depth, inClass)

/-- Reads a literal byte by byte. A backslash takes the next byte with it, even if that is only the
first of a character. -/
def readBytes (d : Delimiters) : Nat → Bool → Utf8.Bytes → LiteralStop
  | _, _, [] => .unterminated
  | depth, inClass, b :: r =>
    if b == Utf8.leadByte '\\' then
      match r with
      | [] => .unterminated
      | _ :: r => (d.readBytes depth inClass r).after 2
    else
      match d.nextByte depth inClass b (r.head? == some (Utf8.leadByte '{')) with
      | .inl stop => stop
      | .inr (n, c) => (d.readBytes n c r).after 1

/-- Reading byte by byte stops where reading does, so that every stop is between two characters. -/
def Bytewise (d : Delimiters) : Prop :=
  ∀ depth inClass t, d.readBytes depth inClass (Utf8.encode t) = (d.read depth inClass t).inBytes t

variable {d : Delimiters}

/-- A narrow character is one of ASCII. -/
theorem lt_of_not_isWide {c : Char} (h : isWide c = false) : c.toNat < 0x80 := by
  unfold isWide at h
  simpa using h

/-- A narrow character is one byte. -/
theorem utf8EncodeChar_of_not_isWide {c : Char} (h : isWide c = false) :
    String.utf8EncodeChar c = [Utf8.leadByte c] := by
  have small : c.val.toNat ≤ 0x7f := Nat.le_of_lt_succ (lt_of_not_isWide h)
  unfold Utf8.leadByte String.utf8EncodeChar
  dsimp only
  rw [if_pos small]
  rfl

/-- ASCII characters are told apart by their bytes. -/
theorem leadByte_beq {c k : Char} (hc : isWide c = false) (hk : isWide k = false) :
    (Utf8.leadByte c == Utf8.leadByte k) = (c == k) := by
  have hc := toNat_leadByte c
  have hk := toNat_leadByte k
  rw [if_pos (Nat.le_of_lt_succ (lt_of_not_isWide ‹_›))] at hc hk
  rw [Bool.eq_iff_iff, beq_iff_eq, beq_iff_eq]
  constructor
  · intro same
    rw [same, hk] at hc
    exact Char.toNat_inj.1 hc.symm
  · exact fun same => same ▸ rfl

/-- No byte of a character outside of ASCII is that of an ASCII character. -/
theorem ne_leadByte_of_isWide {c k : Char} (hc : isWide c) (hk : isWide k = false) {b : UInt8}
    (hb : b ∈ String.utf8EncodeChar c) : (b == Utf8.leadByte k) = false := by
  rw [beq_eq_false_iff_ne]
  rintro rfl
  have lead := toNat_leadByte k
  have small := lt_of_not_isWide hk
  rw [if_pos (Nat.le_of_lt_succ small)] at lead
  have same := Utf8.eq_of_mem_utf8EncodeChar (by rw [UInt8.lt_iff_toNat_lt, lead]; exact small) hb
  unfold isWide at hc
  simp only [decide_eq_true_eq] at hc
  omega

/-- A narrow character is read as its byte. -/
theorem nextByte_leadByte (h : d.Narrow) {c : Char} (hc : isWide c = false) (depth : Nat)
    (inClass brace : Bool) :
    d.nextByte depth inClass (Utf8.leadByte c) brace = d.next depth inClass c brace := by
  have opener : (d.opener.any fun k => Utf8.leadByte c == Utf8.leadByte k) =
      (d.opener == some c) := by
    cases hd : d.opener with
    | none => rfl
    | some k =>
      rw [Option.any_some, leadByte_beq hc (h.2 k hd), Bool.eq_iff_iff, beq_iff_eq, beq_iff_eq,
        Option.some_inj]
      exact eq_comm
  unfold nextByte next closes
  rw [leadByte_beq hc (by decide), leadByte_beq hc (by decide), leadByte_beq hc (by decide),
    opener, hc]
  rfl

/-- A byte of a character outside of ASCII is passed. -/
theorem nextByte_of_isWide (h : d.Narrow) {c : Char} (hc : isWide c) {b : UInt8}
    (hb : b ∈ String.utf8EncodeChar c) (depth : Nat) (inClass brace : Bool) :
    d.nextByte depth inClass b brace = .inr (depth, inClass) := by
  have other : ∀ k, isWide k = false → (b == Utf8.leadByte k) = false := fun k hk =>
    ne_leadByte_of_isWide hc hk hb
  have opener : (d.opener.any fun k => b == Utf8.leadByte k) = false := by
    cases hd : d.opener with
    | none => rfl
    | some k => exact other k (h.2 k hd)
  unfold nextByte
  rw [other '#' (by decide), other '[' (by decide), other ']' (by decide), opener,
    other d.close h.1]
  rfl

/-- A wide character changes nothing in a literal with narrow delimiters. -/
theorem next_of_isWide (h : d.Narrow) {c : Char} (hc : isWide c) (depth : Nat)
    (inClass brace : Bool) :
    d.next depth inClass c brace = .inr (depth, inClass) := by
  -- the characters that mean something in a literal are not wide
  have other : ∀ k, isWide k = false → (c == k) = false := by
    intro k hk
    rw [beq_eq_false_iff_ne]
    rintro rfl
    rw [hk] at hc
    cases hc
  have opener : (d.opener == some c) = false := by
    cases hd : d.opener with
    | none => rfl
    | some k =>
      have := other k (h.2 k hd)
      rw [beq_eq_false_iff_ne] at this ⊢
      exact fun same => this (Option.some.inj same).symm
  have closes : d.closes c = false := by
    rw [Bool.eq_false_iff]
    intro closes
    rw [(closes_iff h).1 closes, h.1] at hc
    cases hc
  unfold next
  rw [other '#' (by decide), other '[' (by decide), other ']' (by decide), opener, closes]
  rfl

theorem readBytes_cons {b : UInt8} (hb : (b == Utf8.leadByte '\\') = false) (depth : Nat)
    (inClass : Bool) (r : Utf8.Bytes) : d.readBytes depth inClass (b :: r) =
      match d.nextByte depth inClass b (r.head? == some (Utf8.leadByte '{')) with
      | .inl stop => stop
      | .inr (n, c) => (d.readBytes n c r).after 1 := by
  rw [readBytes.eq_def]
  dsimp only
  rw [hb]
  rfl

/-- Behind a backslash a byte is skipped. -/
theorem readBytes_backslash (depth : Nat) (inClass : Bool) (b : UInt8) (r : Utf8.Bytes) :
    d.readBytes depth inClass (Utf8.leadByte '\\' :: b :: r) =
      (d.readBytes depth inClass r).after 2 := by
  rw [readBytes.eq_def]
  rfl

/-- Bytes of characters outside of ASCII are passed one by one. -/
theorem readBytes_append (h : d.Narrow) {c : Char} (hc : isWide c) {bs : Utf8.Bytes}
    (hbs : ∀ b ∈ bs, b ∈ String.utf8EncodeChar c) (depth : Nat) (inClass : Bool) (r : Utf8.Bytes) :
    d.readBytes depth inClass (bs ++ r) = (d.readBytes depth inClass r).after bs.length := by
  induction bs with
  | nil => exact (LiteralStop.after_zero _).symm
  | cons b bs ih =>
    have hb := hbs b List.mem_cons_self
    rw [List.cons_append, readBytes_cons (ne_leadByte_of_isWide hc (by decide) hb),
      nextByte_of_isWide h hc hb]
    dsimp only
    rw [ih fun b hb => hbs b (List.mem_cons_of_mem _ hb), LiteralStop.after_after, Nat.add_comm]
    rfl

/-- A character has a first byte. -/
theorem exists_utf8EncodeChar (c : Char) : ∃ b bs, String.utf8EncodeChar c = b :: bs := by
  refine List.exists_cons_of_length_pos ?_
  rw [String.length_utf8EncodeChar]
  exact c.utf8Size_pos

/-- The brace of an interpolation is told by its byte. -/
theorem head?_encode (t : Text) :
    ((Utf8.encode t).head? == some (Utf8.leadByte '{')) = (t.head? == some '{') := by
  cases t with
  | nil => rfl
  | cons c r =>
    rw [Utf8.encode_cons]
    cases hc : isWide c with
    | false =>
      rw [utf8EncodeChar_of_not_isWide hc]
      exact leadByte_beq hc (by decide)
    | true =>
      obtain ⟨b, bs, hbytes⟩ := exists_utf8EncodeChar c
      have hb : b ∈ String.utf8EncodeChar c := hbytes ▸ List.mem_cons_self
      have other : (c == '{') = false := by
        rw [beq_eq_false_iff_ne]
        rintro rfl
        cases hc
      rw [hbytes]
      exact (ne_leadByte_of_isWide hc (by decide) hb).trans other.symm

/-- A literal stops at an interpolation or at its end. -/
theorem next_eq_inl {depth : Nat} {inClass brace : Bool} {c : Char} {stop : LiteralStop}
    (hnext : d.next depth inClass c brace = .inl stop) :
    stop = .interpolation 2 depth inClass ∧ c = '#' ∧ brace ∨ stop = .closed 1 ∨ stop = .split := by
  unfold next at hnext
  split at hnext
  · next opening =>
    rw [Bool.and_eq_true, Bool.and_eq_true, beq_iff_eq] at opening
    cases hnext
    exact .inl ⟨rfl, opening.1.1, opening.2⟩
  split at hnext
  · cases hnext
  split at hnext
  · cases hnext
  split at hnext
  · cases hnext
  split at hnext
  · cases depth with
    | zero =>
      cases hnext
      split
      · exact .inr (.inr rfl)
      · exact .inr (.inl rfl)
    | succ n => cases hnext
  · cases hnext

/-- A character that stops the reading does so at its end, or at that of the brace behind it. -/
theorem inBytes_of_next {depth : Nat} {inClass : Bool} {c : Char} {r : Text} {stop : LiteralStop}
    (hc : isWide c = false) (hnext : d.next depth inClass c (r.head? == some '{') = .inl stop) :
    stop.inBytes (c :: r) = stop := by
  obtain ⟨rfl, rfl, brace⟩ | rfl | rfl := next_eq_inl hnext
  · rw [beq_iff_eq] at brace
    cases r with
    | nil => cases brace
    | cons e r =>
      cases brace
      rfl
  · have one : Utf8.encode [c] = [Utf8.leadByte c] := by
      rw [Utf8.encode, List.flatMap_singleton, utf8EncodeChar_of_not_isWide hc]
    exact congrArg (fun bytes => LiteralStop.closed (List.length bytes)) one
  · rfl

/-- The bytes of a character that a backslash takes with it are passed like any others, but for the
first. -/
theorem readBytes_escaped (h : d.Narrow) (e : Char) (depth : Nat) (inClass : Bool) (r : Text) :
    d.readBytes depth inClass (Utf8.encode ('\\' :: e :: r)) =
      (d.readBytes depth inClass (Utf8.encode r)).after (Utf8.encode ['\\', e]).length := by
  obtain ⟨b, bs, hbytes⟩ := exists_utf8EncodeChar e
  have rest : d.readBytes depth inClass (bs ++ Utf8.encode r) =
      (d.readBytes depth inClass (Utf8.encode r)).after bs.length := by
    cases he : isWide e with
    | false =>
      rw [utf8EncodeChar_of_not_isWide he] at hbytes
      cases hbytes
      exact (LiteralStop.after_zero _).symm
    | true =>
      refine readBytes_append h he (fun x hx => ?_) depth inClass _
      rw [hbytes]
      exact List.mem_cons_of_mem b hx
  have passed : Utf8.encode ['\\', e] = Utf8.leadByte '\\' :: b :: bs := by
    rw [Utf8.encode_cons, Utf8.encode_cons, hbytes]
    exact congrArg (fun x => _ :: b :: x) (List.append_nil bs)
  have bytes : Utf8.encode ('\\' :: e :: r) = Utf8.leadByte '\\' :: b :: (bs ++ Utf8.encode r) := by
    rw [Utf8.encode_cons, Utf8.encode_cons, hbytes]
    rfl
  rw [bytes, passed, readBytes_backslash, rest, LiteralStop.after_after, List.length_cons,
    List.length_cons, Nat.add_comm]

/-- The bytes of any other character do what the character does. -/
theorem readBytes_encode_cons (h : d.Narrow) {c : Char} (hc : c ≠ '\\') (depth : Nat)
    (inClass : Bool) (r : Text) : d.readBytes depth inClass (Utf8.encode (c :: r)) =
      match d.next depth inClass c (r.head? == some '{') with
      | .inl stop => stop.inBytes (c :: r)
      | .inr (n, b) => (d.readBytes n b (Utf8.encode r)).after (Utf8.encode [c]).length := by
  have single : Utf8.encode [c] = String.utf8EncodeChar c := List.append_nil _
  rw [Utf8.encode_cons, single]
  cases wide : isWide c with
  | false =>
    have plain : (Utf8.leadByte c == Utf8.leadByte '\\') = false := by
      rw [leadByte_beq wide (by decide)]
      exact beq_eq_false_iff_ne.2 hc
    rw [utf8EncodeChar_of_not_isWide wide, List.singleton_append, readBytes_cons plain,
      nextByte_leadByte h wide, head?_encode]
    cases hnext : d.next depth inClass c (r.head? == some '{') with
    | inl stop => exact (inBytes_of_next wide hnext).symm
    | inr go => rfl
  | true => rw [readBytes_append h wide (fun _ hb => hb), next_of_isWide h wide]

/-- Reading byte by byte needs no care for the characters, if the delimiters are ASCII
characters. -/
theorem bytewise_of_narrow (h : d.Narrow) : d.Bytewise := by
  intro depth inClass t
  induction t using read_induction generalizing depth inClass with
  | nil =>
    rw [read_nil]
    rfl
  | lone =>
    rw [read_lone]
    rfl
  | backslash e r ih =>
    rw [readBytes_escaped h, read_backslash, ih]
    exact (LiteralStop.inBytes_after ['\\', e] r _).symm
  | cons c r hc ih =>
    rw [readBytes_encode_cons h hc, read_cons hc]
    cases d.next depth inClass c (r.head? == some '{') with
    | inl stop => rfl
    | inr go =>
      dsimp only
      rw [ih]
      exact (LiteralStop.inBytes_after [c] r _).symm

end Delimiters

namespace Lexeme

variable {m : Memory} {spaced : Bool} {c : Char} {r : Text}

/-- Literals that are opened where no wide character stands in the place of a delimiter. -/
theorem narrow_of_read {n : Nat} {d : Delimiters} {flags : Bool}
    (narrow : wideDelimiterAhead (c :: r) = false) (h : read m spaced c r = .delimited n d flags) :
    d.Narrow := by
  have yields := yields_read m spaced c r
  rw [h] at yields
  cases yields with
  | quoted quote _ _ _ hq =>
    refine ⟨?_, fun _ hc => nomatch hc⟩
    show isWide quote = false
    rcases hq with rfl | rfl | rfl | rfl <;> decide
  | percent opening _ _ _ sign _ place =>
    refine narrow_ofOpening ?_ _
    subst sign
    obtain ⟨y, rfl⟩ | ⟨kind, y, hk, rfl⟩ := place
    · have narrow : (isWide opening || isPercentKind opening && y.head?.any isWide) = false :=
        narrow
      exact (Bool.or_eq_false_iff.1 narrow).1
    · have narrow : (isWide kind || isPercentKind kind && isWide opening) = false := narrow
      rw [hk, Bool.true_and] at narrow
      exact (Bool.or_eq_false_iff.1 narrow).2

/-- Only a variable `$-` ends inside a character, if one outside of ASCII follows. -/
theorem read_ne_split (narrow : wideDelimiterAhead (c :: r) = false) :
    read m spaced c r ≠ .split := by
  intro h
  have yields := yields_read m spaced c r
  rw [h] at yields
  cases yields with
  | split letter y sign wide place =>
    subst sign place
    have ascii : isWide letter = false := narrow
    rw [ascii] at wide
    cases wide

end Lexeme

end Marginalia.Source
