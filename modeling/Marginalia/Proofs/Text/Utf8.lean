import Marginalia.Text.Utf8
import Mathlib.Tactic.IntervalCases

/-!
# Reading UTF-8

What stands at the front of some bytes does not change when more bytes arrive, unless it is a
character that the end has cut (`first_append`). Two things follow from it. A text is read back from
its bytes (`decode?_encode`), one character at a time. And a decoder that holds back a cut character
may be given the bytes in any pieces (`decodeLossy_append`).
-/

namespace Marginalia.Utf8

/-! ## The front of some bytes -/

/-- A front with more bytes behind what it leaves. -/
def Front.append (more : Bytes) : Front → Front
  | .char c rest => .char c (rest ++ more)
  | .broken rest => .broken (rest ++ more)
  | .cut => .cut

theorem following_append {n : Nat} {low high : UInt8} {code : Nat} {bytes : Bytes} (more : Bytes)
    (h : following n low high code bytes ≠ .cut) :
    following n low high code (bytes ++ more) = (following n low high code bytes).append more := by
  induction bytes generalizing n low high code with
  | nil =>
    cases n with
    | zero => rfl
    | succ n => exact absurd rfl h
  | cons b r ih =>
    cases n with
    | zero => rfl
    | succ n =>
      rw [List.cons_append]
      unfold following at h ⊢
      split at h
      · next hb =>
        rw [if_pos hb, if_pos hb]
        apply ih h
      · next hb =>
        rw [if_neg hb, if_neg hb]
        rfl

theorem first_append {b : UInt8} {bytes : Bytes} (more : Bytes) (h : first b bytes ≠ .cut) :
    first b (bytes ++ more) = (first b bytes).append more := by
  unfold first at h ⊢
  split
  · rfl
  · next hb =>
    rw [if_neg hb] at h
    split
    · rfl
    · next l hl =>
      rw [hl] at h
      apply following_append more h

/-- A first character that is whole stays so. -/
theorem first_append_char {b : UInt8} {c : Char} {bytes rest : Bytes} (more : Bytes)
    (h : first b bytes = .char c rest) : first b (bytes ++ more) = .char c (rest ++ more) := by
  rw [first_append more (by rw [h]; nofun), h]
  rfl

/-- A first character that is broken stays so. -/
theorem first_append_broken {b : UInt8} {bytes rest : Bytes} (more : Bytes)
    (h : first b bytes = .broken rest) : first b (bytes ++ more) = .broken (rest ++ more) := by
  rw [first_append more (by rw [h]; nofun), h]
  rfl

/-! ## The decoders, front by front -/

section Fronts

variable {b : UInt8} {c : Char} {r rest : Bytes}

theorem decode?_cons (b : UInt8) (r : Bytes) : decode? (b :: r) =
    match first b r with
    | .char c rest => (decode? rest).map (c :: ·)
    | .broken _ | .cut => none := by
  rw [decode?]
  split
  · next h => simp only [h]
  · next h => simp only [h]
  · next h => simp only [h]

theorem decodeLossy_cons (b : UInt8) (r : Bytes) : decodeLossy (b :: r) =
    match first b r with
    | .char c rest => c :: decodeLossy rest
    | .broken rest => replacement :: decodeLossy rest
    | .cut => [replacement] := by
  rw [decodeLossy]
  split
  · next h => simp only [h]
  · next h => simp only [h]
  · next h => simp only [h]

theorem decodeAvailable_cons (b : UInt8) (r : Bytes) : decodeAvailable (b :: r) =
    match first b r with
    | .char c rest => (c :: (decodeAvailable rest).1, (decodeAvailable rest).2)
    | .broken rest => (replacement :: (decodeAvailable rest).1, (decodeAvailable rest).2)
    | .cut => ([], b :: r) := by
  rw [decodeAvailable]
  split
  · next h => simp only [h]
  · next h => simp only [h]
  · next h => simp only [h]

/-- A whole character comes first. -/
theorem decode?_char (h : first b r = .char c rest) :
    decode? (b :: r) = (decode? rest).map (c :: ·) := by
  rw [decode?_cons, h]

/-- A whole character comes first. -/
theorem decodeLossy_char (h : first b r = .char c rest) :
    decodeLossy (b :: r) = c :: decodeLossy rest := by
  rw [decodeLossy_cons, h]

/-- For broken bytes a replacement comes first. -/
theorem decodeLossy_broken (h : first b r = .broken rest) :
    decodeLossy (b :: r) = replacement :: decodeLossy rest := by
  rw [decodeLossy_cons, h]

/-- Bytes that are cut make one replacement. -/
theorem decodeLossy_cut (h : first b r = .cut) : decodeLossy (b :: r) = [replacement] := by
  rw [decodeLossy_cons, h]

/-- A whole character comes first. -/
theorem decodeAvailable_char (h : first b r = .char c rest) :
    decodeAvailable (b :: r) = (c :: (decodeAvailable rest).1, (decodeAvailable rest).2) := by
  rw [decodeAvailable_cons, h]

/-- For broken bytes a replacement comes first. -/
theorem decodeAvailable_broken (h : first b r = .broken rest) :
    decodeAvailable (b :: r) =
      (replacement :: (decodeAvailable rest).1, (decodeAvailable rest).2) := by
  rw [decodeAvailable_cons, h]

/-- Bytes that are cut are held back. -/
theorem decodeAvailable_cut (h : first b r = .cut) : decodeAvailable (b :: r) = ([], b :: r) := by
  rw [decodeAvailable_cons, h]

theorem length_rest_lt {f : Front} (h : first b r = f) : f.rest.length < (b :: r).length := by
  rw [← h, List.length_cons]
  exact Nat.lt_succ_of_le (rest_first_le b r)

end Fronts

/-- Bytes are read front by front. -/
theorem byFronts {P : Bytes → Prop} (nil : P [])
    (char : ∀ b r c rest, first b r = .char c rest → P rest → P (b :: r))
    (broken : ∀ b r rest, first b r = .broken rest → P rest → P (b :: r))
    (cut : ∀ b r, first b r = .cut → P (b :: r)) (bytes : Bytes) : P bytes := by
  match bytes with
  | [] => exact nil
  | b :: r =>
    cases h : first b r with
    | char c rest =>
      have shorter : rest.length ≤ r.length := Nat.le_of_lt_succ (length_rest_lt h)
      exact char b r c rest h (byFronts nil char broken cut rest)
    | broken rest =>
      have shorter : rest.length ≤ r.length := Nat.le_of_lt_succ (length_rest_lt h)
      exact broken b r rest h (byFronts nil char broken cut rest)
    | cut => exact cut b r h
termination_by bytes.length

/-! ## Bytes that arrive in pieces -/

/-- Bytes may be decoded as they arrive: what is held back goes before the bytes that follow. -/
theorem decodeLossy_append (bytes more : Bytes) :
    decodeLossy (bytes ++ more) =
      (decodeAvailable bytes).1 ++ decodeLossy ((decodeAvailable bytes).2 ++ more) := by
  -- only a cut front depends on what follows, and that is what is held back
  induction bytes using byFronts with
  | nil =>
    rw [decodeAvailable]
    rfl
  | char b r c rest h ih =>
    rw [decodeAvailable_char h, List.cons_append, decodeLossy_char (first_append_char more h), ih,
      List.cons_append]
  | broken b r rest h ih =>
    rw [decodeAvailable_broken h, List.cons_append, decodeLossy_broken (first_append_broken more h),
      ih, List.cons_append]
  | cut b r h =>
    rw [decodeAvailable_cut h, List.nil_append]

theorem decodeLossy_eq_nil {bytes : Bytes} : decodeLossy bytes = [] ↔ bytes = [] := by
  cases bytes with
  | nil => simp [decodeLossy]
  | cons b r =>
    cases h : first b r with
    | char c rest => simp [decodeLossy_char h]
    | broken rest => simp [decodeLossy_broken h]
    | cut => simp [decodeLossy_cut h]

/-! ## Characters and their bytes -/

/-- The value of a continuation byte. -/
theorem toNat_continuation (n : Nat) : (UInt8.ofNat (n % 64 + 128)).toNat = n % 64 + 128 := by
  rw [UInt8.toNat_ofNat']
  omega

/-- A continuation byte adds six bits. -/
theorem extend_continuation (code n : Nat) :
    extend code (UInt8.ofNat (n % 64 + 128)) = code * 64 + n % 64 := by
  rw [extend, toNat_continuation]
  omega

/-- A byte in the range of the first byte that follows is taken. -/
theorem following_succ {n code x : Nat} {low high : UInt8} (rest : Bytes)
    (hlow : low.toNat ≤ x % 64 + 128) (hhigh : x % 64 + 128 ≤ high.toNat) :
    following (n + 1) low high code (UInt8.ofNat (x % 64 + 128) :: rest) =
      following n 0x80 0xBF (code * 64 + x % 64) rest := by
  rw [following, if_pos, extend_continuation]
  rw [UInt8.le_iff_toNat_le, UInt8.le_iff_toNat_le, toNat_continuation]
  exact ⟨hlow, hhigh⟩

/-- A continuation byte is accepted where any may follow. -/
theorem following_succ_any {n code x : Nat} (rest : Bytes) :
    following (n + 1) 0x80 0xBF code (UInt8.ofNat (x % 64 + 128) :: rest) =
      following n 0x80 0xBF (code * 64 + x % 64) rest := by
  apply following_succ
  · show 128 ≤ _
    omega
  · show _ ≤ 191
    omega

/-! A leading byte is a mark and its payload; the marks of three and four bytes narrow the range of
the byte that follows, at both ends of what can be encoded that way and around the surrogates. -/

/-- The first byte of a character of two bytes. -/
theorem first_two {x : Nat} (hlow : 2 ≤ x) (hhigh : x < 32) (rest : Bytes) :
    first (UInt8.ofNat (x + 192)) rest = following 1 0x80 0xBF x rest := by
  interval_cases x <;> rfl

/-- The first byte of a character of three bytes, with the bounds of the second. -/
theorem first_three {x : Nat} (hhigh : x < 16) (rest : Bytes) :
    first (UInt8.ofNat (x + 224)) rest =
      following 2 (if x = 0 then 0xA0 else 0x80) (if x = 13 then 0x9F else 0xBF) x rest := by
  interval_cases x <;> rfl

/-- The first byte of a character of four bytes, with the bounds of the second. -/
theorem first_four {x : Nat} (hhigh : x < 5) (rest : Bytes) :
    first (UInt8.ofNat (x + 240)) rest =
      following 3 (if x = 0 then 0x90 else 0x80) (if x = 4 then 0x8F else 0xBF) x rest := by
  interval_cases x <;> rfl

/-- The bytes of a character are read as that character, whatever follows them. -/
theorem first_utf8EncodeChar (c : Char) (rest : Bytes) :
    ∃ b r, String.utf8EncodeChar c ++ rest = b :: r ∧ first b r = .char c rest := by
  have valid := c.valid
  have code : Char.ofNat c.val.toNat = c := Char.ofNat_toNat c
  generalize hv : c.val.toNat = v at code
  -- a character is no surrogate, which the narrowed ranges of the second byte rest on
  have hv' : v < 0xD800 ∨ 0xDFFF < v ∧ v < 0x110000 := by
    rw [← hv]
    exact valid
  -- one to four bytes, by the size of the character
  unfold String.utf8EncodeChar
  rw [hv]
  dsimp only
  split
  · next one =>
    refine ⟨_, _, List.cons_append, ?_⟩
    have small : (UInt8.ofNat v).toNat = v := by
      rw [UInt8.toNat_ofNat']
      omega
    rw [first, if_pos, small, code]
    · rfl
    · rw [UInt8.lt_iff_toNat_lt, small]
      show v < 128
      omega
  · split
    · next two =>
      refine ⟨_, _, List.cons_append, ?_⟩
      have value : v / 64 % 32 * 64 + v % 64 = v := by omega
      rw [first_two (by omega) (by omega), List.cons_append, List.nil_append, following_succ_any,
        value, following, code]
    · split
      · next three =>
        refine ⟨_, _, List.cons_append, ?_⟩
        have value : (v / 4096 % 16 * 64 + v / 64 % 64) * 64 + v % 64 = v := by omega
        rw [first_three (by omega), List.cons_append, List.cons_append, List.nil_append,
          following_succ, following_succ_any, value, following, code]
        · split
          · show 160 ≤ _
            omega
          · show 128 ≤ _
            omega
        · split
          · show _ ≤ 159
            omega
          · show _ ≤ 191
            omega
      · next four =>
        refine ⟨_, _, List.cons_append, ?_⟩
        have value :
            ((v / 262144 % 8 * 64 + v / 4096 % 64) * 64 + v / 64 % 64) * 64 + v % 64 = v := by
          omega
        rw [first_four (by omega), List.cons_append, List.cons_append, List.cons_append,
          List.nil_append, following_succ, following_succ_any, following_succ_any, value, following,
          code]
        · split
          · show 144 ≤ _
            omega
          · show 128 ≤ _
            omega
        · split
          · show _ ≤ 143
            omega
          · show _ ≤ 191
            omega

/-- A text is read back from its bytes. -/
theorem decode?_encode (t : Text) : decode? (encode t) = some t := by
  induction t with
  | nil =>
    unfold encode
    rw [List.flatMap_nil, decode?]
  | cons c t ih =>
    obtain ⟨b, r, hbytes, hfirst⟩ := first_utf8EncodeChar c (encode t)
    have joined : encode (c :: t) = b :: r := hbytes
    rw [joined, decode?_char hfirst, ih]
    rfl

theorem encode_cons (c : Char) (t : Text) :
    encode (c :: t) = String.utf8EncodeChar c ++ encode t := rfl

theorem encode_append (t u : Text) : encode (t ++ u) = encode t ++ encode u := List.flatMap_append

/-- A text has at least as many bytes as characters. -/
theorem length_le_encode (t : Text) : t.length ≤ (encode t).length := by
  induction t with
  | nil => exact Nat.le_refl 0
  | cons c t ih =>
    have one := c.utf8Size_pos
    rw [← String.length_utf8EncodeChar] at one
    rw [List.length_cons, encode_cons, List.length_append, Nat.add_comm]
    exact Nat.add_le_add one ih

/-! ## Bytes of the ASCII range -/

/-- A byte of ASCII is none of the others. -/
theorem ne_of_beyond {n : Nat} {b : UInt8} (hb : b < 128) (hlow : 128 ≤ n) (hhigh : n < 256) :
    b ≠ UInt8.ofNat n := by
  intro h
  rw [h, UInt8.lt_iff_toNat_lt, UInt8.toNat_ofNat'] at hb
  have : n % 256 < 128 := hb
  omega

/-- A byte of the ASCII range stands for itself only. -/
theorem eq_of_mem_utf8EncodeChar {b : UInt8} {c : Char} (hb : b < 128)
    (h : b ∈ String.utf8EncodeChar c) : c.toNat = b.toNat := by
  unfold String.utf8EncodeChar at h
  dsimp only at h
  split at h
  · next one =>
    rw [List.mem_singleton.1 h, UInt8.toNat_ofNat']
    show c.val.toNat = _
    omega
  · split at h
    · simp only [List.mem_cons, List.not_mem_nil, or_false] at h
      rcases h with h | h
      all_goals exact absurd h (ne_of_beyond hb (by omega) (by omega))
    · split at h
      · simp only [List.mem_cons, List.not_mem_nil, or_false] at h
        rcases h with h | h | h
        all_goals exact absurd h (ne_of_beyond hb (by omega) (by omega))
      · simp only [List.mem_cons, List.not_mem_nil, or_false] at h
        rcases h with h | h | h | h
        all_goals exact absurd h (ne_of_beyond hb (by omega) (by omega))

/-- A byte of ASCII stands only for its own character. -/
theorem notMem_encode {c : Char} {b : UInt8} {t : Text} (hb : b < 128) (hc : c.toNat = b.toNat)
    (h : c ∉ t) : b ∉ encode t := by
  intro hmem
  obtain ⟨d, hd, hmem⟩ := List.mem_flatMap.1 hmem
  have same : d.toNat = c.toNat := (eq_of_mem_utf8EncodeChar hb hmem).trans hc.symm
  exact h (Char.toNat_inj.1 same ▸ hd)

end Marginalia.Utf8
