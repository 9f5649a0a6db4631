import Marginalia.Text

/-!
# UTF-8

The bytes of a text and the text of bytes. Every decoder here reads by `first`, which takes one
character or one ill-formed sequence from the front; they differ in what they do with the rest:

* `decode?` refuses ill-formed bytes;
* `decodeLossy` puts U+FFFD for each ill-formed sequence, and one for a character cut off by the
  end;
* `decodeAvailable` does the same, but hands back a character cut off by the end instead of
  replacing it, because more bytes may follow.
-/

namespace Marginalia.Utf8

/-- A byte string. -/
abbrev Bytes := List UInt8

/-- The bytes of a text. -/
def encode (t : Text) : Bytes := t.flatMap String.utf8EncodeChar

/-- What is put for an ill-formed sequence. -/
def replacement : Char := '\uFFFD'

/-- What a leading byte promises: how many bytes follow it, and the range of the first of them. -/
structure Lead where
  following : Nat
  low : UInt8
  high : UInt8

/-- The promise of a byte that starts a sequence of several bytes. -/
def lead? (b : UInt8) : Option Lead :=
  if b < 0xC2 then none
  else if b ≤ 0xDF then some ⟨1, 0x80, 0xBF⟩
  else if b = 0xE0 then some ⟨2, 0xA0, 0xBF⟩
  else if b = 0xED then some ⟨2, 0x80, 0x9F⟩
  else if b ≤ 0xEF then some ⟨2, 0x80, 0xBF⟩
  else if b = 0xF0 then some ⟨3, 0x90, 0xBF⟩
  else if b ≤ 0xF3 then some ⟨3, 0x80, 0xBF⟩
  else if b = 0xF4 then some ⟨3, 0x80, 0x8F⟩
  else none

/-- What stands at the front of a byte string. -/
inductive Front where
  /-- A character, and what follows it. -/
  | char (c : Char) (rest : Bytes)
  /-- The longest start of a character that the next byte cannot continue, or a byte that starts
  none, and what follows. -/
  | broken (rest : Bytes)
  /-- The start of a character, and then the end. -/
  | cut

/-- Adds the payload of a following byte to the code point read so far. -/
def extend (code : Nat) (b : UInt8) : Nat := code * 64 + b.toNat % 64

/-- Reads the bytes that follow a leading byte; `low` and `high` bound the first of them. -/
def following : Nat → UInt8 → UInt8 → Nat → Bytes → Front
  | 0, _, _, code, rest => .char (Char.ofNat code) rest
  | _ + 1, _, _, _, [] => .cut
  | n + 1, low, high, code, b :: rest =>
    if low ≤ b ∧ b ≤ high then following n 0x80 0xBF (extend code b) rest else .broken (b :: rest)

/-- Reads the front of a byte string that starts with `b`. -/
def first (b : UInt8) (rest : Bytes) : Front :=
  if b < 0x80 then .char (Char.ofNat b.toNat) rest
  else
    match lead? b with
    | none => .broken rest
    -- the leading byte has one payload bit fewer for each byte that follows
    | some l => following l.following l.low l.high (b.toNat % (0x40 >>> l.following)) rest

/-- What a front leaves to read. -/
def Front.rest : Front → Bytes
  | .char _ rest => rest
  | .broken rest => rest
  | .cut => []

theorem rest_following_le (n : Nat) (low high : UInt8) (code : Nat) (bytes : Bytes) :
    (following n low high code bytes).rest.length ≤ bytes.length := by
  induction bytes generalizing n low high code with
  | nil => cases n <;> simp [following, Front.rest]
  | cons b r ih =>
    cases n with
    | zero => simp [following, Front.rest]
    | succ n =>
      unfold following
      split
      · exact Nat.le_succ_of_le (ih n 0x80 0xBF (extend code b))
      · exact Nat.le_refl _

theorem rest_first_le (b : UInt8) (bytes : Bytes) :
    (first b bytes).rest.length ≤ bytes.length := by
  unfold first
  split
  · exact Nat.le_refl _
  · split
    · exact Nat.le_refl _
    · exact rest_following_le ..

/-- The text of well-formed bytes. -/
def decode? : Bytes → Option Text
  | [] => some []
  | b :: r =>
    match h : first b r with
    | .char c rest =>
      have : rest.length < r.length + 1 := by
        have := rest_first_le b r
        rw [h] at this
        exact Nat.lt_succ_of_le this
      (decode? rest).map (c :: ·)
    | .broken _ => none
    | .cut => none
termination_by bytes => bytes.length

/-- The text of any bytes, with U+FFFD for each ill-formed sequence. -/
def decodeLossy : Bytes → Text
  | [] => []
  | b :: r =>
    match h : first b r with
    | .char c rest =>
      have : rest.length < r.length + 1 := by
        have := rest_first_le b r
        rw [h] at this
        exact Nat.lt_succ_of_le this
      c :: decodeLossy rest
    | .broken rest =>
      have : rest.length < r.length + 1 := by
        have := rest_first_le b r
        rw [h] at this
        exact Nat.lt_succ_of_le this
      replacement :: decodeLossy rest
    | .cut => [replacement]
termination_by bytes => bytes.length

/-- The text of the bytes that have arrived, and the bytes held back at the end because they start
a character that is not complete. -/
def decodeAvailable : Bytes → Text × Bytes
  | [] => ([], [])
  | b :: r =>
    match h : first b r with
    | .char c rest =>
      have : rest.length < r.length + 1 := by
        have := rest_first_le b r
        rw [h] at this
        exact Nat.lt_succ_of_le this
      let (t, held) := decodeAvailable rest
      (c :: t, held)
    | .broken rest =>
      have : rest.length < r.length + 1 := by
        have := rest_first_le b r
        rw [h] at this
        exact Nat.lt_succ_of_le this
      let (t, held) := decodeAvailable rest
      (replacement :: t, held)
    | .cut => ([], b :: r)
termination_by bytes => bytes.length

/-- Decodes what arrives after some bytes were held back. -/
def decodeChunk (held chunk : Bytes) : Text × Bytes := decodeAvailable (held ++ chunk)

/-- What bytes still held back stand for when nothing more arrives. -/
def flush (held : Bytes) : Text := decodeLossy held

/-- The first byte of a character's UTF-8 form. -/
def leadByte (c : Char) : UInt8 := (String.utf8EncodeChar c).headD 0

end Marginalia.Utf8
