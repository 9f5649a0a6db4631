import Marginalia.Proofs.Text
import Marginalia.Proofs.Text.Utf8

/-!
# What stands at the front of some bytes

A leading byte promises some bytes, and a range for the first of them (`Leads`). If all of them
follow, the front is a character, and these are its bytes (`eq_append_of_char`); if the end comes
before, the front is the start of a character (`startsChar_of_cut`); otherwise it is ill-formed, and
only bytes that were promised are taken with it.

So bytes are the bytes of a text in one way at most: if they are decoded, then to that text
(`decode?_eq_some`).
-/

namespace Marginalia.Utf8

/-! ## Bytes that follow a leading byte -/

/-- The bytes that a leading byte promises: how many, and the range of the first of them. -/
inductive Follows : Nat → UInt8 → UInt8 → Bytes → Prop where
  | nil {low high : UInt8} : Follows 0 low high []
  | cons {n : Nat} {low high b : UInt8} {bs : Bytes} (low_le : low ≤ b) (le_high : b ≤ high)
      (rest : Follows n 0x80 0xBF bs) : Follows (n + 1) low high (b :: bs)

theorem follows_replicate (n : Nat) : Follows n 0x80 0xBF (List.replicate n 0x80) := by
  induction n with
  | zero => exact .nil
  | succ n ih => exact .cons (by decide) (by decide) ih

/-- A character is read where all the promised bytes are there. -/
theorem exists_follows_of_char {n : Nat} {low high : UInt8} {code : Nat} {bytes rest : Bytes}
    {c : Char} (h : following n low high code bytes = .char c rest) :
    ∃ bs, Follows n low high bs ∧ bytes = bs ++ rest ∧ Char.ofNat (bs.foldl extend code) = c := by
  induction bytes generalizing n low high code with
  | nil =>
    cases n with
    | zero =>
      cases h
      exact ⟨[], .nil, rfl, rfl⟩
    | succ n => cases h
  | cons b r ih =>
    cases n with
    | zero =>
      cases h
      exact ⟨[], .nil, rfl, rfl⟩
    | succ n =>
      unfold following at h
      split at h
      · next range =>
        obtain ⟨bs, promised, rfl, code⟩ := ih h
        exact ⟨b :: bs, .cons range.1 range.2 promised, rfl, code⟩
      · cases h

/-- Where the end cuts a character off, some of the promised bytes are there, and the others are
not. -/
theorem exists_follows_of_cut {n : Nat} {low high : UInt8} {code : Nat} {bytes : Bytes}
    (order : low ≤ high) (h : following n low high code bytes = .cut) :
    ∃ more, more ≠ [] ∧ Follows n low high (bytes ++ more) := by
  induction bytes generalizing n low high code with
  | nil =>
    cases n with
    | zero => cases h
    | succ n => exact ⟨low :: List.replicate n 0x80, by simp,
      .cons (by simp) order (follows_replicate n)⟩
  | cons b r ih =>
    cases n with
    | zero => cases h
    | succ n =>
      unfold following at h
      split at h
      · next range =>
        obtain ⟨more, some, promised⟩ := ih (by decide) h
        exact ⟨more, some, .cons range.1 range.2 promised⟩
      · cases h

/-- Of an ill-formed sequence, what follows its first byte is taken away too, as far as it was
promised. -/
theorem suffix_of_broken {n : Nat} {low high : UInt8} {code : Nat} {bytes rest : Bytes}
    (h : following n low high code bytes = .broken rest) : rest <:+ bytes := by
  induction bytes generalizing n low high code with
  | nil => cases n <;> cases h
  | cons b r ih =>
    cases n with
    | zero => cases h
    | succ n =>
      unfold following at h
      split at h
      · exact (ih h).trans (List.suffix_cons b r)
      · cases h
        exact List.suffix_rfl

/-! ## Leading bytes -/

/-- The bytes of a character, by its code. -/
theorem utf8EncodeChar_ofNat {v : Nat} (valid : v.isValidChar) :
    String.utf8EncodeChar (Char.ofNat v) =
    if v ≤ 0x7F then [UInt8.ofNat v]
    else if v ≤ 0x7FF then [UInt8.ofNat (v / 64 % 32 + 192), UInt8.ofNat (v % 64 + 128)]
    else if v ≤ 0xFFFF then
      [UInt8.ofNat (v / 4096 % 16 + 224), UInt8.ofNat (v / 64 % 64 + 128),
        UInt8.ofNat (v % 64 + 128)]
    else
      [UInt8.ofNat (v / 262144 % 8 + 240), UInt8.ofNat (v / 4096 % 64 + 128),
        UInt8.ofNat (v / 64 % 64 + 128), UInt8.ofNat (v % 64 + 128)] := by
  have value : (Char.ofNat v).val.toNat = v := by
    rw [Char.ofNat, dif_pos valid]
    rfl
  unfold String.utf8EncodeChar
  rw [value]

/-- A byte that follows, from the payload that is taken of it. -/
theorem continuation_eq {n : Nat} {b : UInt8} (low : 128 ≤ b.toNat) (high : b.toNat ≤ 191)
    (payload : n % 64 = b.toNat % 64) : UInt8.ofNat (n % 64 + 128) = b := by
  rw [← UInt8.toNat_inj, toNat_continuation]
  omega

/-! The range of the first byte that follows may be narrowed at either end. -/

/-- The lower bound of a second byte, as a number. -/
theorem toNat_of_low {p : Prop} [Decidable p] {a b : UInt8} (le : 0x80 ≤ a)
    (h : (if p then a else 0x80) ≤ b) : 128 ≤ b.toNat ∧ (p → a.toNat ≤ b.toNat) := by
  rw [UInt8.le_iff_toNat_le] at le
  split at h
  · next hp => exact ⟨le_trans le (UInt8.le_iff_toNat_le.1 h), fun _ => UInt8.le_iff_toNat_le.1 h⟩
  · next hp => exact ⟨UInt8.le_iff_toNat_le.1 h, fun some => absurd some hp⟩

/-- The upper bound of a second byte, as a number. -/
theorem toNat_of_high {p : Prop} [Decidable p] {a b : UInt8} (le : a ≤ 0xBF)
    (h : b ≤ if p then a else 0xBF) : b.toNat ≤ 191 ∧ (p → b.toNat ≤ a.toNat) := by
  rw [UInt8.le_iff_toNat_le] at le
  split at h
  · next hp => exact ⟨le_trans (UInt8.le_iff_toNat_le.1 h) le, fun _ => UInt8.le_iff_toNat_le.1 h⟩
  · next hp => exact ⟨UInt8.le_iff_toNat_le.1 h, fun some => absurd some hp⟩

/-- The bounds of any other byte, as numbers. -/
theorem toNat_of_any {b : UInt8} (low : 0x80 ≤ b) (high : b ≤ 0xBF) :
    128 ≤ b.toNat ∧ b.toNat ≤ 191 :=
  ⟨UInt8.le_iff_toNat_le.1 low, UInt8.le_iff_toNat_le.1 high⟩

/-- A byte that leads the characters of some length: what it promises, and the code that its payload
starts. -/
structure Leads (b : UInt8) (n : Nat) (low high : UInt8) (code : Nat) : Prop where
  few : n ≤ 3
  order : low ≤ high
  first : ∀ bytes, first b bytes = following n low high code bytes
  encode : ∀ bs, Follows n low high bs →
    String.utf8EncodeChar (Char.ofNat (bs.foldl extend code)) = b :: bs

/-- A byte of ASCII is a character. -/
theorem leads_one {b : UInt8} (h : b.toNat < 128) : Leads b 0 0x80 0xBF b.toNat where
  few := by omega
  order := by decide
  first bytes := by
    rw [Utf8.first, if_pos (by rw [UInt8.lt_iff_toNat_lt]; exact h), following]
  encode bs promised := by
    cases promised
    rw [List.foldl_nil, utf8EncodeChar_ofNat (.inl (by omega)), if_pos (by omega),
      UInt8.ofNat_toNat]

/-- The first of two bytes. -/
theorem leads_two {x : Nat} (hlow : 2 ≤ x) (hhigh : x < 32) :
    Leads (UInt8.ofNat (x + 192)) 1 0x80 0xBF x where
  few := by omega
  order := by decide
  first := first_two hlow hhigh
  encode bs promised := by
    obtain _ | @⟨-, -, -, b₁, -, low₁, high₁, _ | _⟩ := promised
    obtain ⟨low₁, high₁⟩ := toNat_of_any low₁ high₁
    have code : [b₁].foldl extend x = x * 64 + b₁.toNat % 64 := rfl
    rw [code, utf8EncodeChar_ofNat (.inl (by omega)), if_neg (by omega), if_pos (by omega)]
    have lead : (x * 64 + b₁.toNat % 64) / 64 % 32 = x := by omega
    rw [lead, continuation_eq low₁ high₁ (by omega)]

/-- The first of three bytes. -/
theorem leads_three {x : Nat} (hhigh : x < 16) : Leads (UInt8.ofNat (x + 224)) 2
    (if x = 0 then 0xA0 else 0x80) (if x = 13 then 0x9F else 0xBF) x where
  few := by omega
  order := by interval_cases x <;> decide
  first := first_three hhigh
  encode bs promised := by
    obtain _ | @⟨-, -, -, b₁, -, low₁, high₁, _ | @⟨-, -, -, b₂, -, low₂, high₂, _ | _⟩⟩ := promised
    -- the range leaves out codes that are too short, and surrogates
    obtain ⟨low₁, long⟩ := toNat_of_low (by decide) low₁
    obtain ⟨high₁, character⟩ := toNat_of_high (by decide) high₁
    obtain ⟨low₂, high₂⟩ := toNat_of_any low₂ high₂
    change x = 0 → 160 ≤ _ at long
    change x = 13 → _ ≤ 159 at character
    have code : [b₁, b₂].foldl extend x = (x * 64 + b₁.toNat % 64) * 64 + b₂.toNat % 64 := rfl
    generalize hv : (x * 64 + b₁.toNat % 64) * 64 + b₂.toNat % 64 = v at code
    have valid : v.isValidChar := by
      by_cases before : x ≤ 13
      · exact .inl (by omega)
      · exact .inr ⟨by omega, by omega⟩
    rw [code, utf8EncodeChar_ofNat valid, if_neg (by omega), if_neg (by omega), if_pos (by omega)]
    have lead : v / 4096 % 16 = x := by omega
    rw [lead, continuation_eq low₁ high₁ (by omega), continuation_eq low₂ high₂ (by omega)]

/-- The first of four bytes. -/
theorem leads_four {x : Nat} (hhigh : x < 5) : Leads (UInt8.ofNat (x + 240)) 3
    (if x = 0 then 0x90 else 0x80) (if x = 4 then 0x8F else 0xBF) x where
  few := by omega
  order := by interval_cases x <;> decide
  first := first_four hhigh
  encode bs promised := by
    obtain _ | @⟨-, -, -, b₁, -, low₁, high₁, _ | @⟨-, -, -, b₂, -, low₂, high₂,
      _ | @⟨-, -, -, b₃, -, low₃, high₃, _ | _⟩⟩⟩ := promised
    -- the range leaves out codes that are too short, and those behind the last character
    obtain ⟨low₁, long⟩ := toNat_of_low (by decide) low₁
    obtain ⟨high₁, character⟩ := toNat_of_high (by decide) high₁
    obtain ⟨low₂, high₂⟩ := toNat_of_any low₂ high₂
    obtain ⟨low₃, high₃⟩ := toNat_of_any low₃ high₃
    change x = 0 → 144 ≤ _ at long
    change x = 4 → _ ≤ 143 at character
    have code : [b₁, b₂, b₃].foldl extend x =
        ((x * 64 + b₁.toNat % 64) * 64 + b₂.toNat % 64) * 64 + b₃.toNat % 64 := rfl
    generalize hv : ((x * 64 + b₁.toNat % 64) * 64 + b₂.toNat % 64) * 64 + b₃.toNat % 64 = v at code
    have valid : v.isValidChar := .inr ⟨by omega, by omega⟩
    rw [code, utf8EncodeChar_ofNat valid, if_neg (by omega), if_neg (by omega), if_neg (by omega)]
    have lead : v / 262144 % 8 = x := by omega
    rw [lead, continuation_eq low₁ high₁ (by omega), continuation_eq low₂ high₂ (by omega),
      continuation_eq low₃ high₃ (by omega)]

/-- The other bytes start no character. -/
theorem lead?_eq_none {b : UInt8} (h : b.toNat < 194 ∨ 244 < b.toNat) : lead? b = none := by
  unfold lead?
  simp only [UInt8.lt_iff_toNat_lt, UInt8.le_iff_toNat_le, ← UInt8.toNat_inj, UInt8.reduceToNat]
  rcases h with low | high
  · rw [if_pos low]
  · iterate 8 rw [if_neg (by omega)]

/-- A byte leads characters of one length, or none at all. -/
theorem leads_or_broken (b : UInt8) :
    (∃ n low high code, Leads b n low high code) ∨ ∀ bytes, first b bytes = .broken bytes := by
  have eq {n : Nat} (h : n = b.toNat) : UInt8.ofNat n = b := by rw [h, UInt8.ofNat_toNat]
  by_cases one : b.toNat < 128
  · exact .inl ⟨_, _, _, _, leads_one one⟩
  by_cases none : b.toNat < 194 ∨ 244 < b.toNat
  · right
    intro bytes
    rw [first, if_neg (by rw [UInt8.lt_iff_toNat_lt]; exact one), lead?_eq_none none]
  left
  by_cases two : b.toNat < 224
  · have lead := leads_two (x := b.toNat - 192) (by omega) (by omega)
    rw [eq (by omega)] at lead
    exact ⟨_, _, _, _, lead⟩
  by_cases three : b.toNat < 240
  · have lead := leads_three (x := b.toNat - 224) (by omega)
    rw [eq (by omega)] at lead
    exact ⟨_, _, _, _, lead⟩
  · have lead := leads_four (x := b.toNat - 240) (by omega)
    rw [eq (by omega)] at lead
    exact ⟨_, _, _, _, lead⟩

/-! ## Fronts -/

/-- A character is read from its own bytes. -/
theorem eq_append_of_char {b : UInt8} {r rest : Bytes} {c : Char} (h : first b r = .char c rest) :
    b :: r = String.utf8EncodeChar c ++ rest := by
  obtain ⟨n, low, high, code, lead⟩ | broken := leads_or_broken b
  · rw [lead.first] at h
    obtain ⟨bs, promised, rfl, rfl⟩ := exists_follows_of_char h
    rw [lead.encode bs promised, List.cons_append]
  · rw [broken] at h
    cases h

/-- Behind broken bytes comes what is left of them. -/
theorem suffix_of_first_broken {b : UInt8} {r rest : Bytes} (h : first b r = .broken rest) :
    rest <:+ r := by
  obtain ⟨n, low, high, code, lead⟩ | broken := leads_or_broken b
  · rw [lead.first] at h
    exact suffix_of_broken h
  · rw [broken] at h
    cases h
    exact List.suffix_rfl

/-- Bytes that start a character and do not finish it. -/
def StartsChar (bytes : Bytes) : Prop :=
  ∃ (c : Char) (more : Bytes), more ≠ [] ∧ String.utf8EncodeChar c = bytes ++ more

theorem startsChar_nil : StartsChar [] := ⟨'a', [0x61], by decide, rfl⟩

/-- What starts a character has three bytes at most. -/
theorem StartsChar.length_le {bytes : Bytes} (h : StartsChar bytes) : bytes.length ≤ 3 := by
  obtain ⟨c, more, some, hc⟩ := h
  have size : c.utf8Size = bytes.length + more.length := by
    rw [← String.length_utf8EncodeChar, hc, List.length_append]
  have most := c.utf8Size_le_four
  have := List.length_pos_iff.2 some
  omega

/-- What the end cuts off starts a character. -/
theorem startsChar_of_cut {b : UInt8} {r : Bytes} (h : first b r = .cut) : StartsChar (b :: r) := by
  obtain ⟨n, low, high, code, lead⟩ | broken := leads_or_broken b
  · rw [lead.first] at h
    obtain ⟨more, some, promised⟩ := exists_follows_of_cut lead.order h
    exact ⟨_, more, some, lead.encode _ promised⟩
  · rw [broken] at h
    cases h

end Marginalia.Utf8
