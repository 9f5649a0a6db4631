import Marginalia.Proofs.Text.Fronts

/-!
# Text that arrives in chunks

A decoder that is given bytes in chunks puts out what the bytes stand for as a whole
(`decodeChunks_lossy`), wherever the chunks are cut. What it holds back between two chunks is the
start of a character that the cut has parted (`StartsChar`), so that three bytes are the most.

The decoder may be read as a loop, too: a check finds the well-formed bytes at the front and how
long the ill-formed sequence behind them is (`check`), and a round takes both away. Every round but
the last takes an ill-formed sequence, which has a byte at least, so that the rounds end
(`rounds_eq`).
-/

namespace Marginalia.Utf8

/-! ## What is held back -/

/-- What is held back starts a character. -/
theorem startsChar_decodeAvailable (bytes : Bytes) : StartsChar (decodeAvailable bytes).2 := by
  induction bytes using byFronts with
  | nil =>
    rw [decodeAvailable]
    exact startsChar_nil
  | char b r c rest h ih =>
    rw [decodeAvailable_char h]
    exact ih
  | broken b r rest h ih =>
    rw [decodeAvailable_broken h]
    exact ih
  | cut b r h =>
    rw [decodeAvailable_cut h]
    exact startsChar_of_cut h

/-! ## Rounds -/

/-- How many bytes at the front are well-formed, and how long the ill-formed sequence behind them
is. There is none if nothing follows them but the start of a character. -/
def check : Bytes → Nat × Option Nat
  | [] => (0, none)
  | b :: r =>
    match h : first b r with
    | .char c rest =>
      have : rest.length < r.length + 1 := length_rest_lt h
      let (valid, invalid) := check rest
      (c.utf8Size + valid, invalid)
    | .broken rest => (0, some ((b :: r).length - rest.length))
    | .cut => (0, none)
termination_by bytes => bytes.length

section Check

variable {b : UInt8} {c : Char} {r rest : Bytes}

theorem check_cons (b : UInt8) (r : Bytes) : check (b :: r) =
    match first b r with
    | .char c rest => (c.utf8Size + (check rest).1, (check rest).2)
    | .broken rest => (0, some ((b :: r).length - rest.length))
    | .cut => (0, none) := by
  rw [check]
  split
  · next h => simp only [h]
  · next h => simp only [h]
  · next h => simp only [h]

/-- A whole character counts as valid. -/
theorem check_char (h : first b r = .char c rest) :
    check (b :: r) = (c.utf8Size + (check rest).1, (check rest).2) := by
  rw [check_cons, h]

/-- Broken bytes end what is valid. -/
theorem check_broken (h : first b r = .broken rest) :
    check (b :: r) = (0, some ((b :: r).length - rest.length)) := by
  rw [check_cons, h]

/-- Bytes that are cut end what is valid. -/
theorem check_cut (h : first b r = .cut) : check (b :: r) = (0, none) := by
  rw [check_cons, h]

end Check

/-- What may stand behind well-formed bytes, and the length of the ill-formed sequence that it
starts with. -/
inductive Stops : Bytes → Option Nat → Prop where
  | finished : Stops [] none
  | cut {b : UInt8} {r : Bytes} (h : first b r = .cut) : Stops (b :: r) none
  | broken {b : UInt8} {r rest : Bytes} (h : first b r = .broken rest) :
      Stops (b :: r) (some ((b :: r).length - rest.length))

/-- A check counts the bytes of the characters at the front, up to what is none. -/
theorem exists_check (bytes : Bytes) : ∃ (t : Text) (behind : Bytes), bytes = encode t ++ behind ∧
    (check bytes).1 = (encode t).length ∧ Stops behind (check bytes).2 := by
  induction bytes using byFronts with
  | nil =>
    rw [check]
    exact ⟨[], [], rfl, rfl, .finished⟩
  | char b r c rest h ih =>
    obtain ⟨t, behind, rfl, valid, stops⟩ := ih
    rw [check_char h, eq_append_of_char h]
    refine ⟨c :: t, behind, ?_, ?_, stops⟩
    · rw [encode_cons, List.append_assoc]
    · rw [encode_cons, List.length_append, String.length_utf8EncodeChar, valid]
  | broken b r rest h ih =>
    rw [check_broken h]
    exact ⟨[], b :: r, rfl, rfl, .broken h⟩
  | cut b r h =>
    rw [check_cut h]
    exact ⟨[], b :: r, rfl, rfl, .cut h⟩

/-- A text is decoded from its bytes. -/
theorem decodeLossy_encode (t : Text) : decodeLossy (encode t) = t := by
  induction t with
  | nil =>
    unfold encode
    rw [List.flatMap_nil, decodeLossy]
  | cons c t ih =>
    obtain ⟨b, r, hbytes, hfirst⟩ := first_utf8EncodeChar c (encode t)
    rw [encode_cons, hbytes, decodeLossy_char hfirst, ih]

/-- Characters that have arrived are put out, whatever follows them. -/
theorem decodeAvailable_encode_append (t : Text) (behind : Bytes) :
    decodeAvailable (encode t ++ behind) =
      (t ++ (decodeAvailable behind).1, (decodeAvailable behind).2) := by
  induction t with
  | nil => rfl
  | cons c t ih =>
    obtain ⟨b, r, hbytes, hfirst⟩ := first_utf8EncodeChar c (encode t ++ behind)
    rw [encode_cons, List.append_assoc, hbytes, decodeAvailable_char hfirst, ih, List.cons_append]

/-- What a round leaves to do. -/
inductive Round where
  /-- The decoder goes on with the bytes that are left. -/
  | again (text : Text) (pending : Bytes)
  /-- The decoder has put out a text and holds some bytes back. -/
  | done (text : Text) (held : Bytes)

/-- One round of the decoder, which has put out some text and has some bytes to read. -/
def round (text : Text) (pending : Bytes) : Round :=
  let (valid, invalid) := check pending
  let text := text ++ decodeLossy (pending.take valid)
  match invalid with
  | some length => .again (text ++ [replacement]) (pending.drop (valid + length))
  | none => .done text (pending.drop valid)

/-- What a number of rounds comes to, if they are enough. -/
def rounds : Nat → Text → Bytes → Option (Text × Bytes)
  | 0, _, _ => none
  | n + 1, text, pending =>
    match round text pending with
    | .again text pending => rounds n text pending
    | .done text held => some (text, held)

/-- A round puts out the characters at the front. It is the last one unless an ill-formed sequence
stands behind them, which it takes away. -/
theorem round_cases (text : Text) (pending : Bytes) :
    round text pending =
        .done (text ++ (decodeAvailable pending).1) (decodeAvailable pending).2 ∨
      ∃ (t : Text) (rest : Bytes), round text pending = .again (text ++ t ++ [replacement]) rest ∧
        rest.length < pending.length ∧ decodeAvailable pending =
          (t ++ replacement :: (decodeAvailable rest).1, (decodeAvailable rest).2) := by
  obtain ⟨t, behind, split, valid, stops⟩ := exists_check pending
  have available := decodeAvailable_encode_append t behind
  have front : pending.take (check pending).1 = encode t := by
    rw [valid, split, List.take_left]
  have back : ∀ n, pending.drop ((check pending).1 + n) = behind.drop n := fun n => by
    rw [valid, split, List.drop_length_add_append]
  unfold round
  dsimp only
  rw [front, decodeLossy_encode]
  -- behind the valid front there is nothing, a character that is cut, or broken bytes
  cases stops' : (check pending).2 with
  | none =>
    left
    rw [stops'] at stops
    have held : decodeAvailable behind = ([], behind) := by
      cases stops with
      | finished => rw [decodeAvailable]
      | cut h => exact decodeAvailable_cut h
    rw [split, available, held, List.append_nil, ← split]
    exact congrArg (Round.done (text ++ t)) (back 0)
  | some length =>
    right
    rw [stops'] at stops
    cases stops with
    | @broken b r rest h =>
      have rest_eq : (b :: r).drop ((b :: r).length - rest.length) = rest := by
        obtain ⟨taken, rfl⟩ := suffix_of_first_broken h
        rw [← List.cons_append, List.length_append, Nat.add_sub_cancel, List.drop_left]
      refine ⟨t, rest, ?_, ?_, ?_⟩
      · dsimp only
        rw [back, rest_eq]
      · have shorter := length_rest_lt h
        change rest.length < (b :: r).length at shorter
        rw [split, List.length_append]
        omega
      · rw [split, available, decodeAvailable_broken h]

/-- As many rounds as there are bytes, and one, are enough, and come to what the decoder puts out
and holds back. -/
theorem rounds_eq {n : Nat} (text : Text) {pending : Bytes} (enough : pending.length < n) :
    rounds n text pending =
      some (text ++ (decodeAvailable pending).1, (decodeAvailable pending).2) := by
  induction n generalizing text pending with
  | zero => omega
  | succ n ih =>
    unfold rounds
    obtain last | ⟨t, rest, again, shorter, available⟩ := round_cases text pending
    · rw [last]
    · rw [again]
      dsimp only
      rw [ih _ (by omega), available]
      simp

/-! ## Chunks -/

/-- The texts that chunks give one after the other, and what is held back behind the last of
them. -/
def decodeChunks (held : Bytes) : List Bytes → List Text × Bytes
  | [] => ([], held)
  | chunk :: chunks =>
    let (t, held) := decodeChunk held chunk
    let (ts, held) := decodeChunks held chunks
    (t :: ts, held)

/-- What is put out for some chunks and what the held bytes stand for at the end is what all bytes
stand for. -/
theorem flatten_decodeChunks (held : Bytes) (chunks : List Bytes) :
    (decodeChunks held chunks).1.flatten ++ flush (decodeChunks held chunks).2 =
      decodeLossy (held ++ chunks.flatten) := by
  induction chunks generalizing held with
  | nil => simp [decodeChunks, flush]
  | cons chunk chunks ih =>
    have rest := ih (decodeChunk held chunk).2
    calc (decodeChunks held (chunk :: chunks)).1.flatten ++
      flush (decodeChunks held (chunk :: chunks)).2
        = (decodeChunk held chunk).1 ++
          ((decodeChunks (decodeChunk held chunk).2 chunks).1.flatten ++
            flush (decodeChunks (decodeChunk held chunk).2 chunks).2) := by
          simp [decodeChunks]
      _ = (decodeChunk held chunk).1 ++
            decodeLossy ((decodeChunk held chunk).2 ++ chunks.flatten) := by rw [rest]
      _ = decodeLossy (held ++ (chunk :: chunks).flatten) := by
          rw [List.flatten_cons, ← List.append_assoc, decodeLossy_append (held ++ chunk)]
          rfl

/-- However bytes are cut into chunks, the texts of the chunks and what is flushed behind them are
the text of the bytes as a whole. Between two chunks three bytes at most are held back, which start
a character and do not finish it. And the rounds in which a chunk is decoded end: there are not more
of them than bytes, but for one. -/
theorem decodeChunks_lossy :
    (∀ chunks : List Bytes, (decodeChunks [] chunks).1.flatten ++ flush (decodeChunks [] chunks).2 =
      decodeLossy chunks.flatten) ∧
    (∀ held chunk : Bytes, (decodeChunk held chunk).2.length ≤ 3 ∧
      StartsChar (decodeChunk held chunk).2) ∧
    ∀ held chunk : Bytes, rounds ((held ++ chunk).length + 1) [] (held ++ chunk) =
      some (decodeChunk held chunk) := by
  refine ⟨fun chunks => ?_, fun held chunk => ?_, fun held chunk => ?_⟩
  · exact flatten_decodeChunks [] chunks
  · have starts := startsChar_decodeAvailable (held ++ chunk)
    exact ⟨starts.length_le, starts⟩
  · exact rounds_eq [] (Nat.lt_succ_self _)

end Marginalia.Utf8
