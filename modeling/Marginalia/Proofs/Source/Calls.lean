import Marginalia.Proofs.Source.Separators

/-!
# Asking for tokens

The tokens of a program, asked for one after the other. However the requests are nested in literals
and their interpolations, there are no more of them than the program has bytes, and one; and what
lies between the tokens that come of them separates tokens (`calls_of_unbroken`). Behind the end of
the program every further request has the same answer.
-/

namespace Marginalia.Source

/-! ## Requests -/

/-- What comes of a request for a token: the answer, the state it leaves behind, and how many
requests were made on the way, itself and those for tokens of interpolations included. -/
structure Call where
  answer : Except Ending Token
  state : Tokenizer
  requests : Nat

namespace Tokenizer

/-- Asks for the next token of the program itself. A request passes separators on its own; any other
step that does not come to a token leads on in a literal, where the tokens of an interpolation are
asked for in their turn. -/
def nextToken (s : Tokenizer) : Call :=
  match h : s.step with
  | .stop found ending =>
    { answer := (tokensOf found).head?.elim (.error ending) .ok, state := s, requests := 1 }
  | .next found t =>
    match (tokensOf found).head? with
    | some k => { answer := .ok k, state := t, requests := 1 }
    | none =>
      have := rest_lt_of_step h
      let call := nextToken t
      { call with requests := call.requests + if s.separator?.isSome then 0 else 1 }
termination_by s.cursor.rest.length

/-- A row of requests, each made where the one before left off. -/
def calls (s : Tokenizer) : Nat → List Call
  | 0 => []
  | n + 1 => s.nextToken :: s.nextToken.state.calls n

/-- The answers to a row of requests. -/
def answers (s : Tokenizer) (n : Nat) : List (Except Ending Token) := (s.calls n).map Call.answer

/-- How many requests are made in a row of requests, nested ones included. -/
def requests (s : Tokenizer) (n : Nat) : Nat := ((s.calls n).map Call.requests).sum

variable {s t : Tokenizer} {found : List Finding}

/-- A step that stops gives its token, or tells how the walk ended. -/
theorem nextToken_of_stop {ending : Ending} (h : s.step = .stop found ending) :
    s.nextToken = ⟨(tokensOf found).head?.elim (.error ending) .ok, s, 1⟩ := by
  rw [nextToken]
  split
  · next h' =>
    rw [h] at h'
    cases h'
    rfl
  · next h' =>
    rw [h] at h'
    cases h'

/-- A step that goes on gives its token, or else the next step does. -/
theorem nextToken_of_next (h : s.step = .next found t) : s.nextToken =
    match (tokensOf found).head? with
    | some k => ⟨.ok k, t, 1⟩
    | none =>
      { t.nextToken with
        requests := t.nextToken.requests + if s.separator?.isSome then 0 else 1 } := by
  rw [nextToken]
  split
  · next h' =>
    rw [h] at h'
    cases h'
  · next h' =>
    rw [h] at h'
    cases h'
    rfl

/-- A request that stops leaves everything as it is, and so does every later one. -/
theorem answers_of_stop {ending : Ending} (h : s.step = .stop found ending) (n : Nat) :
    s.answers n = List.replicate n ((tokensOf found).head?.elim (.error ending) .ok) := by
  induction n with
  | zero => rfl
  | succ n ih =>
    unfold answers at ih ⊢
    rw [calls, nextToken_of_stop h, List.map_cons, ih]
    rfl

/-- A call that finds its token at once is the first. -/
theorem calls_of_token {k : Token} (h : s.step = .next found t) (only : tokensOf found = [k])
    (n : Nat) : s.calls (n + 1) = ⟨.ok k, t, 1⟩ :: t.calls n := by
  have call := nextToken_of_next h
  rw [only] at call
  rw [calls, call]
  rfl

/-- A token that is found at once is the first answer. -/
theorem answers_of_token {k : Token} (h : s.step = .next found t) (only : tokensOf found = [k])
    (n : Nat) : s.answers (n + 1) = .ok k :: t.answers n :=
  congrArg (List.map Call.answer) (calls_of_token h only n)

/-- For a token that is found at once one step is taken. -/
theorem requests_of_token {k : Token} (h : s.step = .next found t) (only : tokensOf found = [k])
    (n : Nat) : s.requests (n + 1) = 1 + t.requests n :=
  congrArg (fun calls => (calls.map Call.requests).sum) (calls_of_token h only n)

/-- A step without a token is part of the request that comes to the next one. -/
theorem calls_of_silent (h : s.step = .next found t) (none : tokensOf found = []) (n : Nat) :
    s.calls (n + 1) =
      { t.nextToken with
        requests := t.nextToken.requests + if s.separator?.isSome then 0 else 1 } ::
      t.nextToken.state.calls n := by
  have call := nextToken_of_next h
  rw [none] at call
  rw [calls, call]
  rfl

/-- A step without a token adds no answer. -/
theorem answers_of_silent (h : s.step = .next found t) (none : tokensOf found = []) (n : Nat) :
    s.answers n = t.answers n := by
  cases n with
  | zero => rfl
  | succ n =>
    unfold answers
    rw [calls_of_silent h none, calls]
    rfl

/-- A step without a token adds one step. -/
theorem requests_of_silent (h : s.step = .next found t) (none : tokensOf found = []) (n : Nat) :
    s.requests (n + 1) ≤ t.requests (n + 1) + 1 := by
  unfold requests
  rw [calls_of_silent h none, calls, List.map_cons, List.map_cons, List.sum_cons, List.sum_cons]
  dsimp only
  split <;> omega

end Tokenizer

/-! ## Tokens and what lies between them -/

/-- Tokens from one place to another, one behind the other, each with characters of its own and
nothing but separators before it. -/
inductive Tiled (source : Text) : Nat → List Token → Nat → Prop where
  | nil (p : Nat) : Tiled source p [] p
  | cons {p q : Nat} {t : Token} {ts : List Token} (gap : Separates source p t.start)
      (shows : t.Shows source) (nonempty : t.start < t.stop) (behind : Tiled source t.stop ts q) :
      Tiled source p (t :: ts) q

theorem Tiled.le_start {source : Text} {p q : Nat} {ts : List Token} (h : Tiled source p ts q) :
    ∀ t ∈ ts, p ≤ t.start := by
  induction h with
  | nil => exact fun _ ht => nomatch ht
  | cons gap _ nonempty _ ih =>
    refine List.forall_mem_cons.2 ⟨gap.le, fun t ht => ?_⟩
    exact Nat.le_trans (Nat.le_trans gap.le (Nat.le_of_lt nonempty)) (ih t ht)

/-- Tiles do not overlap. -/
theorem Tiled.pairwise {source : Text} {p q : Nat} {ts : List Token} (h : Tiled source p ts q) :
    ts.Pairwise fun a b => a.stop ≤ b.start := by
  induction h with
  | nil => exact .nil
  | cons _ _ _ behind ih => exact .cons behind.le_start ih

/-- The token at the end of a program. It stands behind the last character, or where a line starts
that ends the program. -/
structure Token.Ends (source : Text) (t : Token) : Prop where
  eof : t.kind = .eof
  text : t.text = []
  stop : t.stop = t.start
  ended : t.start = source.length ∨
    AtLineStart source t.start ∧ wordAhead "__END__" lineEnds (source.drop t.start)

namespace Tokenizer

variable {source : Text} {s : Tokenizer}

/-- What is open started before the cursor. -/
theorem origin_le_of_placed (placed : s.Placed source) : s.origin ≤ s.cursor.position := by
  unfold origin originOf
  split
  · next l hl => exact (placed.literals l (List.mem_of_getLast? hl)).2
  · exact Nat.le_refl _

/-- A step without a token keeps the place where the reading of the next one begins, or passes a
separator before it. -/
theorem separates_of_next {t : Tokenizer} {found : List Finding} (placed : s.Placed source)
    (h : s.step = .next found t) (none : tokensOf found = []) {p : Nat}
    (gap : Separates source p s.origin) : Separates source p t.origin := by
  obtain ⟨n, spaced, hsep, rfl, -⟩ | ⟨-, reads⟩ := next_of_separator? h
  · obtain ⟨sep, separator, ahead, rfl⟩ := exists_separator placed.cursor hsep
    cases hs : s.suspended with
    | nil =>
      have here : s.origin = s.cursor.position := by rw [origin, hs, originOf_nil]
      have there := advance_position sep.length s.cursor ahead.length_le
      rw [here] at gap
      rw [placed.cursor.rest] at ahead
      show Separates source p (s.cursor.advance sep.length).position
      rw [there]
      exact gap.more ahead separator
    | cons l outer =>
      -- inside a literal it is part of the literal
      show Separates source p (originOf (l :: outer) _)
      rw [origin, hs, originOf_cons] at gap
      rwa [originOf_cons]
  · cases reads with
    | token k only => rw [none] at only; cases only
    | inside _ _ begins => exact begins ▸ gap

/-- Where a program is complete, the token of its end stands at the cursor. -/
theorem ends_of_stop {found : List Finding} (placed : s.Placed source)
    (h : s.step = .stop found .complete) :
    ∃ eof, tokensOf found = [eof] ∧ eof.Ends source ∧ eof.start = s.cursor.position := by
  obtain ⟨only, ended⟩ := stop_cases h
  refine ⟨_, only, ⟨rfl, rfl, rfl, ?_⟩, rfl⟩
  show s.cursor.position = source.length ∨ AtLineStart source s.cursor.position ∧
    wordAhead "__END__" lineEnds (source.drop s.cursor.position)
  rw [← placed.cursor.rest]
  rcases ended with none | ⟨mark, -⟩
  · have behind := placed.cursor.rest ▸ none
    exact .inl (Nat.le_antisymm placed.cursor.inside (List.drop_eq_nil_iff.1 behind))
  · unfold atEndMark at mark
    rw [Bool.and_eq_true] at mark
    exact .inr ⟨placed.cursor.lineStart.1 mark.1, mark.2⟩

/-- What requests come to that are made behind the place `p`: tokens with separators between them,
and then the end of the program, which is the answer to all further requests, or a refusal. -/
def Answered (source : Text) (p : Nat) (s : Tokenizer) : Prop :=
  ∃ ts here, Tiled source p ts here ∧ (∀ t ∈ ts, t.kind ≠ .eof) ∧
    s.requests (ts.length + 1) ≤ s.cursor.rest.length + 1 ∧
    ((∃ eof, eof.Ends source ∧ Separates source here eof.start ∧ s.run.tokens = ts ++ [eof] ∧
        s.run.ending = .complete ∧
        ∀ n, s.answers (ts.length + n) = ts.map .ok ++ List.replicate n (.ok eof)) ∨
      ∃ e, s.run.tokens = ts ∧ s.run.ending = .refused e ∧
        s.answers (ts.length + 1) = ts.map .ok ++ [.error (.refused e)])

/-- Where a request stops, its answer is the end of the program or a refusal. -/
theorem answered_of_stop {p : Nat} {found : List Finding} {ending : Ending}
    (placed : s.Placed source) (h : s.step = .stop found ending)
    (unbroken : ∀ fault, ending ≠ .broken fault) (gap : Separates source p s.origin) :
    s.Answered source p := by
  have answers := answers_of_stop h
  have few : s.requests 1 ≤ s.cursor.rest.length + 1 := by
    show s.nextToken.requests + 0 ≤ _
    rw [nextToken_of_stop h]
    exact Nat.le_add_left _ _
  refine ⟨[], p, .nil p, fun _ ht => (nomatch ht), few, ?_⟩
  rw [tokens_run_of_stop h, run_of_stop h]
  -- a refusal answers all later calls with the error, the end of the text with the end token
  cases ending with
  | broken fault => exact absurd rfl (unbroken fault)
  | refused e =>
    have does := does_step s
    rw [h] at does
    cases does with
    | reads read => cases read with
      | stopped none =>
        rw [none] at answers ⊢
        exact .inr ⟨e, rfl, rfl, answers 1⟩
  | complete =>
    obtain ⟨eof, only, ends, starts⟩ := ends_of_stop placed h
    rw [origin, not_suspended_of_stop h, originOf_nil, ← starts] at gap
    rw [only] at answers ⊢
    refine .inl ⟨eof, ends, gap, rfl, rfl, fun n => ?_⟩
    rw [List.length_nil, Nat.zero_add]
    exact answers n

variable {t : Tokenizer} {found : List Finding}

/-- A step to a token answers one request. -/
theorem Answered.cons {p : Nat} {k : Token} (later : t.Answered source k.stop)
    (h : s.step = .next found t) (only : tokensOf found = [k]) (gap : Separates source p k.start)
    (shows : k.Shows source) (nonempty : k.start < k.stop) (ordinary : k.kind ≠ .eof) :
    s.Answered source p := by
  obtain ⟨ts, here, tiled, others, few, last⟩ := later
  have less := rest_lt_of_step h
  have count := requests_of_token h only (ts.length + 1)
  refine ⟨k :: ts, here, .cons gap shows nonempty tiled,
    List.forall_mem_cons.2 ⟨ordinary, others⟩, ?_, ?_⟩
  · rw [List.length_cons, count]
    omega
  rw [tokens_run_of_next h, run_of_next h, only, List.length_cons]
  rcases last with ⟨eof, ends, gap', tokens, complete, answers⟩ | ⟨e, tokens, refused, answers⟩
  · refine .inl ⟨eof, ends, gap', by rw [tokens]; rfl, complete, fun n => ?_⟩
    rw [Nat.add_right_comm, answers_of_token h only, answers]
    rfl
  · refine .inr ⟨e, by rw [tokens]; rfl, refused, ?_⟩
    rw [answers_of_token h only, answers]
    rfl

/-- A step without a token answers no request. -/
theorem Answered.silent {p : Nat} (later : t.Answered source p) (h : s.step = .next found t)
    (none : tokensOf found = []) : s.Answered source p := by
  obtain ⟨ts, here, tiled, ordinary, few, last⟩ := later
  have less := rest_lt_of_step h
  have count := requests_of_silent h none ts.length
  refine ⟨ts, here, tiled, ordinary, by omega, ?_⟩
  rw [tokens_run_of_next h, run_of_next h, none, List.nil_append]
  rcases last with ⟨eof, ends, gap, tokens, complete, answers⟩ | ⟨e, tokens, refused, answers⟩
  · exact .inl ⟨eof, ends, gap, tokens, complete, fun n =>
      (answers_of_silent h none _).trans (answers n)⟩
  · exact .inr ⟨e, tokens, refused, (answers_of_silent h none _).trans answers⟩

/-- Requests are answered wherever tokenizing is not broken off. -/
theorem answered_of_placed (placed : s.Placed source)
    (unbroken : ∀ fault, s.run.ending ≠ .broken fault) {p : Nat}
    (gap : Separates source p s.origin) : s.Answered source p := by
  induction s using walk_induction generalizing p with
  | stop s found ending h =>
    rw [run_of_stop h] at unbroken
    exact answered_of_stop placed h unbroken gap
  | next s found t h ih =>
    have sound := sound_step placed
    rw [h] at sound
    obtain ⟨placed', shows, kinds⟩ := sound
    rw [run_of_next h] at unbroken
    obtain ⟨lt, -, ⟨k, only, starts, stops, -, begins⟩ | ⟨none, -⟩⟩ := next_cases h
    · -- the gap behind a token starts anew
      have after : Separates source k.stop t.origin := by
        rw [begins, stops]
        exact .here _
      have mem : k ∈ tokensOf found := by rw [only]; exact List.mem_singleton_self k
      have start : k.start ≤ s.cursor.position := starts ▸ origin_le_of_placed placed
      exact (ih placed' unbroken after).cons h only (starts ▸ gap)
        (shows_of_mem_tokensOf shows k mem) (by omega) (kinds k mem)
    · exact (ih placed' unbroken (separates_of_next placed h none gap)).silent h none

end Tokenizer

/-- If tokenizing a program is not broken off, then requests for its tokens come, each with a token,
to its end or to a refusal, and they are no more than its bytes and one. The tokens stand one behind
the other with nothing but separators between them. The end of the program is the answer to every
later request. -/
theorem calls_of_unbroken {source : Text}
    (unbroken : ∀ fault, (tokenize source).ending ≠ .broken fault) :
    ∃ ts here, Tiled source 0 ts here ∧ ts.Pairwise (fun a b => a.stop ≤ b.start) ∧
      (∀ t ∈ ts, t.kind ≠ .eof) ∧
      (Tokenizer.ofSource source).requests (ts.length + 1) ≤ (Utf8.encode source).length + 1 ∧
      ((∃ eof, eof.Ends source ∧ Separates source here eof.start ∧
          (tokenize source).tokens = ts ++ [eof] ∧ (tokenize source).ending = .complete ∧
          ∀ n, (Tokenizer.ofSource source).answers (ts.length + n) =
            ts.map .ok ++ List.replicate n (.ok eof)) ∨
        ∃ e, (tokenize source).tokens = ts ∧ (tokenize source).ending = .refused e ∧
          (Tokenizer.ofSource source).answers (ts.length + 1) =
            ts.map .ok ++ [.error (.refused e)]) := by
  obtain ⟨ts, here, tiled, ordinary, few, last⟩ :=
    Tokenizer.answered_of_placed (Tokenizer.placed_ofSource source) unbroken (.here 0)
  have bytes := Utf8.length_le_encode source
  exact ⟨ts, here, tiled, tiled.pairwise, ordinary, Nat.le_trans few (Nat.succ_le_succ bytes), last⟩

/-- A program of joined lines, with an interpolation, a document and the line that ends it. -/
theorem calls_of_unbroken_document :
    let source := "a\\\n \"#{b}\"\n=begin\nc\n=end\n__END__\nd\n".toList
    (∀ fault, (tokenize source).ending ≠ .broken fault) ∧
      ∃ ts here, Tiled source 0 ts here ∧
        (Tokenizer.ofSource source).requests (ts.length + 1) ≤ (Utf8.encode source).length + 1 := by
  intro source
  have complete : (tokenize source).ending = .complete := by
    have run : (Tokenizer.runFor 20 (.ofSource source)).map Tokenization.ending =
        some .complete := by
      decide +kernel
    obtain ⟨whole, hwhole, ending⟩ := Option.map_eq_some_iff.1 run
    rw [tokenize, Tokenizer.run_eq_of_runFor hwhole, ending]
  have unbroken : ∀ fault, (tokenize source).ending ≠ .broken fault := fun fault => by
    rw [complete]
    nofun
  obtain ⟨ts, here, tiled, -, -, few, -⟩ := calls_of_unbroken unbroken
  exact ⟨unbroken, ts, here, tiled, few⟩

end Marginalia.Source
