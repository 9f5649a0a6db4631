import Mathlib.Tactic.SplitIfs
import Marginalia.Proofs.Source.LineTail
import Marginalia.Proofs.Source.Numbers
import Marginalia.Proofs.Source.Separators
import Marginalia.Proofs.Source.Waiting

/-!
# Tokens in a row

Which tokens the tokenizer reads one behind the other, with nothing but separators between them, in
the program itself or in the code of one interpolation (`Tokenizer.Row`), and what it remembers
behind them: each token is noted in its turn (`Row.memory`). A token that is read in one step, and
is no literal, is read the same way in an interpolation as it would be outside of all literals
(`notes_step`). Tokens of a program that follow each other stand in a row if none of them is a
literal (`exists_row`).
-/

namespace Marginalia.Source

/-! ## Taking note of tokens -/

namespace Memory

/-- Whether a `def` waits for a name plays no role for what is bound. -/
theorem noteBindings_withName (m : Memory) (b : Bool) (k : Token) :
    ({ m with namesMethod := b }).noteBindings k = { m.noteBindings k with namesMethod := b } := by
  have bind : ∀ (n : Memory) name,
      ({ n with namesMethod := b }).bindName? name =
        { n.bindName? name with namesMethod := b } := by
    intro n name
    cases name <;> rfl
  -- no binding depends on the flag
  have header : ({ m with namesMethod := b }).noteDefHeader k =
      { m.noteDefHeader k with namesMethod := b } := by
    obtain ⟨av, an, ad, nm, lo, bn, al, lk, ob, ib, params⟩ := m
    unfold noteDefHeader
    cases params with
    | none => rfl
    | some depth =>
      dsimp only
      split_ifs
      · rfl
      · rfl
      · rfl
      · rfl
      · exact bind ⟨av, an, ad, nm, lo, bn, al, lk, ob, ib, some depth⟩ _
  unfold noteBindings
  rw [header]
  dsimp only
  split_ifs
  · rfl
  · exact bind m _
  · rfl
  · exact bind { m.noteDefHeader k with defParams := some 0 } _
  · exact bind (m.noteDefHeader k) _
  · rfl
  · rfl

variable (m : Memory) (k : Token)

/-- A `def` makes its name waited for, and no other token does. -/
theorem note_withName (b : Bool) : ({ m with namesMethod := b }).note k =
    { m.note k with namesMethod := b || k.kind == .keyword .defWord } := by
  unfold note
  split
  · next comment =>
    rw [beq_iff_eq.1 comment]
    show _ = { m with namesMethod := b || false }
    rw [Bool.or_false]
  · rw [noteBindings_withName]

/-- A method is named behind a `def`, and until it is. -/
theorem namesMethod_note :
    (m.note k).namesMethod = (m.namesMethod || k.kind == .keyword .defWord) :=
  congrArg Memory.namesMethod (note_withName m k m.namesMethod)

/-- A comment leaves no trace, also not on a dot. -/
theorem afterDot_note : (m.note k).afterDot =
    if k.kind = .comment then m.afterDot else k.isPunctOf [".", "&.", "::"] := by
  unfold note
  split
  · next comment => rw [if_pos (beq_iff_eq.1 comment)]
  · next code => rw [if_neg (mt beq_iff_eq.2 code)]

end Memory

namespace Tokenizer

variable {s t u v : Tokenizer} {found more : List Finding} {k : Token} {ts : List Token}

/-! ## A token, and the same token inside an interpolation -/

/-- The same place in the innermost of some literals. -/
def beneath (s : Tokenizer) (outer : List OpenLiteral) : Tokenizer := { s with suspended := outer }

/-- A step that finds a token outside of all literals, and what becomes of it beneath `depth` of
them: the token is noted, and no literal is left or entered. -/
inductive Notes (m : Memory) (depth : Nat) : Step → Step → Prop where
  | token (k : Token) {u : Tokenizer} {found inner : List Finding} {outer : List OpenLiteral}
      (only : tokensOf found = [k]) (memory : u.memory = m.note k) (outside : u.suspended = [])
      (level : outer.length = depth) : Notes m depth (.next found u) (.next inner (u.beneath outer))
  | silent {u : Tokenizer} {found : List Finding} {inner : Step} (none : tokensOf found = []) :
      Notes m depth (.next found u) inner
  | stopped {found : List Finding} {ending : Ending} {inner : Step} :
      Notes m depth (.stop found ending) inner

theorem Notes.prepend {m : Memory} {depth : Nat} {step inner : Step} (none : tokensOf found = [])
    (h : Notes m depth step inner) : Notes m depth (step.prepend found) (inner.prepend found) := by
  cases h with
  | token k only memory outside level =>
    refine .token k ?_ memory outside level
    rw [tokensOf_append, none, only]
    rfl
  | silent silent =>
    refine .silent ?_
    rw [tokensOf_append, none, silent]
    rfl
  | stopped => exact .stopped

section Notes

variable {m : Memory} (memory : s.memory = m) (outside : s.suspended = [])
  (outer : List OpenLiteral)

include memory outside

theorem notes_record (k : Token) :
    Notes m outer.length (s.record k) ((s.beneath outer).record k) := by
  have found : tokensOf (if s.suspended.isEmpty then [.token k] else []) = [k] := by
    rw [outside]
    rfl
  exact .token k found (memory ▸ rfl) outside rfl

/-- A literal that is read on is noted alike outside and inside of literals. -/
theorem notes_readLiteral (l : OpenLiteral) :
    Notes m outer.length (s.readLiteral l) ((s.beneath outer).readLiteral l) := by
  unfold readLiteral
  dsimp only [beneath]
  split
  · refine notes_record (s := { s with cursor := _ }) ?_ ?_ outer _
    · exact memory
    · exact outside
  · exact .silent rfl
  · exact .stopped
  · exact .stopped

/-- A token that settles is noted alike, unless it closes an interpolation. -/
theorem notes_settle (stays : ∀ l rest, outer = l :: rest → k.isPunct rightBrace → l.braces ≠ 0) :
    Notes m outer.length (s.settle k) ((s.beneath outer).settle k) := by
  unfold settle
  dsimp only [beneath]
  rw [outside]
  dsimp only
  cases outer with
  | nil => exact notes_record memory outside [] k
  | cons l rest =>
    -- counting braces does not touch the token
    have count : ∀ n, Notes m (l :: rest).length (s.record k)
        ((s.beneath ({ l with braces := n } :: rest)).record k) := fun n =>
      show Notes m ({ l with braces := n } :: rest).length _ _ from notes_record memory outside _ k
    dsimp only
    split
    · exact count _
    · split
      · next closing =>
        split
        · next braces => exact absurd braces (stays l rest rfl closing)
        · next n _ => exact count n
      · exact notes_record memory outside _ k

/-- A token that is taken is noted alike, unless it closes an interpolation. -/
theorem notes_take (stays : (s.beneath outer).closesInterpolation = false) (kind : TokenKind)
    (more : Nat) :
    Notes m outer.length (s.take kind more) ((s.beneath outer).take kind more) := by
  refine notes_settle (s := { s with cursor := s.behind kind more }) memory outside outer
    fun l rest houter closing braces => ?_
  have text := (Bool.and_eq_true_iff.1 closing).2
  rw [beq_iff_eq] at text
  have closes : (s.beneath outer).closesInterpolation = true := by
    unfold closesInterpolation
    rw [show (s.beneath outer).suspended = l :: rest from houter]
    dsimp only
    rw [braces, show (s.beneath outer).cursor = s.cursor from rfl, head?_of_closing text]
    rfl
  rw [closes] at stays
  cases stays

/-- An end of a line is noted alike outside and inside of literals. -/
theorem notes_takeNewline : Notes m outer.length s.takeNewline (s.beneath outer).takeNewline := by
  unfold takeNewline
  dsimp only [beneath]
  split
  · exact .stopped
  · refine (notes_record (s := { s with cursor := _, heredocs := [] }) ?_ ?_ outer _).prepend
      (tokensOf_readBodies _ _ _)
    · exact memory
    · exact outside

/-- What a character starts is noted alike, unless it closes an interpolation. -/
theorem notes_readLexeme (stays : (s.beneath outer).closesInterpolation = false) (c : Char)
    (r : Text) :
    Notes m outer.length (s.readLexeme c r) ((s.beneath outer).readLexeme c r) := by
  unfold readLexeme
  dsimp only [beneath]
  split
  · exact notes_take memory outside outer stays _ _
  · exact notes_takeNewline memory outside outer
  · next more _ _ _ =>
    exact notes_readLiteral (s := { s with cursor := s.cursor.advance (more + 1) }) memory
      outside outer _
  · exact (notes_take (s := { s with heredocs := s.heredocs ++ [_] }) memory outside outer stays _
      _).prepend
      rfl
  · exact .stopped
  · exact .stopped

end Notes

/-- Whether a `def` waits for the name of its method behind the token ahead as well. -/
def awaitsName (s : Tokenizer) : Bool :=
  s.memory.namesMethod &&
    match s.cursor.rest with
    | [] => false
    | c :: r => (Lexeme.methodName? c r).any fun name => name.2.2

/-- What the tokenizer remembers when it takes note of the token ahead. -/
def readMemory (s : Tokenizer) : Memory := { s.memory with namesMethod := s.awaitsName }

/-- What is read is noted alike, unless it closes an interpolation. -/
theorem notes_readToken (outside : s.suspended = []) (outer : List OpenLiteral)
    (stays : (s.beneath outer).closesInterpolation = false) {c : Char} {r : Text}
    (hr : s.cursor.rest = c :: r) :
    Notes s.readMemory outer.length (s.readToken c r) ((s.beneath outer).readToken c r) := by
  unfold readToken
  by_cases named : s.memory.namesMethod = true
  · rw [if_pos named, if_pos (show (s.beneath outer).memory.namesMethod = true from named)]
    have memory : ∀ pending, (Lexeme.methodName? c r).any (fun name => name.2.2) = pending →
        { s.memory with namesMethod := pending } = s.readMemory := by
      rintro pending rfl
      rw [readMemory, awaitsName, named, hr, Bool.true_and]
    split
    · next kind more pending hname =>
      refine notes_take (s := { s with memory := { s.memory with namesMethod := pending } }) ?_
        outside outer
        stays kind more
      exact memory _ (by rw [hname]; rfl)
    · next hname =>
      refine notes_readLexeme (s := { s with spaced := false, memory := _ }) ?_ outside outer
        stays c r
      exact memory _ (by rw [hname]; rfl)
  · rw [if_neg named, if_neg (show ¬ (s.beneath outer).memory.namesMethod = true from named)]
    refine notes_readLexeme ?_ outside outer stays c r
    have unnamed := Bool.eq_false_iff.2 named
    rw [readMemory, awaitsName, unnamed, Bool.false_and, ← unnamed]

/-- A step that finds a token, taken beneath some literals as well. -/
theorem notes_step (outside : s.suspended = []) (outer : List OpenLiteral)
    (stays : (s.beneath outer).closesInterpolation = false) :
    Notes s.readMemory outer.length s.step (s.beneath outer).step := by
  -- the cases of a step in their order; only a token notes anything
  have finish : ∀ {m depth found inner}, Notes m depth (s.finish found) inner := by
    intro m depth found inner
    unfold finish
    rw [outside]
    exact .stopped
  unfold step
  dsimp only [beneath]
  cases hr : s.cursor.rest with
  | nil =>
    dsimp only
    split
    · exact .stopped
    · exact finish
  | cons c r =>
    dsimp only
    split
    · split
      · exact .silent rfl
      · exact .stopped
    · split
      · exact finish
      · split
        · exact .silent rfl
        · split
          · exact .silent rfl
          · split
            · exact .silent rfl
            · exact notes_readToken outside outer stays hr

theorem tokensOf_take (outside : s.suspended = []) {kind : TokenKind} {more : Nat}
    (h : s.take kind more = .next found u) :
    tokensOf found = [s.cut kind (s.cursor.rest.take (more + 1)) (s.behind kind more)] := by
  rw [take_of_outside outside] at h
  cases h
  rfl

/-! ## Tokens found inside of literals -/

/-- The tokens that a step finds are literals. -/
def FindsLiterals : Step → Prop
  | .next found _ => ∀ k ∈ tokensOf found, k.kind = .literal
  | .stop _ _ => True

theorem FindsLiterals.prepend {step : Step} (none : tokensOf found = []) (h : FindsLiterals step) :
    FindsLiterals (step.prepend found) := by
  cases step with
  | stop => trivial
  | next more u =>
    intro k hk
    rw [tokensOf_append, none] at hk
    exact h k hk

theorem findsLiterals_record (h : k.kind = .literal ∨ s.suspended ≠ []) :
    FindsLiterals (s.record k) := by
  intro j hj
  by_cases outside : s.suspended.isEmpty
  · rw [if_pos outside] at hj
    rw [List.mem_singleton.1 hj]
    exact h.resolve_right fun inside => inside (List.isEmpty_iff.1 outside)
  · rw [if_neg outside] at hj
    cases hj

theorem ReadsOn.findsLiterals {l : OpenLiteral} {step : Step} (h : s.ReadsOn l step) :
    FindsLiterals step := by
  cases h with
  | closed => exact findsLiterals_record (.inl rfl)
  | interpolation => nofun
  | unterminated | split => trivial

/-- Only the literal around an interpolation is a token of the program. -/
theorem Settles.findsLiterals {step : Step} (h : s.Settles k step) (inside : s.suspended ≠ []) :
    FindsLiterals step := by
  cases h with
  | record => exact findsLiterals_record (.inr inside)
  | count l outer =>
    exact findsLiterals_record (s := { s with suspended := _ :: outer })
      (.inr (List.cons_ne_nil _ _))
  | close l outer =>
    exact (readsOn { s with suspended := outer, heredocs := _, memory := _ } l).findsLiterals

/-- Inside of literals only literals are found. -/
theorem Takes.findsLiterals {c : Char} {r : Text} {step : Step} (h : s.Takes c r step)
    (inside : s.suspended ≠ []) : FindsLiterals step := by
  cases h with
  | name kind more pending =>
    exact (settles { s.readied s.spaced pending with cursor := _ } _).findsLiterals inside
  | token spaced waits kind more =>
    exact (settles { s.readied spaced waits with cursor := _ } _).findsLiterals inside
  | newline spaced waits =>
    have breaks := (s.readied spaced waits).breaks
    generalize (s.readied spaced waits).takeNewline = step at breaks ⊢
    cases breaks with
    | unterminated => trivial
    | below _ _ _ _ read =>
      exact (findsLiterals_record (.inr inside)).prepend (tokensOf_bodies read)
  | literal spaced waits =>
    exact (readsOn { s.readied spaced waits with cursor := _ } _).findsLiterals
  | heredoc spaced waits more h =>
    exact ((settles { s.readied spaced waits with heredocs := s.heredocs ++ [h], cursor := _ }
      _).findsLiterals inside).prepend rfl
  | refuse | split => trivial

/-- Inside of a literal a step finds nothing but literals. -/
theorem findsLiterals_step (inside : s.suspended ≠ []) : FindsLiterals s.step := by
  have acts := s.acts
  generalize s.step = step at acts ⊢
  cases acts with
  | document | blank | join => nofun
  | refuse => trivial
  | ends | mark =>
    unfold finish
    split <;> trivial
  | reads _ _ _ takes => exact takes.findsLiterals inside

/-- The next token of the program that is found inside of a literal is a literal. -/
theorem literal_of_inside (inside : s.suspended ≠ []) {rest : List Token}
    (h : s.run.tokens = k :: rest) :
    k.kind = .literal := by
  -- along the walk, which stays inside until it finds a token
  induction s using walk_induction with
  | stop s found ending hstep =>
    rw [tokens_run_of_stop hstep] at h
    obtain ⟨none, -⟩ | ⟨_, -, -, -, -, outside⟩ := found_of_stop hstep
    · rw [none] at h
      cases h
    · exact absurd outside inside
  | next s found u hstep ih =>
    rw [tokens_run_of_next hstep] at h
    cases hfound : tokensOf found with
    | cons j js =>
      rw [hfound] at h
      have literals := findsLiterals_step inside
      rw [hstep] at literals
      obtain ⟨rfl, -⟩ := List.cons.inj h
      exact literals j (hfound ▸ List.mem_cons_self)
    | nil =>
      rw [hfound] at h
      refine ih ?_ h
      obtain ⟨-, -, -, rfl, -⟩ | ⟨-, reads⟩ := next_of_separator? hstep
      · exact inside
      · cases reads with
        | token j only => rw [hfound] at only; cases only
        | inside _ suspended => exact suspended

/-! ## Rows -/

/-- The step from `s` to `u` reads the token `k` that would be found there outside of all literals,
and it does not close an interpolation. -/
structure ReadsToken (s : Tokenizer) (k : Token) (u : Tokenizer) : Prop where
  found : ∃ found v, (s.within 0).step = .next found v ∧ tokensOf found = [k]
  level : s.closesInterpolation = false
  step : ∃ found, s.step = .next found u

/-- From `s` to the last state some tokens are read one behind the other, each in one step, and
nothing but separators is passed between them and behind them. -/
inductive Row (s : Tokenizer) : List Token → Tokenizer → Prop where
  | here : Row s [] s
  | pass {ts : List Token} {t u : Tokenizer} {found : List Finding} (walk : Row s ts t)
      (separator : t.separator?.isSome) (h : t.step = .next found u) : Row s ts u
  | read {ts : List Token} {t u : Tokenizer} {k : Token} (walk : Row s ts t)
    (h : t.ReadsToken k u) :
      Row s (ts ++ [k]) u

/-- What is found outside of all literals is read, and noted, at any level. -/
theorem exists_readsToken (level : s.closesInterpolation = false)
    (h : (s.within 0).step = .next found v) (only : tokensOf found = [k]) :
    ∃ u, s.ReadsToken k u ∧ u.cursor = v.cursor ∧ u.memory = s.readMemory.note k ∧
      u.suspended.length = s.suspended.length := by
  have notes := notes_step (s := s.within 0) rfl s.suspended level
  rw [h] at notes
  -- beneath the literals around it, the place is the one it was
  change Notes _ _ _ s.step at notes
  generalize hstep : s.step = step at notes
  cases notes with
  | token j only' memory outside outerLevel =>
    cases List.cons.inj (only.symm.trans only') with
    | intro same =>
      subst same
      exact ⟨_, ⟨⟨_, _, h, only⟩, level, _, hstep⟩, rfl, memory, outerLevel⟩
  | silent none =>
    rw [none] at only
    cases only

/-- A token that is read is noted, inside of literals as outside. -/
theorem ReadsToken.noted (h : s.ReadsToken k u) :
    u.memory = s.readMemory.note k ∧ u.suspended.length = s.suspended.length ∧
      ∃ found v, (s.within 0).step = .next found v ∧ tokensOf found = [k] ∧
        v.cursor = u.cursor := by
  obtain ⟨found, v, hstep, only⟩ := h.found
  obtain ⟨u', h', cursor, memory, level⟩ := exists_readsToken h.level hstep only
  obtain ⟨f, hf⟩ := h.step
  obtain ⟨g, hg⟩ := h'.step
  rw [hf] at hg
  cases hg
  exact ⟨memory, level, found, v, hstep, only, cursor.symm⟩

/-- A token that is found outside of literals is read. -/
theorem readsToken_of_next (outside : s.suspended = []) (h : s.step = .next found u)
    (only : tokensOf found = [k]) : s.ReadsToken k u := by
  have same : s.within 0 = s := by
    show { s with suspended := [] } = s
    rw [← outside]
  refine ⟨⟨found, u, ?_, only⟩, ?_, found, h⟩
  · rw [same, h]
  · unfold closesInterpolation
    rw [outside]

/-- What is placed stays so inside of literals. -/
theorem Placed.within {source : Text} (h : s.Placed source) (n : Nat) :
    (s.within n).Placed source :=
  ⟨h.cursor, fun l hl => h.literals l (List.mem_of_mem_take hl)⟩

/-- A token starts with the character ahead. -/
theorem ReadsToken.head?_text {source : Text} (placed : s.Placed source) (h : s.ReadsToken k u) :
    k.text.head? = s.cursor.rest.head? := by
  obtain ⟨found, v, hstep, only⟩ := h.found
  have sound := sound_step (placed.within 0)
  rw [hstep] at sound
  have shows := shows_of_mem_tokensOf sound.2.1 k (only ▸ List.mem_singleton_self k)
  obtain ⟨lt, -, ⟨j, only', starts, stops, -⟩ | ⟨none, -⟩⟩ := next_cases hstep
  · obtain rfl : k = j := (List.cons.inj (only.symm.trans only')).1
    have start : k.start = s.cursor.position := starts
    have stop : k.start < k.stop := by
      rw [starts, stops]
      exact lt
    have head : (slice source k.start k.stop).head? = s.cursor.rest.head? := by
      rw [slice, List.head?_take, if_neg (by omega), start, placed.cursor.rest]
    rw [shows.text]
    split
    · rw [List.head?_take, if_neg Nat.one_ne_zero, head]
    · exact head
  · rw [none] at only
    cases only

/-- What separates tokens leaves no memory. -/
theorem memory_of_separator (separator : s.separator?.isSome) (h : s.step = .next found u) :
    u.memory = s.memory ∧ u.suspended = s.suspended := by
  obtain ⟨-, -, -, rfl, -⟩ | ⟨none, -⟩ := next_of_separator? h
  · exact ⟨rfl, rfl⟩
  · rw [none] at separator
    cases separator

/-- A row of tokens leads from one state to another. -/
theorem Row.reaches (h : Row s ts t) : Reaches s t := by
  induction h with
  | here => exact .here
  | pass _ _ h ih => exact .step ih h
  | read _ h ih =>
    obtain ⟨found, hstep⟩ := h.step
    exact .step ih hstep

/-- A row without tokens leaves the memory as it is. -/
theorem Row.memory_nil (h : Row s [] t) : t.memory = s.memory := by
  generalize hts : ([] : List Token) = ts at h
  induction h with
  | here => rfl
  | pass _ separator h ih => exact (memory_of_separator separator h).1.trans (ih hts)
  | read => exact absurd hts.symm (List.append_ne_nil_of_right_ne_nil _ (List.cons_ne_nil _ _))

/-- Rows are put together. -/
theorem Row.append {ks : List Token} (hst : Row s ts t) (htu : Row t ks u) :
    Row s (ts ++ ks) u := by
  induction htu with
  | here =>
    rw [List.append_nil]
    exact hst
  | pass _ separator h ih => exact .pass ih separator h
  | read _ h ih =>
    rw [← List.append_assoc]
    exact .read ih h

/-- A row of several tokens is one row behind the other. -/
theorem Row.split {ks : List Token} (h : Row s (ts ++ ks) u) : ∃ t, Row s ts t ∧ Row t ks u := by
  generalize hall : ts ++ ks = all at h
  induction h generalizing ks with
  | here =>
    obtain ⟨rfl, rfl⟩ := List.append_eq_nil_iff.1 hall
    exact ⟨s, .here, .here⟩
  | pass _ separator h ih =>
    obtain ⟨t, before, behind⟩ := ih hall
    exact ⟨t, before, .pass behind separator h⟩
  | @read as a b k walk h ih =>
    rcases List.eq_nil_or_concat ks with rfl | ⟨ks, j, rfl⟩
    · rw [List.append_nil] at hall
      subst hall
      exact ⟨b, .read walk h, .here⟩
    · rw [List.concat_eq_append, ← List.append_assoc] at hall
      obtain ⟨same, last⟩ := List.append_inj' hall rfl
      obtain ⟨t, before, behind⟩ := ih same
      rw [List.concat_eq_append, last]
      exact ⟨t, before, .read behind h⟩

/-- A row of one token: separators, the token, and separators. -/
theorem Row.one (h : Row s [k] u) : ∃ a b, Row s [] a ∧ a.ReadsToken k b ∧ Row b [] u := by
  generalize hall : [k] = all at h
  induction h with
  | here => cases hall
  | pass _ separator h ih =>
    obtain ⟨a, b, before, read, behind⟩ := ih hall
    exact ⟨a, b, before, read, .pass behind separator h⟩
  | @read as a b j walk h ih =>
    obtain ⟨same, last⟩ := List.append_inj' (show [] ++ [k] = as ++ [j] from hall) rfl
    cases last
    subst same
    exact ⟨a, b, walk, h, .here⟩

/-- What is remembered behind a row of one token. -/
theorem Row.memory_one (h : Row s [k] u) :
    ∃ a b : Tokenizer, Reaches s a ∧ a.memory = s.memory ∧ a.ReadsToken k b ∧
      u.memory = a.readMemory.note k := by
  obtain ⟨a, b, before, read, behind⟩ := h.one
  exact ⟨a, b, before.reaches, before.memory_nil, read, behind.memory_nil.trans read.noted.1⟩

/-- Each token of a row is noted in its turn. -/
theorem Row.memory (h : Row s ts t) :
    ∃ b, t.memory = { ts.foldl Memory.note s.memory with namesMethod := b } := by
  induction h with
  | here => exact ⟨s.memory.namesMethod, rfl⟩
  | pass _ separator h ih => exact (memory_of_separator separator h).1 ▸ ih
  | @read ks a c k _ h ih =>
    obtain ⟨b, hb⟩ := ih
    rw [h.noted.1, readMemory, hb, List.foldl_append, List.foldl_cons, List.foldl_nil]
    exact ⟨_, Memory.note_withName (ks.foldl Memory.note s.memory) k a.awaitsName⟩

/-- The tokens stand in a row somewhere in a program, or in one of its interpolations. -/
def InRow (source : Text) (ks : List Token) : Prop :=
  ∃ s t, Reaches (.ofSource source) s ∧ Row s ks t

/-! ## Rows of the program itself -/

/-- The step at which a token of the program is found: tokens before it are found before. -/
theorem exists_reaches_of_tokens {before rest : List Token} (h : s.run.tokens = before ++ rest)
    (some : rest ≠ []) (outside : before ≠ [] ∨ s.suspended = []) :
    ∃ t, Reaches s t ∧ t.suspended = [] ∧ t.run.tokens = rest := by
  induction s using walk_induction generalizing before with
  | stop s found ending hstep =>
    cases before with
    | nil => exact ⟨s, .here, outside.resolve_left (· rfl), h⟩
    | cons b bs =>
      rw [tokens_run_of_stop hstep] at h
      obtain ⟨none, -⟩ | ⟨t, only, -⟩ := found_of_stop hstep
      · rw [none] at h
        cases h
      · rw [only] at h
        exact absurd (List.append_eq_nil_iff.1 (List.cons.inj h).2.symm).2 some
  | next s found u hstep ih =>
    cases before with
    | nil => exact ⟨s, .here, outside.resolve_left (· rfl), h⟩
    | cons b bs =>
      rw [tokens_run_of_next hstep] at h
      have does := does_step s
      rw [hstep] at does
      -- a step finds the next of the tokens or none
      obtain ⟨t, reach, rest⟩ : ∃ t, Reaches u t ∧ t.suspended = [] ∧ t.run.tokens = rest := by
        have silent : tokensOf found = [] → ∃ t, Reaches u t ∧ t.suspended = [] ∧
            t.run.tokens = rest :=
          fun none => by
            rw [none] at h
            exact ih h (.inl (List.cons_ne_nil _ _))
        cases does with
        | skips c spaced none => exact silent none
        | reads read => cases read with
          | token k only _ _ _ outside =>
            rw [only] at h
            exact ih (List.cons.inj h).2 (.inr outside)
          | inside none => exact silent none
      exact ⟨t, Reaches.trans (.step .here hstep) reach, rest⟩

/-- The next token of the program stands behind separators, unless it is a literal. -/
theorem exists_row_one {rest : List Token} (outside : s.suspended = [])
    (h : s.run.tokens = k :: rest) (code : k.kind ≠ .literal) (inner : k.kind ≠ .eof) :
    ∃ t, Row s [k] t ∧ t.suspended = [] ∧ t.run.tokens = rest := by
  suffices ∃ a t, Row s [] a ∧ a.ReadsToken k t ∧ t.suspended = [] ∧ t.run.tokens = rest by
    obtain ⟨a, t, before, read, behind⟩ := this
    exact ⟨t, .read before read, behind⟩
  -- along the walk over separators, up to the step that reads the token
  induction s using walk_induction with
  | stop s found ending hstep =>
    rw [tokens_run_of_stop hstep] at h
    obtain ⟨none, -⟩ | ⟨t, only, eof, -⟩ := found_of_stop hstep
    · rw [none] at h
      cases h
    · rw [only] at h
      exact absurd ((List.cons.inj h).1 ▸ eof) inner
  | next s found u hstep ih =>
    rw [tokens_run_of_next hstep] at h
    obtain ⟨n, spaced, separator, hu, none⟩ | ⟨-, reads⟩ := next_of_separator? hstep
    · rw [none] at h
      obtain ⟨a, t, before, behind⟩ := ih (hu ▸ outside) h
      have pass : Row s [] u := .pass .here (by rw [separator]; rfl) hstep
      exact ⟨a, t, pass.append before, behind⟩
    · cases reads with
      | token j only _ _ _ level =>
        rw [only] at h
        obtain ⟨rfl, rest⟩ := List.cons.inj h
        exact ⟨s, u, .here, readsToken_of_next outside hstep only, level, rest⟩
      | inside none inside =>
        rw [none] at h
        exact absurd (literal_of_inside inside h) code

/-- Tokens of the program that follow each other stand in a row if none of them is a literal. -/
theorem exists_row {ks rest : List Token} (outside : s.suspended = [])
    (h : s.run.tokens = ks ++ rest) (code : ∀ k ∈ ks, k.kind ≠ .literal ∧ k.kind ≠ .eof) :
    ∃ t, Row s ks t := by
  induction ks generalizing s with
  | nil => exact ⟨s, .here⟩
  | cons k ks ih =>
    obtain ⟨here, later⟩ := List.forall_mem_cons.1 code
    obtain ⟨t, first, outside', h'⟩ := exists_row_one outside h here.1 here.2
    obtain ⟨u, others⟩ := ih outside' h' later
    exact ⟨u, first.append others⟩

/-- Takes some steps over separators and tokens of the program: the tokens, and the state behind
them. -/
def rowFor : Nat → Tokenizer → Option (List Token × Tokenizer)
  | 0, s => some ([], s)
  | n + 1, s =>
    match s.step with
    | .stop _ _ => none
    | .next found u =>
      match tokensOf found with
      | [] => if s.separator?.isSome then rowFor n u else none
      | [k] => if s.suspended.isEmpty then (rowFor n u).map fun (ks, t) => (k :: ks, t) else none
      | _ => none

/-- A row that is found within some number of steps is a row. -/
theorem row_of_rowFor {n : Nat} (h : rowFor n s = some (ts, t)) : Row s ts t := by
  induction n generalizing s ts with
  | zero =>
    cases h
    exact .here
  | succ n ih =>
    unfold rowFor at h
    split at h
    · cases h
    · next found u hstep =>
      split at h
      · split at h
        · next separator => exact (Row.pass .here separator hstep).append (ih h)
        · cases h
      · next k only =>
        split at h
        · next outside =>
          obtain ⟨⟨ks, v⟩, behind, heq⟩ := Option.map_eq_some_iff.1 h
          cases heq
          have read := readsToken_of_next (List.isEmpty_iff.1 outside) hstep only
          exact (Row.read .here read).append (ih behind)
        · cases h
      · cases h

/-- Wherever they stand in the program. -/
theorem inRow_of_infix {source : Text} {ks : List Token} (h : ks <:+: (tokenize source).tokens)
    (some : ks ≠ []) (code : ∀ k ∈ ks, k.kind ≠ .literal ∧ k.kind ≠ .eof) : InRow source ks := by
  obtain ⟨before, rest, whole⟩ := h
  rw [List.append_assoc] at whole
  obtain ⟨s, reach, outside, tokens⟩ := exists_reaches_of_tokens (s := .ofSource source) whole.symm
    (fun none => some (List.append_eq_nil_iff.1 none).1) (.inr rfl)
  obtain ⟨t, row⟩ := exists_row outside tokens code
  exact ⟨s, t, reach, row⟩

end Tokenizer

end Marginalia.Source
