import Marginalia.Proofs.Source.Hinges
import Marginalia.Proofs.Source.Nesting
import Marginalia.Proofs.Source.Row

/-!
# Words behind a dot

Behind a dot a word is the name of a method, whatever it is. The tokenizer keeps a dot in mind over
blanks, joined lines and comments, but not over the end of a line, although the scanner takes a line
that ends with a dot as unfinished.
-/

namespace Marginalia.Source

/-- No reserved word holds a colon. -/
theorem Keyword.notMem_of_ofText? {t : Text} {k : Keyword} (h : Keyword.ofText? t = some k) :
    ':' ∉ t := by
  have plain : ∀ k ∈ Keyword.all, ':' ∉ k.spelling.toList := by decide
  have spelled := List.find?_some h
  rw [beq_iff_eq] at spelled
  rw [← spelled]
  exact plain k (Keyword.mem_all k)

/-- A word without a dot before it is a reserved word if it is spelled like one, and not a key. -/
theorem Lexeme.exists_word (m : Memory) (c : Char) (r : Text) :
    ∃ kind n, word m c r = .token kind n ∧ ∀ k, kind = .keyword k ↔
      m.afterDot = false ∧ Keyword.ofText? ((c :: r).take (n + 1)) = some k := by
  rw [word_eq]
  unfold wordBefore
  split
  · next label =>
    refine ⟨_, _, rfl, fun k => ⟨nofun, fun ⟨_, spelled⟩ => ?_⟩⟩
    -- a key ends with a colon
    rw [Bool.and_eq_true] at label
    have colon : ':' ∈ (c :: r).take (wordLength r + 1 + 1) := by
      have behind := label.2
      unfold labelColon at behind
      split at behind
      · next a ha =>
        rw [List.take_succ_cons, List.take_add, ha]
        exact List.mem_cons_of_mem c (List.mem_append_right _ List.mem_cons_self)
      · cases behind
    exact absurd colon (Keyword.notMem_of_ofText? spelled)
  · have plain : ∀ {b : Bool} {k : Keyword}, (if b then TokenKind.const else .ident) ≠
        .keyword k := by
      intro b k
      cases b <;> nofun
    cases m.afterDot with
    | true => exact ⟨_, _, rfl, fun k => ⟨fun h => absurd h plain, fun h => nomatch h.1⟩⟩
    | false =>
      rw [if_neg Bool.false_ne_true]
      cases hw : Keyword.ofText? (c :: r.take (wordLength r)) with
      | none =>
        refine ⟨_, _, rfl, fun k => ⟨fun h => absurd h plain, fun h => ?_⟩⟩
        rw [List.take_succ_cons, hw] at h
        cases h.2
      | some j =>
        refine ⟨_, _, rfl, fun k => ?_⟩
        rw [List.take_succ_cons, hw]
        exact ⟨fun h => ⟨rfl, congrArg some (TokenKind.keyword.inj h)⟩,
          fun h => congrArg TokenKind.keyword (Option.some.inj h.2)⟩

/-- The name of a method is no reserved word. -/
theorem Lexeme.kind_of_methodName?_nameStart {c : Char} (name : isNameStart c) {r : Text}
    {kind : TokenKind} {more : Nat} {pending : Bool}
    (h : methodName? c r = some (kind, more, pending)) (k : Keyword) :
    kind ≠ .keyword k := by
  unfold methodName? at h
  rw [if_pos name] at h
  dsimp only at h
  split at h
  · cases h
    nofun
  · cases h
    nofun

namespace Tokenizer

variable {s t u : Tokenizer} {found : List Finding} {k w : Token} {source : Text}

/-! ## Words -/

/-- What starts like a name is read as a token, unless the program ends there. -/
theorem step_of_nameStart {c : Char} {r : Text} (hr : s.cursor.rest = c :: r) (name : isNameStart c)
    (h : s.step = .next found u) : s.step = s.readToken c r := by
  have visible : Text.isAsciiBlank c = false :=
    Bool.eq_false_iff.2 fun blank =>
      Bool.false_ne_true ((solid_isNameStart c blank).symm.trans name)
  have other : ∀ d, isNameStart d = false → c ≠ d := by
    rintro d hd rfl
    rw [hd] at name
    cases name
  have unmarked : s.atEndMark = false := by
    refine Bool.eq_false_iff.2 fun mark => ?_
    rw [step_eq_finish_of_atEndMark mark] at h
    unfold finish at h
    split at h <;> cases h
  exact step_eq_readToken hr (.inl visible) (other _ (by decide)) (other _ (by decide)) unmarked

/-- A word is a reserved word if it is spelled like one, and neither a dot nor a `def` waits for a
name. -/
theorem keyword_iff (placed : s.Placed source) (h : s.ReadsToken w u)
    (word : w.text.head?.any isNameStart) (k : Keyword) :
    w.kind = .keyword k ↔ s.memory.afterDot = false ∧ s.memory.namesMethod = false ∧
      Keyword.ofText? w.text = some k := by
  rw [h.head?_text placed] at word
  obtain ⟨found, v, hstep, only⟩ := h.found
  cases hr : s.cursor.rest with
  | nil =>
    rw [hr] at word
    cases word
  | cons c r =>
    rw [hr] at word
    have name : isNameStart c := word
    rw [step_of_nameStart (s := s.within 0) hr name hstep] at hstep
    unfold readToken at hstep
    -- where a method is named, a word is its name
    by_cases named : s.memory.namesMethod = true
    · refine ⟨fun hk => ?_, fun h => absurd named (Bool.eq_false_iff.1 h.2.1)⟩
      rw [if_pos (show (s.within 0).memory.namesMethod = true from named)] at hstep
      split at hstep
      · next kind more pending hname =>
        have taken := tokensOf_take (s := { s.within 0 with memory := _ }) rfl hstep
        rw [only] at taken
        cases taken
        exact absurd hk (Lexeme.kind_of_methodName?_nameStart name hname k)
      · next hname =>
        unfold Lexeme.methodName? at hname
        rw [if_pos name] at hname
        dsimp only at hname
        split at hname <;> cases hname
    · rw [if_neg (show ¬ (s.within 0).memory.namesMethod = true from named)] at hstep
      obtain ⟨kind, n, hword, hkind⟩ := Lexeme.exists_word s.memory c r
      unfold readLexeme at hstep
      rw [Lexeme.read_of_nameStart name, show Lexeme.word (s.within 0).memory c r = _ from hword]
        at hstep
      have taken := tokensOf_take rfl hstep
      rw [only] at taken
      cases taken
      show kind = .keyword k ↔ _ ∧ _ ∧ Keyword.ofText? (s.cursor.rest.take (n + 1)) = some k
      rw [hkind, hr, Bool.eq_false_iff.2 named]
      exact ⟨fun h => ⟨h.1, rfl, h.2⟩, fun h => ⟨h.1, h.2.2⟩⟩

/-! ## Ends of lines and comments -/

/-- Only behind the name before a dot, or behind the dot, a `def` goes on waiting. -/
theorem awaitsName_of_gap (h : s.ReadsToken k u) (gap : k.kind = .newline ∨ k.kind = .comment) :
    s.awaitsName = false := by
  obtain ⟨found, v, hstep, only⟩ := h.found
  have mem : k ∈ tokensOf found := only ▸ List.mem_singleton_self k
  -- only a line feed or a hash can start these tokens
  have ahead : s.cursor.rest.head? = some '\n' ∨ s.cursor.rest.head? = some '#' := by
    refine Classical.byContradiction fun other => ?_
    rw [not_or] at other
    have newline := inner_newline (s := s.within 0) other.1
    have comment := inner_comment (s := s.within 0) other.2
    rw [hstep] at newline comment
    exact gap.elim (newline k mem) (comment k mem)
  have noName : ∀ c r, s.cursor.rest = c :: r → Lexeme.methodName? c r = none := by
    intro c r hr
    rw [hr, List.head?_cons] at ahead
    rcases ahead with ahead | ahead
    · rw [Option.some.inj ahead]
      exact Lexeme.methodName?_lineFeed r
    · rw [Option.some.inj ahead]
      exact methodName?_eq_none (by decide) (by decide) (by decide) r
  unfold awaitsName
  split
  · exact Bool.and_false _
  · next c r hr =>
    rw [noName c r hr]
    exact Bool.and_false _

variable {gap : List Token}

/-- Behind ends of lines and comments no `def` waits for a name, and a dot is remembered over the
comments only. -/
theorem Row.memory_gap (h : Row s gap t) (only : ∀ k ∈ gap, k.kind = .newline ∨ k.kind = .comment) :
    (t.memory.afterDot ↔ s.memory.afterDot ∧ ∀ k ∈ gap, k.kind ≠ .newline) ∧
      (gap ≠ [] → t.memory.namesMethod = false) := by
  -- over the gap; a newline forgets the dot, a comment keeps it, and both end the name of a method
  induction gap generalizing s with
  | nil =>
    rw [h.memory_nil]
    exact ⟨⟨fun dot => ⟨dot, nofun⟩, And.left⟩, fun some => absurd rfl some⟩
  | cons k ks ih =>
    obtain ⟨here, later⟩ := List.forall_mem_cons.1 only
    obtain ⟨a, first, others⟩ := (show Row s ([k] ++ ks) t from h).split
    obtain ⟨b, c, -, same, read, memory⟩ := first.memory_one
    obtain ⟨dots, names⟩ := ih others later
    have unnamed : a.memory.namesMethod = false := by
      rw [memory, Memory.namesMethod_note, readMemory, awaitsName_of_gap read here]
      rcases here with here | here <;> rw [here] <;> rfl
    have dot : a.memory.afterDot ↔ s.memory.afterDot ∧ k.kind ≠ .newline := by
      rw [memory, Memory.afterDot_note, readMemory, same]
      rcases here with here | here
      · rw [here, if_neg (by decide), Token.isPunctOf, here]
        exact ⟨fun h => absurd (Bool.and_eq_true_iff.1 h).1 (by decide), fun h => absurd rfl h.2⟩
      · rw [here, if_pos rfl]
        exact ⟨fun h => ⟨h, by decide⟩, And.left⟩
    refine ⟨?_, fun _ => ?_⟩
    · rw [dots, dot, List.forall_mem_cons, and_assoc]
    · cases ks with
      | nil => exact others.memory_nil ▸ unnamed
      | cons => exact names (List.cons_ne_nil _ _)

end Tokenizer

/-! ## Words behind a dot -/

/-- A word: a name, a reserved word, or a key. -/
def Token.isWord (t : Token) : Bool :=
  match t.kind with
  | .ident | .keyword _ | .methodName | .const | .label => t.text.head?.any isNameStart
  | _ => false

/-- A word with a dot before it, and nothing but ends of lines and comments between them. -/
structure BehindDot (d : Token) (gap : List Token) (w : Token) : Prop where
  dot : d.isPunctOf [".", "&.", "::"]
  gap : ∀ k ∈ gap, k.kind = .newline ∨ k.kind = .comment
  word : w.isWord

instance (d : Token) (gap : List Token) (w : Token) : Decidable (BehindDot d gap w) :=
  decidable_of_iff
    (d.isPunctOf [".", "&.", "::"] ∧ (∀ k ∈ gap, k.kind = .newline ∨ k.kind = .comment) ∧ w.isWord)
    ⟨fun h => ⟨h.1, h.2.1, h.2.2⟩, fun h => ⟨h.dot, h.gap, h.word⟩⟩

section BehindDot

variable {source : Text} {d w : Token} {gap : List Token}

theorem Token.isWord_cases (h : w.isWord) :
    w.text.head?.any isNameStart ∧ w.kind ≠ .literal ∧ w.kind ≠ .eof ∧ w.kind ≠ .punct := by
  unfold isWord at h
  split at h
  case h_6 => cases h
  all_goals
    next kind =>
      rw [kind]
      exact ⟨h, nofun, nofun, nofun⟩

/-- A word that is not reserved opens and closes nothing. -/
theorem Scanner.mark?_of_word (word : w.isWord) (plain : ∀ k, w.kind ≠ .keyword k) (s : Scanner) :
    s.mark? w = none := by
  have noPunct : ∀ p, w.isPunct p = false := fun p => by
    rw [Token.isPunct, beq_false_of_ne (Token.isWord_cases word).2.2.2, Bool.false_and]
  unfold mark? plainMark?
  rw [noPunct, Bool.and_false, if_neg Bool.false_ne_true]
  split
  · next k kind => exact absurd kind (plain k)
  · unfold Token.bracketMark?
    simp only [noPunct, Bool.false_eq_true, if_false]

theorem keyword_of_inRow (h : BehindDot d gap w)
    (row : Tokenizer.InRow source (d :: (gap ++ [w]))) (k : Keyword) :
    w.kind = .keyword k ↔ (∃ n ∈ gap, n.kind = .newline) ∧ Keyword.ofText? w.text = some k := by
  obtain ⟨s, t, reach, row⟩ := row
  obtain ⟨a, first, others⟩ := (show Tokenizer.Row s ([d] ++ (gap ++ [w])) t from row).split
  obtain ⟨b, between, last⟩ := others.split
  obtain ⟨e, f, ahead, same, read, -⟩ := last.memory_one
  have placed : e.Placed source := Tokenizer.placed_of_reaches (Tokenizer.placed_ofSource source)
    (Tokenizer.Reaches.trans reach
      (Tokenizer.Reaches.trans first.reaches (Tokenizer.Reaches.trans between.reaches ahead)))
  have dot : a.memory.afterDot = true := by
    obtain ⟨_, _, -, -, -, memory⟩ := first.memory_one
    have punct : d.kind ≠ .comment := by
      rw [beq_iff_eq.1 (Bool.and_eq_true_iff.1 h.dot).1]
      nofun
    rw [memory, Memory.afterDot_note, if_neg punct]
    exact h.dot
  obtain ⟨dots, names⟩ := between.memory_gap h.gap
  -- whether the dot is still known behind the gap decides
  rw [Tokenizer.keyword_iff placed read (Token.isWord_cases h.word).1, same]
  by_cases ended : ∃ n ∈ gap, n.kind = .newline
  · obtain ⟨n, hn, newline⟩ := ended
    have noDot : b.memory.afterDot = false := Bool.eq_false_iff.2 fun h => (dots.1 h).2 n hn newline
    rw [noDot, names (List.ne_nil_of_mem hn)]
    exact ⟨fun h => ⟨⟨n, hn, newline⟩, h.2.2⟩, fun h => ⟨rfl, rfl, h.2⟩⟩
  · have still : b.memory.afterDot = true :=
      dots.2 ⟨dot, fun n hn newline => ended ⟨n, hn, newline⟩⟩
    rw [still]
    exact ⟨fun h => (nomatch h.1), fun h => absurd h.1 ended⟩

/-- A word behind a dot is the name of a method, unless a line ends between them; then it is a
reserved word if it is spelled like one. So with the dot on its line, or on one that is joined to
it, it opens and closes nothing. -/
theorem keyword_behindDot_iff (h : BehindDot d gap w)
    (read : d :: (gap ++ [w]) <:+: (tokenize source).tokens ∨
      Tokenizer.InRow source (d :: (gap ++ [w]))) :
    (∀ k, w.kind = .keyword k ↔
      (∃ n ∈ gap, n.kind = .newline) ∧ Keyword.ofText? w.text = some k) ∧
    ((∀ n ∈ gap, n.kind ≠ .newline) → ∀ s : Scanner, s.mark? w = none) := by
  have row : Tokenizer.InRow source (d :: (gap ++ [w])) := by
    refine read.elim (fun tokens => Tokenizer.inRow_of_infix tokens (List.cons_ne_nil _ _) ?_) id
    have last := Token.isWord_cases h.word
    refine List.forall_mem_cons.2 ⟨?_, List.forall_mem_append.2 ⟨fun k hk => ?_,
      List.forall_mem_singleton.2 ⟨last.2.1, last.2.2.1⟩⟩⟩
    · rw [beq_iff_eq.1 (Bool.and_eq_true_iff.1 h.dot).1]
      exact ⟨nofun, nofun⟩
    · rcases h.gap k hk with kind | kind <;> rw [kind] <;> exact ⟨nofun, nofun⟩
  have keyword := keyword_of_inRow h row
  refine ⟨keyword, fun joined s => Scanner.mark?_of_word h.word (fun k kind => ?_) s⟩
  obtain ⟨⟨n, hn, newline⟩, -⟩ := (keyword k).1 kind
  exact joined n hn newline

end BehindDot

/-- A line that is joined to the next one. -/
theorem keyword_behindDot_joined :
    let source := "a.\\\nif\n".toList
    let d : Token := ⟨.punct, ['.'], 1, 2, 1, 1, "\\\nif\n".toList⟩
    let w : Token := ⟨.ident, "if".toList, 4, 6, 2, 2, ['\n']⟩
    BehindDot d [] w ∧ [d, w] <:+: (tokenize source).tokens ∧ (∀ k, w.kind ≠ .keyword k) ∧
      ∀ s : Scanner, s.mark? w = none := by
  intro source d w
  have behind : BehindDot d [] w := by decide
  have found : (Tokenizer.runFor 20 (.ofSource source)).any fun t =>
      decide ([d, w] <:+: t.tokens) := by
    decide +kernel
  obtain ⟨t, ht, tokens⟩ := (Option.any_eq_true ..).1 found
  rw [decide_eq_true_iff] at tokens
  have read : [d, w] <:+: (tokenize source).tokens := by
    rw [tokenize, Tokenizer.run_eq_of_runFor ht]
    exact tokens
  obtain ⟨keyword, marks⟩ := keyword_behindDot_iff behind (.inl read)
  exact ⟨behind, read, fun k kind => ((keyword k).1 kind).1.elim fun _ h =>
    absurd h.1 List.not_mem_nil, marks fun _ h => absurd h List.not_mem_nil⟩

/-- A line that ends with a dot: `class` on the next one opens the body of a class. -/
theorem keyword_behindDot_lineEnd :
    let source := "foo.\nclass\n".toList
    let d : Token := ⟨.punct, ['.'], 3, 4, 1, 1, "\nclass\n".toList⟩
    let n : Token := ⟨.newline, ['\n'], 4, 5, 1, 2, "class\n".toList⟩
    let w : Token := ⟨.keyword .classWord, "class".toList, 5, 10, 2, 2, ['\n']⟩
    BehindDot d [n] w ∧ [d, n, w] <:+: (tokenize source).tokens ∧
      ({} : Scanner).mark? w = some (.opens (.block .classBody)) := by
  intro source d n w
  have found : (Tokenizer.runFor 20 (.ofSource source)).any fun t =>
      decide ([d, n, w] <:+: t.tokens) := by
    decide +kernel
  obtain ⟨t, ht, tokens⟩ := (Option.any_eq_true ..).1 found
  rw [decide_eq_true_iff] at tokens
  refine ⟨by decide, ?_, rfl⟩
  rw [tokenize, Tokenizer.run_eq_of_runFor ht]
  exact tokens

end Marginalia.Source
