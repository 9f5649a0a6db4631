import Marginalia.Proofs.Source.Marks

/-!
# What a token does to the scanner

Whichever rule of the scanner takes a token of code, it does one of a few things, and the mark of
the token tells of those that open or close something (`Effect`). The rules are looked through once,
for `Fed`; what is said of the scanner elsewhere is said for these effects.
-/

namespace Marginalia.Source

namespace Scanner

variable {s s' : Scanner} {t : Token}

/-! ## What closers come to -/

/-- A bracket that is open in the innermost body is on the stack of brackets. -/
theorem inBracket_cases (s : Scanner) :
    (∃ b line rest, s.inBracket = true ∧ s.brackets = (b, line) :: rest) ∨ s.inBracket = false := by
  cases hin : s.inBracket with
  | false => exact .inr rfl
  | true =>
    have deep : s.top.bracketBase < s.brackets.length := of_decide_eq_true hin
    cases hb : s.brackets with
    | nil =>
      rw [hb] at deep
      cases deep
    | cons b rest => exact .inl ⟨b.1, b.2, rest, rfl, rfl⟩

/-- Where no bracket has been opened in the innermost frame, none is open in it. -/
theorem inBracket_eq_false (h : ∀ b line rest, s.inBracket = true →
    s.brackets = (b, line) :: rest → False) : s.inBracket = false := by
  obtain ⟨b, line, rest, inside, brackets⟩ | outside := inBracket_cases s
  · exact (h b line rest inside brackets).elim
  · exact outside

/-- An `end` that is taken leaves a body in which no bracket is open. -/
theorem closeFrame_eq_ok (h : s.closeFrame t = .ok s') :
    s.inBracket = false ∧ s.top.kind ≠ .program ∧ s' = s.endStatement.dropFrame.touch t := by
  unfold closeFrame at h
  split at h
  · cases h
  · next outside =>
    split at h
    · cases h
    · next program =>
      cases h
      exact ⟨inBracket_eq_false outside, fun hk => program (beq_iff_eq.2 hk), rfl⟩

/-- A clause ends the statement and starts a header. -/
theorem clause_eq_ok {header : Header} (h : s.clause t header = .ok s') :
    s' = s.endStatement.setHeader header := by
  unfold clause at h
  split at h
  · cases h
  · cases h
    rfl

/-- A closing bracket that is taken closes the innermost one, which is of its kind. -/
theorem closeBracket_eq_ok {b : Bracket} (h : s.closeBracket b t = .ok s') :
    ∃ line rest, s.inBracket = true ∧ s.brackets = (b, line) :: rest ∧
      s' = s.dropBracket.touch t := by
  unfold closeBracket at h
  split at h
  · next c line rest inside first =>
    split at h
    · next same =>
      cases h
      rw [beq_iff_eq] at same
      subst same
      exact ⟨line, rest, inside, first, rfl⟩
    · cases h
  · split at h
    · cases h
    · cases h

/-- A closing brace that is taken leaves the body of its brace, or closes a bracket. -/
theorem closeBrace_eq_ok (h : s.closeBrace t = .ok s') :
    s.top.kind = .braceBlock ∧ s.atFrameLevel = true ∧
        s' = s.endStatement.dropFrame.dropBracket.touch t ∨ s.closeBracket .brace t = .ok s' := by
  unfold closeBrace at h
  split at h
  · next closing =>
    cases h
    rw [Bool.and_eq_true, beq_iff_eq] at closing
    exact .inl ⟨closing.1, closing.2, rfl⟩
  · exact .inr h

/-- Nothing is open where the program ends. -/
theorem finish_eq_ok (hs : s.finish t = .ok s') :
    s.brackets = [] ∧ s.below = [] ∧ s' = s.endHeaderOrStatement := by
  unfold Scanner.finish at hs
  split at hs
  · cases hs
  · next brackets =>
    split at hs
    · cases hs
    · next around =>
      split at hs
      · cases hs
      · cases hs
        refine ⟨brackets, ?_, rfl⟩
        simpa using around

/-! ## Signs and words in certain places -/

/-- An equals sign is added to the statement. -/
theorem plain_of_assign (s : Scanner) (h : t.isPunct "=") : s.plain t = .ok (s.touch t) := by
  unfold Scanner.plain
  rw [kind_of_isPunct h]
  simp [isPunct_eq_beq h, leftBrace, rightBrace]

/-- An `=` is a plain part of a statement. -/
theorem blockStart_of_assign (s : Scanner) (h : t.isPunct "=") : s.blockStart t =
    .ok ((if s.top.header == .blockStart then s.setHeader .body else s).touch t) := by
  unfold Scanner.blockStart
  have bar : t.isPunct "|" = false := isPunct_eq_beq h "|"
  rw [bar, plain_of_assign _ h, plain_of_assign _ h]
  simp only [Bool.false_eq_true, if_false]
  split
  · rfl
  · rfl

/-- Where no header is open, a token is taken as part of a statement. -/
theorem code_of_body (header : s.top.header = .body) (t : Token) : s.code t = s.plain t := by
  unfold Scanner.code Scanner.blockStart
  rw [header]
  rfl

/-- A token of code is kept as the last one. -/
theorem feed_of_code (coded : isCode t.kind) : s.feed t = (s.code t).map fun r =>
    { r with last := some ⟨t, t.keyword?.any Keyword.isModifier && !s.atExpressionStart⟩ } := by
  unfold Scanner.feed
  cases kind : t.kind with
  | comment | newline | semicolon | eof =>
    rw [kind] at coded
    cases coded
  | _ => rfl

/-! ## Tokens of code -/

/-- What a token of code with some mark does to a scanner. -/
inductive Effect (t : Token) : Option Mark → Scanner → Scanner → Prop where
  /-- The token is passed over. -/
  | pass (s : Scanner) : Effect t none s s
  | touch (s : Scanner) : Effect t none s (s.touch t)
  | setHeader (s : Scanner) {h : Header} (free : h.isFree = true)
      (left : h = .body ∨ s.top.header ≠ .body) : Effect t none s (s.setHeader h)
  | readName (s : Scanner) (header : s.top.header = .methodName) :
      Effect t none s (s.setHeader .afterName)
  | clause (s : Scanner) {h : Header} (free : h.isFree = true) :
      Effect t none s (s.endStatement.setHeader h)
  | openFrame (s : Scanner) {kind : BlockKind} {h : Header} (full : s.top.header.isBare = false)
      (word : kind ≠ .program ∧ kind ≠ .braceBlock)
      (fits : h.isFree = true ∨ kind = .methodDef ∧ h = .methodName) :
      Effect t (some (.opens (.block kind))) s (s.openFrame kind t h)
  | openBrace (s : Scanner) (full : s.top.header.isBare = false) :
      Effect t (some (.opens (.bracket .brace))) s (s.openBrace t)
  | openBracket (s : Scanner) (b : Bracket) (full : s.top.header.isBare = false) :
      Effect t (some (.opens (.bracket b))) s ((s.touch t).openBracket b t)
  /-- The parenthesis of the parameters is no part of a statement. -/
  | openParams (s : Scanner) (header : s.top.header = .afterName) :
      Effect t (some (.opens (.bracket .paren))) s
        ((s.openBracket .paren t).setHeader (.params (s.brackets.length + 1)))
  | closeFrame (s : Scanner) (word : t.kind = .keyword .endWord) (level : s.inBracket = false)
      (inner : s.top.kind ≠ .program) :
      Effect t (some (.closes .endWord)) s (s.endStatement.dropFrame.touch t)
  | closeBraceBlock (s : Scanner) (brace : s.top.kind = .braceBlock)
    (level : s.atFrameLevel = true) :
      Effect t (some (.closes (.bracket .brace))) s (s.endStatement.dropFrame.dropBracket.touch t)
  | closeBracket (s : Scanner) {b : Bracket} {line : Nat} {rest : List (Bracket × Nat)}
      (inside : s.inBracket = true) (first : s.brackets = (b, line) :: rest)
      (params : b = .paren → ∀ depth, s.top.header = .params depth → s.brackets.length ≠ depth) :
      Effect t (some (.closes (.bracket b))) s (s.dropBracket.touch t)
  | closeParams (s : Scanner) {depth : Nat} (header : s.top.header = .params depth)
      (closing : s.brackets.length = depth) :
      Effect t (some (.closes (.bracket .paren))) s (s.dropBracket.setHeader .afterParams)
  /-- What follows a definition without an end belongs to the statement around it, where the header
  may be over by that. -/
  | assign (s : Scanner) {h : Header}
    (named : s.top.header = .afterName ∨ s.top.header = .afterParams)
      (ended : h = .body ∨ h = s.dropFrame.top.header) :
      Effect t (some (.closes .assignment)) s ((s.dropFrame.setHeader h).touch t)
  /-- A header is read on before the token is taken. -/
  | readOn {m : Option Mark} {s s' : Scanner} {h : Header} (free : h.isFree = true)
      (left : s.top.header ≠ .body) (taken : Effect t m (s.setHeader h) s') : Effect t m s s'

/-- A clause has no mark. -/
theorem effect_clause {h : Header} (free : h.isFree = true) (hs : s.clause t h = .ok s') :
    Effect t none s s' := by
  rw [clause_eq_ok hs]
  exact .clause s free

/-- A closing bracket has the mark of one. -/
theorem effect_closeBracket {b : Bracket}
    (params : b = .paren → ∀ depth, s.top.header = .params depth → s.brackets.length ≠ depth)
    (hs : s.closeBracket b t = .ok s') : Effect t (some (.closes (.bracket b))) s s' := by
  obtain ⟨line, rest, inside, first, rfl⟩ := closeBracket_eq_ok hs
  exact .closeBracket s inside first params

/-- A closing brace has the mark of one. -/
theorem effect_closeBrace (hs : s.closeBrace t = .ok s') :
    Effect t (some (.closes (.bracket .brace))) s s' := by
  obtain ⟨brace, level, rfl⟩ | hs := closeBrace_eq_ok hs
  · exact .closeBraceBlock s brace level
  · exact effect_closeBracket nofun hs

/-- A keyword has the effect that its mark says. -/
theorem effect_word {k : Keyword} (hk : t.kind = .keyword k) (full : s.top.header.isBare = false)
    (hs : s.word k t = .ok s') : Effect t (s.wordMark? k) s s' := by
  have opened {kind : BlockKind} {h : Header} (word : kind ≠ .program ∧ kind ≠ .braceBlock)
      (free : h.isFree = true) : Effect t (some (.opens (.block kind))) s (s.openFrame kind t h) :=
    .openFrame s full word (.inl free)
  have condition {kind : BlockKind} (word : kind ≠ .program ∧ kind ≠ .braceBlock) :
      Effect t (if s.atExpressionStart then some (.opens (.block kind)) else none) s
        (if s.atExpressionStart then s.openFrame kind t .line else s.touch t) := by
    split
    · exact opened word rfl
    · exact .touch s
  unfold Scanner.word at hs
  split at hs
  -- `end`
  case h_1 =>
    obtain ⟨level, inner, rfl⟩ := closeFrame_eq_ok hs
    exact .closeFrame s hk level inner
  -- clauses: `else`, `ensure`, `elsif`, `when`
  case h_2 | h_3 | h_4 | h_5 => exact effect_clause rfl hs
  -- `rescue` and `in`, which may also stand in a statement
  case h_6 | h_7 =>
    split at hs
    · exact effect_clause rfl hs
    · cases hs
      exact .touch s
  -- `then` and `do`, with which a header may end
  case h_8 =>
    cases hs
    split
    · exact .setHeader s rfl (.inl rfl)
    · exact .pass s
  case h_9 =>
    cases hs
    show Effect t (if s.awaitsDo then none else _) s _
    split
    · exact .setHeader s rfl (.inl rfl)
    · exact opened (by decide) rfl
  -- conditions, which may be modifiers
  case h_10 | h_11 | h_12 | h_13 =>
    cases hs
    exact condition (by decide)
  -- `def`, and the other words that always open a body
  case h_14 =>
    cases hs
    exact .openFrame s full (by decide) (.inr ⟨rfl, rfl⟩)
  case h_15 | h_16 | h_17 | h_18 | h_19 =>
    cases hs
    exact opened (by decide) rfl
  case h_20 =>
    cases hs
    have unmarked : s.wordMark? k = none := by
      cases k
      all_goals
        first
        | rfl
        | contradiction
    rw [unmarked]
    exact .touch s

/-- Any other token has the effect that its mark says. -/
theorem effect_plain (full : s.top.header.isBare = false)
    (params : t.isPunct ")" → ∀ depth, s.top.header = .params depth → s.brackets.length ≠ depth)
    (hs : s.plain t = .ok s') : Effect t (s.plainMark? t) s s' := by
  unfold Scanner.plain at hs
  split at hs
  · next k hk =>
    unfold plainMark?
    rw [hk]
    exact effect_word hk full hs
  · next other =>
    rw [plainMark?_of_other s fun k hk => other k hk]
    -- the scanner and the mark ask for the brackets in the same order
    unfold Token.bracketMark?
    split at hs
    · next brace =>
      cases hs
      rw [if_pos brace]
      exact .openBrace s full
    · next brace =>
      rw [if_neg brace]
      split at hs
      · next closing =>
        rw [if_pos closing]
        exact effect_closeBrace hs
      · next closing =>
        rw [if_neg closing]
        split at hs
        · next paren =>
          cases hs
          rw [if_pos paren]
          exact .openBracket s .paren full
        · next paren =>
          rw [if_neg paren]
          split at hs
          · next square =>
            cases hs
            rw [if_pos square]
            exact .openBracket s .square full
          · next square =>
            rw [if_neg square]
            split at hs
            · next closing =>
              rw [if_pos closing]
              exact effect_closeBracket (fun _ => params closing) hs
            · next closing =>
              rw [if_neg closing]
              split at hs
              · next closing =>
                rw [if_pos closing]
                exact effect_closeBracket nofun hs
              · next closing =>
                cases hs
                rw [if_neg closing]
                exact .touch s

/-- A token at the start of a block has the effect that its mark says. -/
theorem effect_blockStart (full : s.top.header.isBare = false)
    (params : t.isPunct ")" → ∀ depth, s.top.header = .params depth → s.brackets.length ≠ depth)
    (hs : s.blockStart t = .ok s') : Effect t (s.plainMark? t) s s' := by
  unfold Scanner.blockStart at hs
  split at hs
  · next header =>
    rw [beq_iff_eq] at header
    have left : s.top.header ≠ .body := by rw [header]; nofun
    split at hs
    · next bar =>
      cases hs
      rw [plainMark?_of_bar s bar]
      exact .setHeader s rfl (.inr left)
    · rw [← plainMark?_of_blockStart header t]
      exact .readOn rfl left (effect_plain rfl nofun hs)
  · exact effect_plain full params hs

/-- What follows the name or the parameters of a method is its `=`, or the rest of the line. -/
theorem effect_behindName (named : s.top.header = .afterName ∨ s.top.header = .afterParams)
    (hs : (if t.isPunct "=" then s.dropFrame.blockStart t else (s.setHeader .line).blockStart t) =
      .ok s') : ∃ m, Effect t m s s' ∧ (s.top.kind = .methodDef → m = s.mark? t) := by
  split at hs
  · next assign =>
    refine ⟨_, ?_, fun _ => (mark?_of_assign named assign).symm⟩
    rw [blockStart_of_assign _ assign] at hs
    cases hs
    split
    · exact .assign s named (.inl rfl)
    · exact .assign s named (.inr rfl)
  · next other =>
    have bare := Header.isBare_of_named named
    have left := Header.ne_body_of_isMethod (Header.isMethod_of_isBare bare)
    have line : Effect t ((s.setHeader .line).plainMark? t) (s.setHeader .line) s' :=
      effect_blockStart rfl nofun hs
    refine ⟨_, .readOn rfl left line, fun kind => ?_⟩
    rw [mark?_of_other s (Bool.eq_false_iff.2 other), plainMark?_of_bare bare kind t]

/-- A token of code does what the mark says that is heeded, if only a method has a header without
brackets. -/
theorem effect_code (hs : s.code t = .ok s') :
    ∃ m, Effect t m s s' ∧
      ((s.top.header.isBare = true → s.top.kind = .methodDef) → m = s.heeded? t) := by
  unfold Scanner.code at hs
  split at hs
  · next header =>
    -- only the name of the method is looked at
    have passed : s.heeded? t = none := by
      unfold heeded?
      rw [header]
      rfl
    cases hs
    refine ⟨none, ?_, fun _ => passed.symm⟩
    split
    · exact .readName s header
    · exact .pass s
  · next header =>
    rw [heeded?_of_header t (by rw [header]; nofun)]
    split at hs
    · next paren =>
      cases hs
      refine ⟨_, .openParams s header, fun _ => ?_⟩
      have other : t.isPunct "=" = false := isPunct_eq_beq paren "="
      rw [mark?_of_other s other, plainMark?_of_paren s paren]
    · obtain ⟨m, effect, marked⟩ := effect_behindName (.inl header) hs
      exact ⟨m, effect, fun method => marked (method (by rw [header]; rfl))⟩
  · next header =>
    rw [heeded?_of_header t (by rw [header]; nofun)]
    obtain ⟨m, effect, marked⟩ := effect_behindName (.inr header) hs
    exact ⟨m, effect, fun method => marked (method (by rw [header]; rfl))⟩
  · next depth header =>
    rw [heeded?_of_header t (by rw [header]; nofun),
      mark?_of_header t (by rw [header]; exact ⟨nofun, nofun⟩)]
    split at hs
    · next closing =>
      cases hs
      rw [Bool.and_eq_true, beq_iff_eq] at closing
      exact ⟨_, .closeParams s header closing.2, fun _ =>
        (plainMark?_of_closingParen s closing.1).symm⟩
    · next inside =>
      refine ⟨_, effect_blockStart (by rw [header]; rfl) ?_ hs, fun _ => rfl⟩
      intro paren d hd length
      rw [header] at hd
      cases hd
      exact inside (by rw [paren, Bool.true_and, beq_iff_eq]; exact length)
  · next h1 h2 h3 h4 =>
    -- no header of a method
    rw [heeded?_of_header t fun hn => h1 hn, mark?_of_header t ⟨fun hn => h2 hn, fun hn => h3 hn⟩]
    refine ⟨_, effect_blockStart ?_ (fun _ d hd => absurd hd (h4 d)) hs, fun _ => rfl⟩
    cases hh : s.top.header
    all_goals simp_all [Header.isBare]

/-! ## All tokens -/

/-- What a token with some mark does to a scanner. Only a token of code has a mark. -/
inductive Fed (t : Token) : Option Mark → Scanner → Scanner → Prop where
  | comment (s : Scanner) (kind : t.kind = .comment) :
      Fed t none s { s with comments := s.comments ++ [⟨t.line, t.start, t.stop⟩] }
  | pass (s : Scanner) (separator : isCode t.kind = false) : Fed t none s s
  | ends (s : Scanner) (separator : isCode t.kind = false) (last : Option LastCode) :
      Fed t none s { s.endHeaderOrStatement with last := last }
  | code {m : Option Mark} {s r : Scanner} (coded : isCode t.kind = true) (effect : Effect t m s r)
      (last : LastCode) : Fed t m s { r with last := some last }

/-- The rules of the scanner, looked through once. -/
theorem fed_of_feed (hs : s.feed t = .ok s') :
    ∃ m, Fed t m s s' ∧
      ((s.top.header.isBare = true → s.top.kind = .methodDef) → m = s.heeded? t) := by
  have unmarked (separator : isCode t.kind = false) (fed : Fed t none s s') :
      ∃ m, Fed t m s s' ∧
        ((s.top.header.isBare = true → s.top.kind = .methodDef) → m = s.heeded? t) :=
    ⟨none, fed, fun _ => (heeded?_of_separator s separator).symm⟩
  -- only code has a mark
  cases coded : isCode t.kind with
  | true =>
    rw [feed_of_code coded] at hs
    cases hcode : s.code t with
    | error e => rw [hcode] at hs; cases hs
    | ok r =>
      rw [hcode] at hs
      cases hs
      obtain ⟨m, effect, marked⟩ := effect_code hcode
      exact ⟨m, .code coded effect _, marked⟩
  | false =>
    apply unmarked coded
    unfold Scanner.feed at hs
    split at hs
    · next kind =>
      cases hs
      exact .comment s kind
    · cases hs
      unfold Scanner.newline
      dsimp only
      split
      · exact .pass s coded
      · exact .ends s coded none
    · cases hs
      split
      · exact .ends s coded none
      · exact .pass s coded
    · obtain ⟨-, -, rfl⟩ := finish_eq_ok hs
      exact .ends s coded s.endHeaderOrStatement.last
    · cases kind : t.kind
      all_goals simp_all [isCode]

end Scanner

end Marginalia.Source
