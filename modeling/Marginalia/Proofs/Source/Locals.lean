import Mathlib.Tactic.Tauto
import Marginalia.Proofs.Source.Dots

/-!
# Local variables

Which names count as local variables. A name is bound where parameters stand, and by an assignment
that follows it directly (`Memory.mem_locals_foldl`); so of several targets of one assignment the
last is bound (`Memory.mem_locals_of_targets`). A bound name stays bound, and behind it a slash, a
percent sign and two angle brackets are operators.
-/

namespace Marginalia.Source

namespace Memory

/-! ## Names that tokens bind -/

/-- Whether names are read as parameters. -/
def takesParams (m : Memory) : Bool := m.inBlockParams || m.defParams.isSome

/-- Whether a token assigns to the name before it. -/
def assignsAt (m : Memory) (k : Token) : Bool := k.isPunctOf assignments && !m.inBlockParams

/-- The names that tokens bind where parameters stand. -/
def params (m : Memory) : List Token → List Text
  | [] => []
  | k :: ks => (if m.takesParams then (m.paramName? k).toList else []) ++ (m.note k).params ks

/-- The names directly before the assignments among some tokens. -/
def assigned (m : Memory) : List Token → List Text
  | [] => []
  | k :: ks => (if m.assignsAt k then m.bareName.toList else []) ++ (m.note k).assigned ks

/-- A name that is bound is a local variable. -/
theorem locals_bindName? (m : Memory) (name : Option Text) :
    (m.bindName? name).locals = name.toList ++ m.locals := by
  cases name <;> rfl

/-- Punctuation and the ends of lines and statements are no parameters. -/
theorem paramName?_of_isPunct (m : Memory) {k : Token} {p : String} (h : k.isPunct p) :
    m.paramName? k = none := by
  unfold paramName?
  rw [beq_iff_eq.1 (Bool.and_eq_true_iff.1 h).1]

variable (m : Memory) (k : Token)

/-- The parameters of a method are local variables. -/
theorem locals_noteDefHeader : (m.noteDefHeader k).locals =
    (if m.defParams.isSome then (m.paramName? k).toList else []) ++ m.locals := by
  unfold noteDefHeader
  split
  · next none =>
    rw [none]
    rfl
  · next depth some =>
    rw [some, Option.isSome_some, if_pos rfl]
    split
    · next opens => rw [m.paramName?_of_isPunct opens]; rfl
    · split
      · next closes => rw [m.paramName?_of_isPunct closes]; rfl
      · split
        · next ends =>
          have none : m.paramName? k = none := by
            rw [Bool.and_eq_true, Bool.or_eq_true, beq_iff_eq, beq_iff_eq] at ends
            unfold paramName?
            rcases ends.1 with kind | kind <;> rw [kind]
          rw [none]
          rfl
        · exact locals_bindName? m _

/-- The header of a method leaves the bare name. -/
theorem bareName_noteDefHeader : (m.noteDefHeader k).bareName = m.bareName := by
  unfold noteDefHeader bindName?
  split
  · rfl
  · split
    · rfl
    · split
      · rfl
      · split
        · rfl
        · split <;> rfl

/-- A token binds a parameter, or the name directly before it if it assigns. -/
theorem locals_note : (m.note k).locals = (if m.assignsAt k then m.bareName.toList else []) ++
    ((if m.takesParams then (m.paramName? k).toList else []) ++ m.locals) := by
  unfold note
  split
  · next comment =>
    have none : m.paramName? k = none ∧ m.assignsAt k = false := by
      unfold paramName? assignsAt Token.isPunctOf
      rw [beq_iff_eq.1 comment]
      exact ⟨rfl, rfl⟩
    rw [none.1, none.2, if_neg Bool.false_ne_true]
    split <;> rfl
  · show (m.noteBindings k).locals = _
    unfold noteBindings assignsAt takesParams
    -- a bar in a block's parameters, an assignment, and parameters of a method
    by_cases block : m.inBlockParams = true
    · rw [if_pos block, block, Bool.not_true, Bool.and_false, Bool.true_or,
        if_neg Bool.false_ne_true, if_pos rfl]
      split
      · next bar => rw [m.paramName?_of_isPunct bar]; rfl
      · exact locals_bindName? m _
    · rw [if_neg block, Bool.eq_false_iff.2 block, Bool.not_false, Bool.and_true, Bool.false_or]
      split
      · next bar =>
        have bar := (Bool.and_eq_true_iff.1 bar).2
        have other : k.isPunctOf assignments = false := by
          unfold Token.isPunctOf
          rw [beq_iff_eq.1 (Bool.and_eq_true_iff.1 bar).2]
          exact Bool.and_eq_false_iff.2 (.inr (by decide))
        rw [other, m.paramName?_of_isPunct bar, if_neg Bool.false_ne_true]
        split <;> rfl
      · dsimp only
        split
        · rw [locals_bindName?]
          split
          · show (m.noteDefHeader k).bareName.toList ++ (m.noteDefHeader k).locals = _
            rw [bareName_noteDefHeader, locals_noteDefHeader]
          · rw [bareName_noteDefHeader, locals_noteDefHeader]
        · split
          · exact locals_noteDefHeader m k
          · exact locals_noteDefHeader m k

/-- What some tokens bind in their turn. -/
theorem mem_locals_foldl (ks : List Token) {y : Text} : y ∈ (ks.foldl note m).locals ↔
    y ∈ m.assigned ks ∨ y ∈ m.params ks ∨ y ∈ m.locals := by
  induction ks generalizing m with
  | nil => simp [assigned, params]
  | cons k ks ih =>
    rw [List.foldl_cons, ih, locals_note, assigned, params]
    simp only [List.mem_append]
    tauto

end Memory

/-! ## Targets of an assignment -/

/-- A comma, or what may follow a comma before the next target. -/
def Token.parts (k : Token) : Bool := k.isPunct "," || k.kind == .newline || k.kind == .comment

/-- The tokens of an assignment to some names, up to its `=`: names with commas between them. Behind
a comma comments may stand and lines may end. -/
inductive Targets : List Text → List Token → Prop where
  | one {x sign : Token} (name : x.kind = .ident) (assigns : sign.isPunct "=") :
    Targets [x.text] [x, sign]
  | more {x comma : Token} {gap ts : List Token} {names : List Text} (name : x.kind = .ident)
      (parts : comma.isPunct ",") (apart : ∀ k ∈ gap, k.kind = .newline ∨ k.kind = .comment)
      (others : Targets names ts) : Targets (x.text :: names) (x :: comma :: (gap ++ ts))

theorem Targets.ne_nil {names : List Text} {ts : List Token} (h : Targets names ts) :
    names ≠ [] := by
  cases h <;> exact List.cons_ne_nil _ _

namespace Memory

variable {m : Memory} {k : Token}

/-- Only a bar opens or closes the parameters of a block. -/
theorem inBlockParams_note (other : k.isPunct "|" = false) :
    (m.note k).inBlockParams = m.inBlockParams := by
  have bind : ∀ (n : Memory) name, (n.bindName? name).inBlockParams = n.inBlockParams := by
    intro n name
    cases name <;> rfl
  -- only a bar changes this part of the memory
  have header : (m.noteDefHeader k).inBlockParams = m.inBlockParams := by
    unfold noteDefHeader
    split
    · rfl
    · split
      · rfl
      · split
        · rfl
        · split
          · rfl
          · exact bind m _
  unfold note
  split
  · rfl
  · show (m.noteBindings k).inBlockParams = _
    unfold noteBindings
    rw [other, Bool.and_false, if_neg Bool.false_ne_true, if_neg Bool.false_ne_true]
    dsimp only
    split
    · exact bind m _
    · split
      · rw [bind]
        split <;> exact header
      · split <;> exact header

/-- A name that is no method called behind a dot. -/
theorem note_of_ident (name : k.kind = .ident) (plain : m.afterDot = false) :
    m.paramName? k = some k.text ∧ m.assignsAt k = false ∧ (m.note k).afterDot = false ∧
      (m.note k).bareName = some k.text ∧ (m.note k).inBlockParams = m.inBlockParams := by
  have noPunct : ∀ p, k.isPunct p = false := fun p => by
    rw [Token.isPunct, name]
    rfl
  have noOther : ∀ ps, k.isPunctOf ps = false := fun ps => by
    rw [Token.isPunctOf, name]
    rfl
  refine ⟨?_, ?_, ?_, ?_, inBlockParams_note (noPunct "|")⟩
  · rw [paramName?, name]
    dsimp only
    rw [plain, if_neg Bool.false_ne_true]
  · rw [assignsAt, noOther, Bool.false_and]
  · rw [afterDot_note, name, if_neg (by decide), noOther]
  · unfold note
    rw [name, plain]
    rfl

/-- Between two targets nothing is bound. -/
theorem note_of_parts (parts : k.parts) (plain : m.afterDot = false) :
    m.paramName? k = none ∧ m.assignsAt k = false ∧ (m.note k).afterDot = false ∧
      (m.note k).inBlockParams = m.inBlockParams := by
  -- a comma is the punctuation it is, and the others are none
  have punct : k.isPunct "|" = false ∧ k.isPunctOf assignments = false ∧
      k.isPunctOf [".", "&.", "::"] = false ∧ m.paramName? k = none := by
    unfold Token.parts at parts
    rw [Bool.or_eq_true, Bool.or_eq_true, beq_iff_eq, beq_iff_eq] at parts
    rcases parts with (comma | kind) | kind
    · refine ⟨?_, ?_, ?_, m.paramName?_of_isPunct comma⟩
      all_goals
        obtain ⟨kind, text⟩ := Bool.and_eq_true_iff.1 comma
        first | rw [Token.isPunct, kind, beq_iff_eq.1 text] | rw [Token.isPunctOf, kind,
          beq_iff_eq.1 text]
        decide
    all_goals
      unfold Token.isPunct Token.isPunctOf paramName?
      rw [kind]
      exact ⟨rfl, rfl, rfl, rfl⟩
  refine ⟨punct.2.2.2, ?_, ?_, inBlockParams_note punct.1⟩
  · rw [assignsAt, punct.2.1, Bool.false_and]
  · rw [afterDot_note]
    split
    · exact plain
    · exact punct.2.2.1

/-- What stands between two targets leaves no trace but that the name before it is past. -/
theorem bindings_of_parts {gap : List Token} (parts : ∀ k ∈ gap, k.parts)
    (plain : m.afterDot = false) (ts : List Token) :
    ∃ m' : Memory, m.assigned (gap ++ ts) = m'.assigned ts ∧
      m.params (gap ++ ts) = m'.params ts ∧ m'.afterDot = false ∧
        m'.inBlockParams = m.inBlockParams := by
  induction gap generalizing m with
  | nil => exact ⟨m, rfl, rfl, plain, rfl⟩
  | cons k ks ih =>
    obtain ⟨here, later⟩ := List.forall_mem_cons.1 parts
    obtain ⟨noParam, noTarget, plain', block⟩ := note_of_parts here plain
    obtain ⟨m', assigned_eq, params_eq, rest⟩ := ih later plain'
    refine ⟨m', ?_, ?_, rest.1, rest.2.trans block⟩
    · rw [List.cons_append, assigned, noTarget, assigned_eq]
      rfl
    · rw [List.cons_append, params, noParam, params_eq]
      split <;> rfl

/-- Of the targets of an assignment the last one is bound, by its `=` or as a parameter. -/
theorem assigned_of_targets {names : List Text} {ts : List Token} (h : Targets names ts)
    (plain : m.afterDot = false) (y : Text) :
    (y ∈ m.assigned ts ↔ m.inBlockParams = false ∧ names.getLast? = some y) ∧
      (m.inBlockParams = true → names.getLast? = some y → y ∈ m.params ts) := by
  -- over the targets; the commas between them leave the memory but for the parameters
  induction h generalizing m with
  | @one x sign name assigns =>
    obtain ⟨param, noTarget, -, bare, block⟩ := note_of_ident name plain
    have target : (m.note x).assignsAt sign = !m.inBlockParams := by
      have assigns : sign.isPunctOf assignments = true := by
        obtain ⟨kind, text⟩ := Bool.and_eq_true_iff.1 assigns
        rw [Token.isPunctOf, kind, beq_iff_eq.1 text]
        decide
      rw [assignsAt, assigns, block, Bool.true_and]
    rw [assigned, noTarget, if_neg Bool.false_ne_true, assigned, target, bare, params, param,
      takesParams]
    cases m.inBlockParams with
    | true =>
      refine ⟨⟨fun h => absurd h List.not_mem_nil, fun h => Bool.noConfusion h.1⟩, fun _ last => ?_⟩
      have last : x.text = y := Option.some.inj last
      rw [Bool.true_or, if_pos rfl, last]
      exact List.mem_cons_self
    | false =>
      rw [Bool.not_false, if_pos rfl]
      show (y ∈ [x.text] ↔ _ ∧ some x.text = some y) ∧ _
      rw [List.mem_singleton, Option.some.injEq, eq_comm]
      exact ⟨⟨fun h => ⟨rfl, h⟩, And.right⟩, fun h => Bool.noConfusion h⟩
  | @more x comma gap ts names name parts apart others ih =>
    obtain ⟨param, noTarget, plain', -, block⟩ := note_of_ident name plain
    have between : ∀ k ∈ comma :: gap, k.parts := by
      refine List.forall_mem_cons.2 ⟨?_, fun k hk => ?_⟩
      · rw [Token.parts, parts]
        rfl
      · unfold Token.parts
        rcases apart k hk with kind | kind
        · rw [kind, beq_self_eq_true, Bool.or_true]
          rfl
        · rw [kind, beq_self_eq_true, Bool.or_true]
    obtain ⟨m', assigned_eq, params_eq, plain'', block'⟩ := bindings_of_parts between plain' ts
    rw [List.cons_append] at assigned_eq params_eq
    obtain ⟨targets, parameters⟩ := ih plain''
    have last : (x.text :: names).getLast? = names.getLast? := by
      obtain ⟨z, zs, rfl⟩ := List.exists_cons_of_ne_nil others.ne_nil
      exact List.getLast?_cons_cons
    rw [assigned, noTarget, if_neg Bool.false_ne_true, List.nil_append, assigned_eq, last, params,
      params_eq, targets, block', block]
    exact ⟨Iff.rfl, fun h hy =>
      List.mem_append_right _ (parameters (block'.trans (block.trans h)) hy)⟩

/-- Behind the targets of an assignment the last one counts as a local variable; the others count if
they did before, or where they are read as parameters. -/
theorem mem_locals_of_targets {names : List Text} {ts : List Token} (h : Targets names ts)
    (plain : m.afterDot = false) {y : Text} : y ∈ (ts.foldl note m).locals ↔
      names.getLast? = some y ∨ y ∈ m.params ts ∨ y ∈ m.locals := by
  obtain ⟨targets, parameters⟩ := assigned_of_targets h plain y
  rw [mem_locals_foldl, targets]
  cases block : m.inBlockParams with
  | false => exact ⟨Or.imp_left And.right, Or.imp_left fun h => ⟨rfl, h⟩⟩
  | true => exact ⟨fun h => .inr (h.resolve_left fun h => Bool.noConfusion h.1),
      fun h => .inr (h.elim (fun last => .inl (parameters block last)) id)⟩

end Memory

/-! ## Names stay bound -/

namespace Tokenizer

variable {s t u v : Tokenizer} {found : List Finding} {k : Token} {m : Memory}

/-- A local variable stays one. -/
theorem subset_locals_note (m : Memory) (k : Token) : m.locals ⊆ (m.note k).locals := by
  rw [Memory.locals_note]
  exact fun y hy => List.mem_append_right _ (List.mem_append_right _ hy)

/-- What is bound before a step is bound behind it. -/
def KeepsLocals (m : Memory) : Step → Prop
  | .next _ u => m.locals ⊆ u.memory.locals
  | .stop _ _ => True

theorem KeepsLocals.prepend {step : Step} (h : KeepsLocals m step) :
    KeepsLocals m (step.prepend found) := by
  cases step <;> exact h

theorem keepsLocals_record (bound : m.locals ⊆ s.memory.locals) (k : Token) :
    KeepsLocals m (s.record k) :=
  List.Subset.trans bound (subset_locals_note s.memory k)

theorem ReadsOn.keepsLocals {l : OpenLiteral} {step : Step} (h : s.ReadsOn l step)
    (bound : m.locals ⊆ s.memory.locals) : KeepsLocals m step := by
  cases h with
  | closed => exact keepsLocals_record (s := { s with cursor := _ }) bound _
  | interpolation => exact bound
  | unterminated | split => trivial

theorem Settles.keepsLocals {step : Step} (h : s.Settles k step)
    (bound : m.locals ⊆ s.memory.locals) :
    KeepsLocals m step := by
  cases h with
  | record => exact keepsLocals_record bound k
  | count => exact keepsLocals_record (s := { s with suspended := _ }) bound k
  | close l outer =>
    exact (readsOn { s with suspended := outer, heredocs := _, memory := s.memory.note k }
      l).keepsLocals
      (List.Subset.trans bound (subset_locals_note s.memory k))

/-- What a character starts leaves the local variables. -/
theorem Takes.keepsLocals {c : Char} {r : Text} {step : Step} (h : s.Takes c r step) :
    KeepsLocals s.memory step := by
  have bound : s.memory.locals ⊆ s.memory.locals := List.Subset.refl _
  cases h with
  | name kind more pending =>
    exact (settles { s.readied s.spaced pending with cursor := _ } _).keepsLocals bound
  | token spaced waits kind more =>
    exact (settles { s.readied spaced waits with cursor := _ } _).keepsLocals bound
  | newline spaced waits =>
    have breaks := (s.readied spaced waits).breaks
    generalize (s.readied spaced waits).takeNewline = step at breaks ⊢
    cases breaks with
    | unterminated => trivial
    | below _ _ _ behind =>
      exact (keepsLocals_record
        (s := { s.readied spaced waits with cursor := behind, heredocs := [] })
        bound _).prepend
  | literal spaced waits =>
    exact (readsOn { s.readied spaced waits with cursor := _ } _).keepsLocals bound
  | heredoc spaced waits more h =>
    exact ((settles { s.readied spaced waits with heredocs := s.heredocs ++ [h], cursor := _ }
      _).keepsLocals bound).prepend
  | refuse | split => trivial

/-- Each step leaves the local variables. -/
theorem keepsLocals_step (s : Tokenizer) : KeepsLocals s.memory s.step := by
  have acts := s.acts
  generalize s.step = step at acts ⊢
  cases acts with
  | document | blank | join => exact List.Subset.refl _
  | refuse => trivial
  | ends | mark =>
    unfold finish
    split <;> trivial
  | reads _ _ _ takes => exact takes.keepsLocals

/-- A local variable stays one. -/
theorem subset_locals_of_reaches (h : Reaches s t) : s.memory.locals ⊆ t.memory.locals := by
  induction h with
  | here => exact List.Subset.refl _
  | @step t u _ _ hstep ih =>
    have keeps := keepsLocals_step t
    rw [hstep] at keeps
    exact List.Subset.trans ih keeps

end Tokenizer

/-! ## Operators behind local variables -/

/-- Where no literal can start, a slash, a percent sign and two angle brackets are operators. -/
theorem Lexeme.read_eq_operator {m : Memory} {spaced : Bool} {c : Char} {r : Text}
    (ahead : c = '/' ∨ c = '%' ∨ c = '<' ∧ r.head? = some '<')
    (place : ∀ next, m.literalPosition spaced next = false) : read m spaced c r = operator c r := by
  rcases ahead with rfl | rfl | ⟨rfl, head⟩
  · show (if ('/' == '/' && m.literalPosition spaced r.head?) = true then _ else operator '/' r) = _
    rw [place, Bool.and_false, if_neg Bool.false_ne_true]
  · show (if ('%' == '%' && m.literalPosition spaced r.head? && percentAhead r) = true then _
      else operator '%' r) = _
    rw [place, Bool.and_false, Bool.false_and, if_neg Bool.false_ne_true]
  · obtain ⟨a, rfl⟩ := List.head?_eq_some_iff.1 head
    show (if heredocAhead m spaced a = true then _ else operator '<' ('<' :: a)) = _
    have noHeredoc : heredocAhead m spaced a = false := by
      unfold heredocAhead
      rw [place, Bool.and_false]
    rw [noHeredoc, if_neg Bool.false_ne_true]

namespace Tokenizer

variable {s t u v : Tokenizer} {k x : Token}

/-- A slash, a percent sign or two angle brackets are ahead. -/
def operatorAhead (s : Tokenizer) : Bool :=
  match s.cursor.rest with
  | [] => false
  | c :: r => c == '/' || c == '%' || c == '<' && r.head? == some '<'

/-- A step reads an operator. -/
theorem exists_operator (ahead : s.operatorAhead) (unnamed : s.memory.namesMethod = false)
    (place : ∀ spaced next, s.memory.literalPosition spaced next = false) :
    ∃ k u, s.ReadsToken k u ∧ k.kind = .punct ∧ k.text.head? = s.cursor.rest.head? := by
  unfold operatorAhead at ahead
  cases hr : s.cursor.rest with
  | nil =>
    rw [hr] at ahead
    cases ahead
  | cons c r =>
    rw [hr] at ahead
    simp only [Bool.or_eq_true, Bool.and_eq_true, beq_iff_eq, or_assoc] at ahead
    -- an operator of these is no blank, starts no document and no mark, joins no lines and closes
    -- nothing
    have plain : Text.isAsciiBlank c = false ∧ c ≠ '=' ∧ c ≠ '\\' ∧ c ≠ '_' ∧ c ≠ '}' := by
      rcases ahead with rfl | rfl | ⟨rfl, -⟩ <;> decide
    obtain ⟨visible, equal, join, other, closing⟩ := plain
    have level : s.closesInterpolation = false := by
      unfold closesInterpolation
      split
      · rfl
      · rw [hr, List.head?_cons, beq_false_of_ne (mt Option.some.inj closing), Bool.and_false]
    have hstep : (s.within 0).step = (s.within 0).take .punct
        ((Lexeme.operatorLength? operators (c :: r)).getD 1 - 1) := by
      rw [step_eq_readToken (s := s.within 0) hr (.inl visible) equal join (not_atEndMark hr other)]
      unfold readToken
      rw [if_neg (show ¬ (s.within 0).memory.namesMethod = true from Bool.eq_false_iff.1 unnamed)]
      unfold readLexeme
      rw [show Lexeme.read (s.within 0).memory (s.within 0).spaced c r = _ from
        Lexeme.read_eq_operator ahead fun next => place _ next]
      rfl
    rw [take_of_outside rfl] at hstep
    obtain ⟨u, read, -⟩ := exists_readsToken level hstep rfl
    refine ⟨_, u, read, rfl, ?_⟩
    show (s.cursor.rest.take (_ + 1)).head? = _
    rw [hr]
    rfl

/-- Behind a name before which a `def` waits, and goes on waiting, a dot follows. -/
theorem head?_of_awaitsName (h : s.ReadsToken x u) (name : x.kind = .ident)
    (awaits : s.awaitsName) :
    u.cursor.rest.head? = some '.' := by
  obtain ⟨-, -, found, w, hstep, only, cursor⟩ := h.noted
  unfold awaitsName at awaits
  obtain ⟨named, awaits⟩ := Bool.and_eq_true_iff.1 awaits
  cases hr : s.cursor.rest with
  | nil =>
    rw [hr] at awaits
    cases awaits
  | cons c r =>
    rw [hr] at awaits
    obtain ⟨⟨kind, more, pending⟩, hname, rfl⟩ := (Option.any_eq_true ..).1 awaits
    have taken : (s.within 0).step = (s.within 0).readToken c r → x.kind = kind ∧
        u.cursor.rest = r.drop more := by
      intro hread
      rw [hread] at hstep
      unfold readToken at hstep
      rw [if_pos (show (s.within 0).memory.namesMethod = true from named), hname] at hstep
      dsimp only at hstep
      rw [take_of_outside (s := { s.within 0 with memory := _ }) rfl] at hstep
      cases hstep
      cases only
      refine ⟨rfl, ?_⟩
      rw [← cursor, rest_behind,
        show ({ s.within 0 with memory := _ } : Tokenizer).cursor = s.cursor from rfl, hr]
      rfl
    unfold Lexeme.methodName? at hname
    by_cases start : isNameStart c
    · rw [if_pos start] at hname
      obtain ⟨-, rest⟩ := taken (step_of_nameStart (s := s.within 0) hr start hstep)
      dsimp only at hname
      split at hname
      · next a ha =>
        cases hname
        rw [rest, ha]
        rfl
      · cases hname
    · rw [if_neg start] at hname
      split at hname
      · next dot =>
        -- the dot itself is no name
        cases hname
        have dot : c = '.' := beq_iff_eq.1 dot
        subst dot
        obtain ⟨kind, -⟩ :=
          taken (step_eq_readToken (s := s.within 0) hr (.inl (by decide)) (by decide)
          (by decide) (not_atEndMark hr (by decide)))
        rw [kind] at name
        cases name
      · obtain ⟨n, -, heq⟩ := Option.map_eq_some_iff.1 hname
        cases heq

/-- A row without tokens ends where it begins if no separator is ahead. -/
theorem Row.eq_of_solid (h : Row s [] t) (solid : s.separator? = none) : t = s := by
  generalize hts : ([] : List Token) = ts at h
  induction h with
  | here => rfl
  | pass _ separator _ ih =>
    rw [ih hts, solid] at separator
    cases separator
  | read => exact absurd hts.symm (List.append_ne_nil_of_right_ne_nil _ (List.cons_ne_nil _ _))

/-- Behind a local variable that is no method called behind a dot, an operator is read as one. -/
theorem exists_operator_of_local (row : Row s [x] t) (name : x.kind = .ident)
    (bare : s.memory.afterDot = false) (bound : x.text ∈ s.memory.locals)
    (ahead : t.operatorAhead) :
    ∃ k u, t.ReadsToken k u ∧ k.kind = .punct ∧ k.text.head? = t.cursor.rest.head? := by
  obtain ⟨a, b, before, read, behind⟩ := row.one
  have memory : t.memory = a.readMemory.note x := behind.memory_nil.trans read.noted.1
  have noComment : ¬ (x.kind == .comment) = true := by
    rw [name]
    decide
  refine exists_operator ahead ?_ fun spaced next => ?_
  · -- a `def` that waits would be followed by a dot
    refine Bool.eq_false_iff.2 fun named => ?_
    rw [memory, Memory.namesMethod_note, name] at named
    have awaits : a.awaitsName = true := by simpa [readMemory] using named
    have dot := head?_of_awaitsName read name awaits
    obtain ⟨r, hr⟩ := List.head?_eq_some_iff.1 dot
    have solid : b.separator? = none := by
      have noDocument : wordAhead "=begin" wordEnds ('.' :: r) = false := rfl
      have noJoin : ∀ t, List.isPrefixOf ('\\' :: t) ('.' :: r) = false := fun _ => rfl
      unfold separator?
      rw [hr]
      dsimp only
      rw [noDocument, noJoin, noJoin, Bool.and_false]
      rfl
    rw [behind.eq_of_solid solid, operatorAhead, hr] at ahead
    cases ahead
  · have dot : a.memory.afterDot = false := (congrArg Memory.afterDot before.memory_nil).trans bare
    have here : x.text ∈ (a.readMemory.note x).locals := by
      refine subset_locals_note _ _ ?_
      show x.text ∈ a.memory.locals
      rw [before.memory_nil]
      exact bound
    rw [memory]
    unfold Memory.literalPosition
    have value : (a.readMemory.note x).afterValue = true := by
      rw [Memory.note, if_neg noComment]
      show Memory.endsValue x = true
      rw [Memory.endsValue, name]
    have known : (a.readMemory.note x).afterLocal = true := by
      rw [Memory.note, if_neg noComment] at here ⊢
      show (x.kind == .ident && !a.memory.afterDot &&
        (a.readMemory.noteBindings x).locals.contains x.text) = true
      rw [name, dot, List.contains_iff_mem.2 here]
      rfl
    rw [value, known]
    rfl

/-- Behind the targets of an assignment the last one counts as a local variable, and of the others
those that did before or that are read as parameters. A local variable stays one, and where it
stands without a dot before it a slash, a percent sign or two angle brackets behind it, with or
without blanks, are an operator. -/
theorem last_target_bound {names : List Text} {ts : List Token} (targets : Targets names ts)
    (plain : s.memory.afterDot = false) (row : Row s ts t) :
    (∀ y, y ∈ t.memory.locals ↔ names.getLast? = some y ∨ y ∈ s.memory.params ts ∨
      y ∈ s.memory.locals) ∧ (∀ u, Reaches t u → t.memory.locals ⊆ u.memory.locals) ∧
    ∀ u v x, Reaches t u → Row u [x] v → x.kind = .ident → u.memory.afterDot = false →
      x.text ∈ t.memory.locals → v.operatorAhead →
      ∃ k w, v.ReadsToken k w ∧ k.kind = .punct ∧ k.text.head? = v.cursor.rest.head? := by
  refine ⟨fun y => ?_, fun u => subset_locals_of_reaches, fun u v x later one name bare known => ?_⟩
  · obtain ⟨named, memory⟩ := row.memory
    rw [memory]
    exact Memory.mem_locals_of_targets targets plain
  · exact exists_operator_of_local one name bare (subset_locals_of_reaches later known)

/-- One target: the slash behind it divides. -/
theorem last_target_bound_one :
    let a : Token := ⟨.ident, ['a'], 0, 1, 1, 1, " = 4\na /2\n".toList⟩
    let sign : Token := ⟨.punct, ['='], 2, 3, 1, 1, " 4\na /2\n".toList⟩
    ∃ t u v x, Row (.ofSource "a = 4\na /2\n".toList) [a, sign] t ∧ Targets [['a']] [a, sign] ∧
      ['a'] ∈ t.memory.locals ∧ Reaches t u ∧ Row u [x] v ∧ v.cursor.rest = "/2\n".toList ∧
      ∃ k w, v.ReadsToken k w ∧ k.kind = .punct ∧ k.text.head? = some '/' := by
  intro a sign
  have walk : (rowFor 3 (.ofSource "a = 4\na /2\n".toList)).any fun first => first.1 == [a, sign] &&
      (rowFor 3 first.2).any fun second => (rowFor 2 second.2).any fun last =>
        last.1.length == 1 && last.1.all (fun x => x.kind == .ident && x.text == ['a']) &&
          !second.2.memory.afterDot && last.2.cursor.rest == "/2\n".toList := by
    decide +kernel
  obtain ⟨⟨ts, t⟩, first, walk⟩ := (Option.any_eq_true ..).1 walk
  obtain ⟨same, walk⟩ := Bool.and_eq_true_iff.1 walk
  obtain ⟨⟨between, u⟩, second, walk⟩ := (Option.any_eq_true ..).1 walk
  obtain ⟨⟨ks, v⟩, third, walk⟩ := (Option.any_eq_true ..).1 walk
  simp only [Bool.and_eq_true, beq_iff_eq, List.length_eq_one_iff, Bool.not_eq_true'] at walk
  obtain ⟨⟨⟨⟨x, rfl⟩, name⟩, bare⟩, ahead⟩ := walk
  rw [List.all_cons, List.all_nil, Bool.and_true, Bool.and_eq_true, beq_iff_eq, beq_iff_eq] at name
  obtain rfl := beq_iff_eq.1 same
  have targets : Targets [['a']] [a, sign] := @Targets.one a sign rfl rfl
  obtain ⟨bound, -, operators⟩ := last_target_bound targets rfl (row_of_rowFor first)
  have known : ['a'] ∈ t.memory.locals := (bound ['a']).2 (.inl rfl)
  have later := (row_of_rowFor second).reaches
  obtain ⟨k, w, read, kind, text⟩ :=
    operators u v x later (row_of_rowFor third) name.1 bare (name.2 ▸ known)
    (by rw [operatorAhead, ahead]; rfl)
  exact ⟨t, u, v, x, row_of_rowFor first, targets, known, later, row_of_rowFor third, ahead, k, w,
    read, kind, text.trans (ahead ▸ rfl)⟩

/-- Two targets: the first one is not bound, and the slash behind it starts a pattern that does not
end. -/
theorem first_target_not_bound :
    let a : Token := ⟨.ident, ['a'], 0, 1, 1, 1, ", b = 1, 2\na /2\n".toList⟩
    let comma : Token := ⟨.punct, [','], 1, 2, 1, 1, " b = 1, 2\na /2\n".toList⟩
    let b : Token := ⟨.ident, ['b'], 3, 4, 1, 1, " = 1, 2\na /2\n".toList⟩
    let sign : Token := ⟨.punct, ['='], 5, 6, 1, 1, " 1, 2\na /2\n".toList⟩
    let again : Token := ⟨.ident, ['a'], 12, 13, 2, 2, " /2\n".toList⟩
    ∃ t u v, Row (.ofSource "a, b = 1, 2\na /2\n".toList) [a, comma, b, sign] t ∧
      Targets [['a'], ['b']] [a, comma, b, sign] ∧ ['a'] ∉ t.memory.locals ∧ Reaches t u ∧
      Row u [again] v ∧ u.memory.afterDot = false ∧ v.cursor.rest = "/2\n".toList ∧
        v.step = refuse [] 2 .unterminatedLiteral := by
  intro a comma b sign again
  have walk : (rowFor 6 (.ofSource "a, b = 1, 2\na /2\n".toList)).any fun first =>
      first.1 == [a, comma, b, sign] && !first.2.memory.locals.contains ['a'] &&
      (rowFor 6 first.2).any fun second => (rowFor 2 second.2).any fun last =>
        last.1 == [again] && !second.2.memory.afterDot && last.2.cursor.rest == "/2\n".toList &&
          last.2.step == refuse [] 2 .unterminatedLiteral := by
    decide +kernel
  obtain ⟨⟨ts, t⟩, first, walk⟩ := (Option.any_eq_true ..).1 walk
  obtain ⟨here, walk⟩ := Bool.and_eq_true_iff.1 walk
  obtain ⟨⟨between, u⟩, second, walk⟩ := (Option.any_eq_true ..).1 walk
  obtain ⟨⟨ks, v⟩, third, walk⟩ := (Option.any_eq_true ..).1 walk
  simp only [Bool.and_eq_true, beq_iff_eq, Bool.not_eq_true'] at here walk
  obtain ⟨⟨⟨same', bare⟩, ahead⟩, refused⟩ := walk
  obtain ⟨same, unbound⟩ := here
  subst same same'
  have targets : Targets [['a'], ['b']] [a, comma, b, sign] :=
    @Targets.more a comma [] _ _ rfl rfl (fun _ h => absurd h List.not_mem_nil)
      (@Targets.one b sign rfl rfl)
  exact ⟨t, u, v, row_of_rowFor first, targets,
    fun known => absurd (List.contains_iff_mem.2 known) (Bool.eq_false_iff.1 unbound),
    (row_of_rowFor second).reaches, row_of_rowFor third, bare, ahead, refused⟩

end Tokenizer

end Marginalia.Source
