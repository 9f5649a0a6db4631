import Marginalia.Proofs.Source.Answers
import Marginalia.Proofs.Source.EnclosedScan

/-!
# Statements in parentheses

What belongs to a program itself, and to no body in it, is in a bracket if the program stands in
parentheses: no line ends there and no semicolon lets the scanner forget the token before. So a
token that begins a statement of the program may be taken to go with the statement above: an `if`
for its modifier, a brace for that of its block (`Scanner.misreads`). If this happens to no token,
the program is accepted in parentheses as well, and the same bodies are open at all of its tokens;
where it happens first, one of the two opens a body and the other does not (`parenthesised_iff`).
-/

namespace Marginalia.Source

namespace Scanner

variable {a b a' b' : Scanner} {t k : Token}

/-! ## One token -/

/-- Whether a token begins a statement of the program itself and would go with the token before,
which the scanner has forgotten. -/
def misreads (s : Scanner) (prev : Option Token) (t : Token) : Bool :=
  s.top.kind == .program && s.last.isNone && prev.any fun l => l.bindsTo t

/-- The two scanners have come through the same tokens, of which `prev` is the last one of code. In
a body they remember the same token. In the program itself the one may have forgotten it, and the
other has not. -/
structure Alongside (prev : Option Token) (a b : Scanner) : Prop extends Enclosed [.paren] a b where
  inner : a.top.kind ≠ .program → Option.Rel
    (fun l m => l.token.Alike m.token ∧ m.isModifier = l.isModifier) a.last b.last
  outer : a.top.kind = .program → ∀ t k, t.Alike k →
    b.last.any (fun l => l.token.bindsTo k) = prev.any fun l => l.bindsTo t
  kept : a.top.kind = .program → ∀ l, a.last = some l → prev = some l.token

namespace Alongside

variable {prev : Option Token} (h : a.Alongside prev b) (hk : t.Alike k)

include h

/-- A question about the last token of code has the same answer in a body. -/
theorem any_last_eq (inner : a.top.kind ≠ .program) {p q : LastCode → Bool}
    (hp : ∀ l m, l.token.Alike m.token → m.isModifier = l.isModifier → q m = p l) :
    b.last.any q = a.last.any p := by
  have last := h.inner inner
  generalize a.last = x, b.last = y at last
  cases last with
  | some same => exact hp _ _ same.1 same.2
  | none => rfl

theorem atExpressionStart_eq (inner : a.top.kind ≠ .program) :
    b.atExpressionStart = a.atExpressionStart :=
  congrArg not (h.any_last_eq inner fun _ _ same _ => same.allows_eq.1)

include hk

/-- A token that is not misread goes with what precedes in the one program if it does in the
other. -/
theorem binds (fine : a.misreads prev t = false) :
    b.last.any (fun l => l.token.bindsTo k) = a.last.any fun l => l.token.bindsTo t := by
  by_cases program : a.top.kind = .program
  · rw [h.outer program t k hk]
    cases last : a.last with
    | some l =>
      rw [h.kept program l last]
      rfl
    | none =>
      unfold misreads at fine
      rw [program, last] at fine
      exact fine
  · exact h.any_last_eq program fun _ _ same _ => hk.bindsTo_eq same

end Alongside

namespace Alongside

variable {prev : Option Token} (h : a.Alongside prev b) (hk : t.Alike k)

include h

/-- The scanner of the program itself may end a statement and forget the token before; in
parentheses nothing happens. -/
theorem separator_of_program (program : a.top.kind = .program) :
    Alongside prev { a.endHeaderOrStatement with last := none } b := by
  have ended := h.endHeaderOrStatement_of_program program
  have kind := (kind_endHeaderOrStatement a).trans program
  exact ⟨⟨ended.top, ended.below, ended.brackets⟩, fun inner => absurd kind inner,
    fun _ => h.outer program, nofun⟩

/-- In a body both end a statement and forget the token before. -/
theorem separator_of_inner (inner : a.top.kind ≠ .program) :
    Alongside prev { a.endHeaderOrStatement with last := none }
      { b.endHeaderOrStatement with last := none } := by
  have ended := h.endHeaderOrStatement
  have kind : a.endHeaderOrStatement.top.kind ≠ .program := by
    rw [kind_endHeaderOrStatement]
    exact inner
  exact ⟨⟨ended.top, ended.below, ended.brackets⟩, fun _ => .none, fun program =>
    absurd program kind, nofun⟩

include hk

/-- An end of a line is read alongside. -/
theorem newline (newline : t.kind = .newline) : (a.newline t).Alongside prev (b.newline k) := by
  by_cases program : a.top.kind = .program
  · have stays : b.newline k = b := by
      unfold Scanner.newline
      rw [(h.inBracket_of_program (List.cons_ne_nil _ _) program).2]
      rfl
    rw [stays]
    unfold Scanner.newline
    dsimp only
    split
    · exact h
    · exact h.separator_of_program program
  · have continues (params : Bool) :
        b.last.any (fun l => l.continuesLine && !(params && l.token.isPunct "|")) =
          a.last.any fun l => l.continuesLine && !(params && l.token.isPunct "|") :=
      h.any_last_eq program fun l m same modifier => by
        unfold LastCode.continuesLine
        rw [modifier, same.allows_eq.2.2, same.isPunct_eq]
    unfold Scanner.newline
    dsimp only
    rw [h.kind_eq, h.header_beq .line nofun, h.atFrameLevel_eq program, continues,
      hk.dot newline]
    split
    · exact h
    · exact h.separator_of_inner program

omit hk in
/-- A semicolon is read alongside. -/
theorem semicolon : Alongside prev
    (if a.atFrameLevel then { a.endHeaderOrStatement with last := none } else a)
    (if b.atFrameLevel then { b.endHeaderOrStatement with last := none } else b) := by
  by_cases program : a.top.kind = .program
  · rw [(h.inBracket_of_program (List.cons_ne_nil _ _) program).2, if_neg Bool.false_ne_true]
    split
    · exact h.separator_of_program program
    · exact h
  · rw [h.atFrameLevel_eq program]
    split
    · exact h.separator_of_inner program
    · exact h

/-- Behind a token that is not misread the same token is a modifier, except for a `rescue` of the
program itself. -/
theorem isModifier_eq (fine : a.misreads prev t = false) (coded : a.code t = .ok a')
    (inner : a'.top.kind ≠ .program) :
    (k.keyword?.any Keyword.isModifier && !b.atExpressionStart) =
      (t.keyword?.any Keyword.isModifier && !a.atExpressionStart) := by
  rw [hk.keyword?_eq]
  by_cases program : a.top.kind = .program
  · cases kind : t.kind with
    | keyword w =>
      have word : t.keyword? = some w := by
        unfold Token.keyword?
        rw [kind]
      rw [word]
      by_cases condition : w.isCondition
      · rw [atExpressionStart_of_condition a kind condition,
          atExpressionStart_of_condition b (hk.kind.trans kind) condition, h.binds hk fine]
      · cases w with
        | rescueWord =>
          -- no clause starts in the program itself, and so it stays the innermost body
          rw [code_of_body (h.top.outer program).2.2, Scanner.plain, kind] at coded
          unfold Scanner.word at coded
          rw [program] at coded
          rw [← Except.ok.inj coded, kind_touch] at inner
          exact absurd program inner
        | _ => first | rfl | exact absurd rfl condition
    | _ =>
      have none : t.keyword? = none := by
        unfold Token.keyword?
        rw [kind]
      rw [none]
      rfl
  · rw [h.atExpressionStart_eq program]

/-- Both take a token that is not misread. -/
theorem feed (more : t.kind ≠ .eof) (fine : a.misreads prev t = false) (fed : a.feed t = .ok a') :
    ∃ b', b.feed k = .ok b' ∧ Alongside (if isCode t.kind then some t else prev) a' b' := by
  -- code is read as the simulation says, unless it is misread
  by_cases coded : isCode t.kind
  · rw [feed_of_code coded] at fed
    rw [feed_of_code (by rw [hk.kind]; exact coded), if_pos coded]
    have taken := (Enclosed.simulation hk).code ⟨h.toEnclosed, h.binds hk fine⟩
    cases hcode : a.code t with
    | error e =>
      rw [hcode] at fed
      cases fed
    | ok r =>
      rw [hcode] at fed taken
      cases fed
      generalize b.code k = y at taken
      cases taken with
      | ok same =>
        refine ⟨_, rfl, ⟨⟨same.top, same.below, same.brackets⟩, fun inner => ?_, ?_, ?_⟩⟩
        · exact .some ⟨hk, h.isModifier_eq hk fine hcode inner⟩
        · exact fun _ j l next => next.bindsTo_eq hk
        · rintro - l hl
          cases hl
          rfl
  · rw [if_neg coded]
    unfold Scanner.feed at fed ⊢
    rw [hk.kind]
    cases kind : t.kind with
    | comment =>
      rw [kind] at fed
      cases fed
      exact ⟨_, rfl, ⟨⟨h.top, h.below, h.brackets⟩, h.inner, h.outer, h.kept⟩⟩
    | newline =>
      rw [kind] at fed
      cases fed
      exact ⟨_, rfl, h.newline hk kind⟩
    | semicolon =>
      rw [kind] at fed
      cases fed
      exact ⟨_, rfl, h.semicolon⟩
    | eof => exact absurd kind more
    | _ =>
      rw [kind] at coded
      exact absurd rfl coded

end Alongside

/-- A word for a condition opens a body unless it goes with what precedes. -/
theorem below_of_condition {s s' : Scanner} {w : Keyword} (header : s.top.header = .body)
    (hw : t.kind = .keyword w) (condition : w.isCondition) (fed : s.feed t = .ok s') :
    s'.below.length = s.below.length + if s.last.any (fun l => l.token.bindsTo t) then 0
      else 1 := by
  rw [feed_of_code (by rw [hw]; rfl), code_of_body header, Scanner.plain, hw] at fed
  have opened (kind : BlockKind) :
      (if s.atExpressionStart then s.openFrame kind t .line else s.touch t).below.length =
        s.below.length + if s.last.any (fun l => l.token.bindsTo t) then 0 else 1 := by
    rw [atExpressionStart_of_condition s hw condition]
    cases s.last.any fun l => l.token.bindsTo t with
    | false =>
      show (_ :: (s.touch t).below).length = _
      rw [below_touch]
      rfl
    | true => exact congrArg List.length (below_touch s t)
  unfold Scanner.word at fed
  cases w with
  | ifWord | unlessWord | whileWord | untilWord =>
    cases fed
    exact opened _
  | _ => cases condition

/-- A brace opens a body if it goes with what precedes. -/
theorem below_of_brace {s s' : Scanner} (header : s.top.header = .body)
    (brace : t.isPunct leftBrace) (fed : s.feed t = .ok s') :
    s'.below.length = s.below.length + if s.last.any (fun l => l.token.bindsTo t) then 1
      else 0 := by
  have kind := kind_of_isPunct brace
  rw [feed_of_code (by rw [kind]; rfl), code_of_body header, Scanner.plain, kind] at fed
  dsimp only at fed
  rw [if_pos brace] at fed
  cases fed
  show (s.openBrace t).below.length = _
  unfold Scanner.openBrace
  rw [opensBlock_of_brace s brace]
  cases s.last.any fun l => l.token.bindsTo t with
  | false => exact congrArg List.length (below_touch s t)
  | true =>
    show (_ :: (s.touch t).below).length = _
    rw [below_touch]
    rfl

/-- A token that goes with what precedes is a word for a condition or a brace. -/
theorem cases_of_bindsTo {l : Token} (h : l.bindsTo t) :
    (∃ w, t.kind = .keyword w ∧ w.isCondition) ∨ t.isPunct leftBrace := by
  unfold Token.bindsTo at h
  split at h
  · next kind => exact .inl ⟨_, kind, rfl⟩
  · next kind => exact .inl ⟨_, kind, rfl⟩
  · next kind => exact .inl ⟨_, kind, rfl⟩
  · next kind => exact .inl ⟨_, kind, rfl⟩
  · rw [Bool.and_eq_true] at h
    exact .inr h.1

/-- A token that is misread opens a body in one of the two programs only. -/
theorem Alongside.bodies_ne {prev : Option Token} (h : a.Alongside prev b) (hk : t.Alike k)
    (misread : a.misreads prev t = true) (fed : a.feed t = .ok a') (fed' : b.feed k = .ok b') :
    b'.bodies ≠ a'.bodies := by
  unfold misreads at misread
  rw [Bool.and_eq_true, Bool.and_eq_true, beq_iff_eq, Option.isNone_iff_eq_none] at misread
  obtain ⟨⟨program, forgotten⟩, binds⟩ := misread
  have header := (h.top.outer program).2.2
  have header' : b.top.header = .body := by
    rw [h.top.header, header]
    rfl
  have kept := (h.outer program t k hk).trans binds
  have depth := h.below.length_eq
  obtain ⟨l, -, hl⟩ := Option.any_eq_true _ _ |>.1 binds
  intro same
  have lengths : b'.below.length = a'.below.length := by
    have lengths := congrArg List.length same
    unfold bodies at lengths
    rw [List.length_map, List.length_map] at lengths
    exact Nat.succ.inj lengths
  rcases cases_of_bindsTo hl with ⟨w, hw, condition⟩ | brace
  · have opens := below_of_condition header hw condition fed
    have modifies := below_of_condition header' (hk.kind.trans hw) condition fed'
    rw [forgotten] at opens
    rw [kept] at modifies
    simp only [Option.any_none, Bool.false_eq_true, if_false, if_true] at opens modifies
    omega
  · have bracket := below_of_brace header brace fed
    have opens := below_of_brace header' ((hk.isPunct_eq _).trans brace) fed'
    rw [forgotten] at bracket
    rw [kept] at opens
    simp only [Option.any_none, Bool.false_eq_true, if_false, if_true] at bracket opens
    omega

/-! ## All tokens -/

/-- The kinds of the bodies that are open at some tokens. -/
def bodiesAlong (s : Scanner) (ts : List Token) : List (List BlockKind) :=
  (s.steps ts).map fun x => x.1.bodies

/-- Whether one of some tokens is misread, where `prev` is the last token of code before them. -/
def misreadAlong (s : Scanner) (prev : Option Token) : List Token → Bool
  | [] => false
  | t :: ts => s.misreads prev t || (s.feed t).toOption.any fun s' =>
      s'.misreadAlong (if isCode t.kind then some t else prev) ts

theorem bodiesAlong_cons {s s' : Scanner} (fed : s.feed t = .ok s') (ts : List Token) :
    s.bodiesAlong (t :: ts) = s.bodies :: s'.bodiesAlong ts := by
  unfold bodiesAlong
  rw [steps_cons fed, List.map_cons]

theorem bodiesAlong_append {s s' : Scanner} {ts : List Token} (fed : ts.foldlM feed s = .ok s')
    (us : List Token) : s.bodiesAlong (ts ++ us) = s.bodiesAlong ts ++ s'.bodiesAlong us := by
  induction ts generalizing s with
  | nil =>
    cases fed
    rfl
  | cons t ts ih =>
    obtain ⟨r, hr, fed⟩ := foldlM_cons_eq_ok.1 fed
    rw [List.cons_append, bodiesAlong_cons hr, bodiesAlong_cons hr, ih fed, List.cons_append]

theorem misreadAlong_cons {s s' : Scanner} {prev : Option Token} (fed : s.feed t = .ok s')
    (ts : List Token) :
    s.misreadAlong prev (t :: ts) =
      (s.misreads prev t || s'.misreadAlong (if isCode t.kind then some t else prev) ts) := by
  rw [misreadAlong, fed]
  rfl

/-- Where a token is misread, the open bodies differ at the next one, if the program in parentheses
is not refused before. -/
theorem Alongside.bodiesAlong_ne {prev : Option Token} (h : a.Alongside prev b) (hk : t.Alike k)
    (misread : a.misreads prev t = true) (fed : a.feed t = .ok a') (ks : List Token)
    (rest : List (List BlockKind)) : b.bodiesAlong (k :: ks) ≠ a.bodies :: a'.bodies :: rest := by
  intro same
  cases fed' : b.feed k with
  | error e =>
    rw [bodiesAlong, steps, fed'] at same
    cases (List.cons.inj same).2
  | ok b' =>
    rw [bodiesAlong_cons fed'] at same
    have next := (List.cons.inj same).2
    cases ks with
    | nil => cases next
    | cons j js => exact h.bodies_ne hk misread fed fed' (List.cons.inj next).1

/-- Both take all tokens of the program and the same bodies are open at them, unless one of them is
misread; then the open bodies differ somewhere. -/
theorem Alongside.walk {prev : Option Token} {ts ks : List Token} {eof : Token}
    (h : a.Alongside prev b) (enclosed : List.Forall₂ Token.Enclosed ts ks) (last : eof.kind = .eof)
    (fed : ts.foldlM Scanner.feed a = .ok a') :
    (a.misreadAlong prev (ts ++ [eof]) = false ∧ ∃ prev' b', ks.foldlM Scanner.feed b = .ok b' ∧
      a'.Alongside prev' b' ∧ b.bodiesAlong ks = a.bodiesAlong ts) ∨
    (a.misreadAlong prev (ts ++ [eof]) = true ∧ ∀ more rest,
      b.bodiesAlong (ks ++ more) ≠ a.bodiesAlong (ts ++ [eof]) ++ rest) := by
  induction enclosed generalizing prev a b with
  | nil =>
    cases fed
    refine .inl ⟨?_, prev, b, rfl, h, rfl⟩
    -- the end of a program goes with nothing
    have alone (l : Token) : l.bindsTo eof = false := by
      rw [Bool.eq_false_iff]
      intro binds
      rcases cases_of_bindsTo binds with ⟨w, kind, -⟩ | brace
      · rw [last] at kind
        cases kind
      · rw [kind_of_isPunct brace] at last
        cases last
    have fine : a'.misreads prev eof = false := by
      unfold misreads
      simp [alone]
    rw [List.nil_append, misreadAlong, fine, Bool.false_or]
    cases (a'.feed eof).toOption <;> rfl
  | @cons t k ts ks hk _ ih =>
    obtain ⟨r, hr, fed⟩ := foldlM_cons_eq_ok.1 fed
    rw [List.cons_append, misreadAlong_cons hr]
    cases misread : a.misreads prev t with
    | false =>
      obtain ⟨r', hr', next⟩ := h.feed hk.alike hk.inner misread hr
      rw [Bool.false_or]
      rcases ih next fed with ⟨fine, prev', b', fed', along, same⟩ | ⟨bad, differ⟩
      · refine .inl ⟨fine, prev', b', foldlM_cons_eq_ok.2 ⟨r', hr', fed'⟩, along, ?_⟩
        rw [bodiesAlong_cons hr, bodiesAlong_cons hr', same, h.bodies_eq]
      · refine .inr ⟨bad, fun more rest => ?_⟩
        rw [List.cons_append, bodiesAlong_cons hr, bodiesAlong_cons hr', List.cons_append]
        exact fun same => differ more rest (List.cons.inj same).2
    | true =>
      refine .inr ⟨Bool.true_or _, fun more rest => ?_⟩
      obtain ⟨after, hafter⟩ : ∃ after, r.bodiesAlong (ts ++ [eof]) = r.bodies :: after := by
        cases ts <;> exact ⟨_, rfl⟩
      rw [List.cons_append, bodiesAlong_cons hr, hafter]
      exact h.bodiesAlong_ne hk.alike misread hr _ _

/-- The line with the opening parenthesis. -/
theorem exists_opening {opening line : Token} (hopening : opening.isPunct "(")
    (hline : line.kind = .newline) :
    ∃ b, ({} : Scanner).feed opening = .ok b ∧ b.feed line = .ok b ∧ Alongside none {} b := by
  have kind := kind_of_isPunct hopening
  have plain : ({} : Scanner).plain opening =
      .ok ((({} : Scanner).touch opening).openBracket .paren opening) := by
    unfold Scanner.plain
    rw [kind]
    simp [isPunct_eq_beq hopening, leftBrace, rightBrace]
  have fed := feed_of_code (s := {}) (t := opening) (by rw [kind]; rfl)
  rw [code_of_body rfl, plain] at fed
  refine ⟨_, fed, ?_, ⟨⟨?_, .nil, rfl⟩, fun inner => absurd rfl inner, fun _ t k _ => ?_, nofun⟩⟩
  · rw [Scanner.feed, hline]
    rfl
  · exact ⟨rfl, rfl, fun inner => absurd rfl inner, fun _ => ⟨rfl, rfl, rfl⟩, nofun, nofun⟩
  · -- an opening parenthesis takes no modifier and no block
    show opening.bindsTo k = false
    have modifier : opening.allowsModifier = false := by
      unfold Token.allowsModifier
      rw [kind, isPunctOf_eq_any hopening]
      decide
    have block : opening.allowsBlock = false := by
      unfold Token.allowsBlock
      rw [kind, isPunctOf_eq_any hopening]
      decide
    unfold Token.bindsTo
    rw [modifier, block, Bool.false_and, Bool.and_false]
    split <;> rfl

/-- Before the end of a program that is accepted nothing is open but the program. -/
theorem exists_ended {ts : List Token} {eof : Token} (heof : eof.kind = .eof)
    (fed : (ts ++ [eof]).foldlM feed {} = .ok a') :
    ∃ a, ts.foldlM feed {} = .ok a ∧ a.feed eof = .ok a' ∧
      a.brackets = [] ∧ a.below = [] ∧ a.top.kind = .program := by
  obtain ⟨a, inside, ends⟩ := foldlM_concat fed
  obtain ⟨brackets, around, -⟩ : a.brackets = [] ∧ a.below = [] ∧ a' = a.endHeaderOrStatement := by
    rw [Scanner.feed, heof] at ends
    exact finish_eq_ok ends
  have program : a.top.kind = .program := Classical.byContradiction fun inner =>
    (rooted_foldlM rooted_start inside).below_ne_nil (.inl inner) around
  exact ⟨a, inside, ends, brackets, around, program⟩

/-- Nothing is open but the program, and no operand is due. -/
structure Settled (s : Scanner) : Prop where
  brackets : s.brackets = []
  below : s.below = []
  kind : s.top.kind = .program
  last : s.last.any LastCode.continuesLine = false

/-- An end of a line leaves a settled scanner settled. -/
theorem Settled.newline {s : Scanner} (h : s.Settled) (t : Token) : (s.newline t).Settled := by
  unfold Scanner.newline
  dsimp only
  split
  · exact h
  · exact ⟨(brackets_endHeaderOrStatement s).trans h.brackets,
      (below_endHeaderOrStatement s).trans h.below, (kind_endHeaderOrStatement s).trans h.kind, rfl⟩

/-- A settled scanner may end. -/
theorem Settled.finish {s : Scanner} (h : s.Settled) (t : Token) : ∃ r, s.finish t = .ok r := by
  unfold Scanner.finish
  rw [h.brackets, h.below, h.last]
  exact ⟨_, rfl⟩

/-- Of a settled scanner only the body of the program is open. -/
theorem Settled.bodies_eq {s : Scanner} (h : s.Settled) : s.bodies = [.program] := by
  unfold bodies
  rw [h.below, List.map_singleton, h.kind]

/-- Behind the last line the program may end. -/
theorem Settled.ends {s : Scanner} (h : s.Settled) {line last : Token}
    (hline : line.kind = .newline) (hlast : last.kind = .eof) :
    (∃ r, [line, last].foldlM feed s = .ok r) ∧
      s.bodiesAlong [line, last] = [[.program], [.program]] := by
  obtain ⟨r, hr⟩ := (h.newline line).finish last
  have first : s.feed line = .ok (s.newline line) := by rw [Scanner.feed, hline]
  have second : (s.newline line).feed last = .ok r := by
    rw [Scanner.feed, hlast]
    exact hr
  refine ⟨⟨r, foldlM_cons_eq_ok.2 ⟨_, first, foldlM_cons_eq_ok.2 ⟨r, second, rfl⟩⟩⟩, ?_⟩
  rw [bodiesAlong_cons first, bodiesAlong_cons second, h.bodies_eq, (h.newline line).bodies_eq]
  rfl

/-- Behind a program that leaves nothing open, the closing parenthesis closes the opening one. -/
theorem Alongside.exists_closing {prev : Option Token} (h : a.Alongside prev b)
    (brackets : a.brackets = []) (program : a.top.kind = .program) (below : a.below = [])
    {closing : Token} (hclosing : closing.isPunct ")") :
    ∃ c, b.feed closing = .ok c ∧ c.Settled := by
  have kind := kind_of_isPunct hclosing
  have header : b.top.header = .body := by
    rw [h.top.header, (h.top.outer program).2.2]
    rfl
  have below' : b.below = [] := List.forall₂_nil_left_iff.1 (below ▸ h.below)
  obtain ⟨n, brackets'⟩ : ∃ n, b.brackets = [(.paren, n)] := by
    have same := h.brackets
    rw [brackets, List.map_nil, List.nil_append] at same
    obtain ⟨x, hx, rest⟩ := List.map_eq_singleton_iff.1 same
    exact ⟨x.2, by rw [hx, ← rest]⟩
  -- the parenthesis around the program is the only bracket that is open
  have closed : b.plain closing = .ok (b.dropBracket.touch closing) := by
    have bracket : b.closeBracket .paren closing = .ok (b.dropBracket.touch closing) := by
      unfold Scanner.closeBracket
      rw [(h.inBracket_of_program (List.cons_ne_nil _ _) program).1, brackets']
      rfl
    unfold Scanner.plain
    rw [kind]
    simp [isPunct_eq_beq hclosing, bracket, leftBrace, rightBrace]
  have fed := feed_of_code (s := b) (t := closing) (by rw [kind]; rfl)
  rw [code_of_body header, closed] at fed
  refine ⟨_, fed, ?_, (below_touch _ _).trans below',
    (kind_touch _ _).trans (h.kind_eq.trans program), ?_⟩
  · refine (brackets_touch _ _).trans ?_
    show b.brackets.tail = []
    rw [brackets']
    rfl
  · show LastCode.continuesLine ⟨closing, _⟩ = false
    unfold LastCode.continuesLine Token.keyword? Token.continuesLine
    rw [kind, isPunctOf_eq_any hclosing]
    rfl

end Scanner

/-- The kinds of the bodies that are open at the tokens of a program. -/
def openBodies (source : Text) : List (List BlockKind) :=
  ({} : Scanner).bodiesAlong (tokenize source).tokens

/-- Whether a token that begins a statement of a program, outside of all bodies, would go with the
last token of the statement above. -/
def misread (source : Text) : Bool := ({} : Scanner).misreadAlong none (tokenize source).tokens

/-- A program that ends with its lines, and is accepted, is accepted in parentheses with the same
bodies at all of its tokens if and only if no word for a condition and no brace that begins a
statement would be taken, behind the last token of the statement above, for a modifier or for the
brace of a block. -/
theorem parenthesised_iff {source : Text} {s : Scan} (closed : source.Closed)
    (unmarked : Unmarked source) (accepted : scan source = .ok (.ok s)) :
    (∃ r, scan (parenthesised source) = .ok (.ok r)) ∧
        openBodies (parenthesised source) =
          [[.program], [.program]] ++ openBodies source ++ [[.program], [.program]] ↔
      misread source = false := by
  obtain ⟨r, fed, complete, -⟩ := Scan.eq_of_scan accepted
  obtain ⟨ts, eof, ks, opening, line, closing, below, last, tokens, heof, enclosed, tokens',
    complete', hopening, hline, hclosing, hbelow, hlast⟩ :=
      tokens_parenthesised closed unmarked complete
  obtain ⟨b, first, second, along⟩ := Scanner.exists_opening hopening hline
  rw [tokens] at fed
  obtain ⟨a, inside, ends, brackets, around, program⟩ := Scanner.exists_ended heof fed
  have front (more : List Token) : ({} : Scanner).bodiesAlong (opening :: line :: more) =
      [.program] :: [.program] :: b.bodiesAlong more := by
    rw [Scanner.bodiesAlong_cons first, Scanner.bodiesAlong_cons second, along.bodies_eq]
    rfl
  unfold misread openBodies
  rw [tokens, tokens', List.cons_append, List.cons_append, front]
  -- all words are read alike, or the bodies differ from the first that is misread on
  rcases along.walk enclosed heof inside with ⟨fine, prev, b', inside', along', same⟩
    | ⟨bad, differ⟩
  · obtain ⟨c, third, settled⟩ := along'.exists_closing brackets program around hclosing
    obtain ⟨⟨r, ended'⟩, open'⟩ := settled.ends hbelow hlast
    refine iff_of_true ⟨?_, ?_⟩ fine
    · have rest : (ks ++ [closing, below, last]).foldlM Scanner.feed b = .ok r := by
        rw [List.foldlM_append, inside']
        exact Scanner.foldlM_cons_eq_ok.2 ⟨c, third, ended'⟩
      have whole : (opening :: line :: (ks ++ [closing, below, last])).foldlM Scanner.feed {} =
          .ok r :=
        Scanner.foldlM_cons_eq_ok.2 ⟨b, first, Scanner.foldlM_cons_eq_ok.2 ⟨b, second, rest⟩⟩
      unfold scan Scan.ofTokens
      rw [tokens', List.cons_append, List.cons_append, whole, complete']
      exact ⟨_, rfl⟩
    · rw [Scanner.bodiesAlong_append inside', Scanner.bodiesAlong_append inside, same,
        Scanner.bodiesAlong_cons third, open', along'.bodies_eq, Scanner.bodiesAlong_cons ends]
      simp [Scanner.bodiesAlong, Scanner.steps]
  · rw [bad]
    refine iff_of_false (fun both => ?_) (by decide)
    exact differ _ _ (List.cons.inj (List.cons.inj both.2).2).2

/-- A modifier, and a condition behind the end of its line, in a body. -/
theorem parenthesised_condition :
    Text.Closed "if x\n y if w\n if z\n end\nend\n".toList ∧
      Unmarked "if x\n y if w\n if z\n end\nend\n".toList ∧
        (∃ s, scan "if x\n y if w\n if z\n end\nend\n".toList = .ok (.ok s)) ∧
      ∃ r, scan (parenthesised "if x\n y if w\n if z\n end\nend\n".toList) = .ok (.ok r) := by
  have scanned : (scanFor 60 "if x\n y if w\n if z\n end\nend\n".toList).isSome := by decide +kernel
  obtain ⟨s, hs⟩ := Option.isSome_iff_exists.1 scanned
  have accepted := scan_of_scanFor hs
  have closed : Text.Closed "if x\n y if w\n if z\n end\nend\n".toList := .inr (by decide)
  have unmarked : Unmarked "if x\n y if w\n if z\n end\nend\n".toList := by
    have all : ∀ p < 40, wordAhead "__END__" lineEnds
        ("if x\n y if w\n if z\n end\nend\n".toList.drop p) = false := by decide
    intro p _
    by_cases inside : p < 40
    · exact all p inside
    · rw [List.drop_of_length_le (Nat.le_trans (by decide) (Nat.le_of_not_lt inside))]
      rfl
  have fine : misread "if x\n y if w\n if z\n end\nend\n".toList = false := by
    have walked : (Tokenizer.runFor 60 (.ofSource "if x\n y if w\n if z\n end\nend\n".toList)).any
        (fun t => !({} : Scanner).misreadAlong none t.tokens) := by decide +kernel
    obtain ⟨t, ht, none⟩ := (Option.any_eq_true ..).1 walked
    rw [misread, tokenize, Tokenizer.run_eq_of_runFor ht]
    simpa using none
  exact ⟨closed, unmarked, ⟨s, accepted⟩, ((parenthesised_iff closed unmarked accepted).2 fine).1⟩

/-- An `if` below a line that ends with a name opens a body, but in parentheses it is a modifier,
and its `end` closes nothing. -/
theorem parenthesised_refused :
    (∃ s, scan "x\nif y\n z\nend\n".toList = .ok (.ok s)) ∧
      ¬ ∃ r, scan (parenthesised "x\nif y\n z\nend\n".toList) = .ok (.ok r) := by
  have scanned : (scanFor 40 "x\nif y\n z\nend\n".toList).isSome := by decide +kernel
  obtain ⟨s, hs⟩ := Option.isSome_iff_exists.1 scanned
  refine ⟨⟨s, scan_of_scanFor hs⟩, fun ⟨r, hr⟩ => ?_⟩
  have refused : (Tokenizer.runFor 40 (.ofSource (parenthesised "x\nif y\n z\nend\n".toList))).any
      (fun t => (t.tokens.foldlM Scanner.feed {}).toOption.isNone) := by decide +kernel
  obtain ⟨t, ht, none⟩ := (Option.any_eq_true ..).1 refused
  obtain ⟨final, fed, -⟩ := Scan.eq_of_scan hr
  rw [tokenize, Tokenizer.run_eq_of_runFor ht] at fed
  rw [fed] at none
  cases none

end Marginalia.Source
