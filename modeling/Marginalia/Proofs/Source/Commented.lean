import Marginalia.Proofs.Source.EnclosedScan
import Marginalia.Proofs.Source.MarginLines

/-!
# Statements among comments

Comments among the tokens of a program change nothing for the scanner
(`Scanner.exists_feed_of_commented`): it takes the tokens of the second program as it takes those of
the first, if each of them is the same to it (`Token.Alike`). Behind the last statement it also
passes over lines without code (`Scanner.exists_feed_of_idle`).
-/

namespace Marginalia.Source

/-! ## Comments among tokens -/

/-- The tokens of the second list are those of the first, with comments among them. -/
inductive Commented (R : Token → Token → Prop) : List Token → List Token → Prop where
  | nil : Commented R [] []
  | token {t k : Token} {ts ks : List Token} (h : R t k) (rest : Commented R ts ks) :
      Commented R (t :: ts) (k :: ks)
  | comment {c : Token} {ts ks : List Token} (kind : c.kind = .comment) (rest : Commented R ts ks) :
      Commented R ts (c :: ks)

namespace Commented

variable {R S : Token → Token → Prop} {ts ks us vs : List Token}

/-- Comments may be among tokens that are put together. -/
theorem append (h : Commented R ts ks) (h' : Commented R us vs) :
    Commented R (ts ++ us) (ks ++ vs) := by
  induction h with
  | nil => exact h'
  | token h _ ih => exact .token h ih
  | comment kind _ ih => exact .comment kind ih

/-- What holds of the tokens may be weakened. -/
theorem imp_of_mem (h : Commented R ts ks) (imp : ∀ t ∈ ts, ∀ k ∈ ks, R t k → S t k) :
    Commented S ts ks := by
  induction h with
  | nil => exact .nil
  | token h _ ih =>
    exact .token (imp _ List.mem_cons_self _ List.mem_cons_self h) (ih fun t ht k hk =>
      imp t (List.mem_cons_of_mem _ ht) k (List.mem_cons_of_mem _ hk))
  | comment kind _ ih =>
    exact .comment kind (ih fun t ht k hk => imp t ht k (List.mem_cons_of_mem _ hk))

/-- There need not be any comments. -/
theorem of_forall₂ (h : List.Forall₂ R ts ks) : Commented R ts ks := by
  induction h with
  | nil => exact .nil
  | cons h _ ih => exact .token h ih

end Commented

namespace Tokenizer

variable {m : Margins} {f g : List Finding}

/-- The same token before margins of both programs. -/
def Beside (m : Margins) (t k : Token) : Prop := ∃ n p q, m.Split n p q ∧ t.Twin p q k

/-- Pairs of findings have tokens beside each other. -/
theorem forall₂_beside (h : List.Forall₂ (Pair m) f g) :
    List.Forall₂ (Beside m) (tokensOf f) (tokensOf g) := by
  induction h with
  | nil => exact .nil
  | cons pair _ ih =>
    obtain ⟨n, p, q, split, twin⟩ := pair
    cases twin with
    | token twin =>
      rw [tokensOf_token, tokensOf_token]
      exact .cons ⟨n, p, q, split, twin⟩ ih
    | same silent =>
      rw [tokensOf_cons_of_none silent, tokensOf_cons_of_none silent]
      exact ih

/-- What the second walk finds are the tokens of the first, with comments among them. -/
theorem commented_of_woven (h : Woven m f g) : Commented (Beside m) (tokensOf f) (tokensOf g) := by
  induction h with
  | nil => exact .nil
  | snoc _ weaves ih =>
    rw [tokensOf_append, tokensOf_append]
    refine ih.append ?_
    cases weaves with
    | plain pairs => exact .of_forall₂ (forall₂_beside pairs)
    | commented pairs _ _ comment =>
      rw [tokensOf_token]
      exact .comment comment (.of_forall₂ (forall₂_beside pairs))

/-- A comment of the second walk is one of the first, or stands where one was put before the end of
a line. -/
theorem beside_of_weaves {f g : List Finding} (weaves : Weaves m f g) {k : Token}
    (hk : k ∈ tokensOf g) :
    (∃ c ∈ tokensOf f, Beside m c k) ∨
      k.line + Text.lineFeeds k.after = m.last + Text.lineFeeds m.below := by
  have twin {f g : List Finding} (pairs : List.Forall₂ (Pair m) f g) (hk : k ∈ tokensOf g) :
      ∃ c ∈ tokensOf f, Beside m c k := by
    have same := forall₂_beside pairs
    generalize tokensOf f = cs, tokensOf g = ks at same hk
    induction same with
    | nil => cases hk
    | cons beside _ ih =>
      rcases List.mem_cons.1 hk with rfl | hk
      · exact ⟨_, List.mem_cons_self, beside⟩
      · obtain ⟨c, hc, beside⟩ := ih hk
        exact ⟨c, List.mem_cons_of_mem _ hc, beside⟩
  cases weaves with
  | plain pairs => exact .inl (twin pairs hk)
  | commented pairs _ _ _ _ _ _ sum =>
    rcases List.mem_cons.1 hk with rfl | hk
    · exact .inr sum
    · exact .inl (twin pairs hk)

/-- A token of the second walk is beside one of the first, or below them. -/
theorem beside_of_woven {f g : List Finding} (woven : Woven m f g) {k : Token}
    (hk : k ∈ tokensOf g) :
    (∃ c ∈ tokensOf f, Beside m c k) ∨
      k.line + Text.lineFeeds k.after = m.last + Text.lineFeeds m.below := by
  induction woven with
  | nil => cases hk
  | snoc _ weaves ih =>
    rw [tokensOf_append] at hk ⊢
    rcases List.mem_append.1 hk with hk | hk
    · exact (ih hk).imp_left fun ⟨c, hc, beside⟩ => ⟨c, List.mem_append_left _ hc, beside⟩
    · exact (beside_of_weaves weaves hk).imp_left fun ⟨c, hc, beside⟩ =>
        ⟨c, List.mem_append_right _ hc, beside⟩

end Tokenizer

/-! ## The scanner -/

namespace Scanner

variable {a b a' b' : Scanner} {t k : Token}

/-- The same state for tokens that are alike. -/
structure Alike (a b : Scanner) : Prop extends Enclosed [] a b where
  last : Option.Rel (fun l m => l.token.Alike m.token ∧ m.isModifier = l.isModifier) a.last b.last

/-- Both programs start alike. -/
theorem alike_start : Alike {} {} :=
  ⟨⟨⟨rfl, rfl, fun other => absurd rfl other, fun _ => ⟨rfl, rfl, rfl⟩, nofun, nofun⟩, .nil, rfl⟩,
    .none⟩

namespace Alike

section Tests

variable (h : a.Alike b)

include h

/-- What is asked of the last token is the same of both. -/
theorem any_last_eq {p q : LastCode → Bool}
    (hp : ∀ l m, l.token.Alike m.token → m.isModifier = l.isModifier → q m = p l) :
    b.last.any q = a.last.any p := by
  have last := h.last
  generalize a.last = x, b.last = y at last
  cases last with
  | some same => exact hp _ _ same.1 same.2
  | none => rfl

/-- Both scanners are at the start of an expression, or none is. -/
theorem atExpressionStart_eq : b.atExpressionStart = a.atExpressionStart :=
  congrArg not (h.any_last_eq fun _ _ same _ => same.allows_eq.1)

/-- The line goes on behind the last token on both sides, or on none. -/
theorem continuesLine_eq : b.last.any LastCode.continuesLine = a.last.any LastCode.continuesLine :=
  h.any_last_eq fun l m same modifier => by
    unfold LastCode.continuesLine
    rw [modifier, same.allows_eq.2.2]

/-- Brackets are open on both sides, or on none. -/
theorem atFrameLevel_eq : b.atFrameLevel = a.atFrameLevel := by
  by_cases program : a.top.kind = .program
  · obtain ⟨left, right, -⟩ := h.top.outer program
    unfold atFrameLevel
    rw [h.length_brackets, left, right]
    rfl
  · exact h.toEnclosed.atFrameLevel_eq program

/-- A statement ends and the last token is forgotten. -/
theorem separated : Alike { a.endHeaderOrStatement with last := none }
    { b.endHeaderOrStatement with last := none } := by
  have ended := h.endHeaderOrStatement
  exact ⟨⟨ended.top, ended.below, ended.brackets⟩, .none⟩

/-- A comment is written down, and nothing else. -/
theorem feed_comment (kind : k.kind = .comment) : ∃ b', b.feed k = .ok b' ∧ a.Alike b' := by
  refine ⟨{ b with comments := b.comments ++ [⟨k.line, k.start, k.stop⟩] }, ?_, ?_⟩
  · unfold Scanner.feed
    rw [kind]
  · exact ⟨⟨h.top, h.below, h.brackets⟩, h.last⟩

end Tests

variable (h : a.Alike b) (hk : t.Alike k)

include h hk

/-- An end of a line is read alike on both sides. -/
theorem newline (newline : t.kind = .newline) : (a.newline t).Alike (b.newline k) := by
  have continues (params : Bool) :
      b.last.any (fun l => l.continuesLine && !(params && l.token.isPunct "|")) =
        a.last.any fun l => l.continuesLine && !(params && l.token.isPunct "|") :=
    h.any_last_eq fun l m same modifier => by
      unfold LastCode.continuesLine
      rw [modifier, same.allows_eq.2.2, same.isPunct_eq]
  unfold Scanner.newline
  dsimp only
  rw [h.kind_eq, h.header_beq .line nofun, h.atFrameLevel_eq, continues, hk.dot newline]
  split
  · exact h
  · exact h.separated

/-- A token is taken in both programs. -/
theorem feed (more : t.kind ≠ .eof) (fed : a.feed t = .ok a') :
    ∃ b', b.feed k = .ok b' ∧ a'.Alike b' := by
  by_cases coded : isCode t.kind
  · rw [feed_of_code coded] at fed
    rw [feed_of_code (by rw [hk.kind]; exact coded), hk.keyword?_eq, h.atExpressionStart_eq]
    have taken := (Enclosed.simulation hk).code
      ⟨h.toEnclosed, h.any_last_eq fun _ _ same _ => hk.bindsTo_eq same⟩
    generalize a.code t = x, b.code k = y at fed taken
    cases taken with
    | error e => cases fed
    | ok same =>
      cases fed
      exact ⟨_, rfl, ⟨same.top, same.below, same.brackets⟩, .some ⟨hk, rfl⟩⟩
  · cases kind : t.kind with
    | comment =>
      unfold Scanner.feed at fed
      rw [kind] at fed
      cases fed
      obtain ⟨b', hb, same⟩ := h.feed_comment (hk.kind.trans kind)
      exact ⟨b', hb, ⟨⟨same.top, same.below, same.brackets⟩, same.last⟩⟩
    | newline =>
      unfold Scanner.feed at fed ⊢
      rw [hk.kind, kind]
      rw [kind] at fed
      cases fed
      exact ⟨_, rfl, h.newline hk kind⟩
    | semicolon =>
      unfold Scanner.feed at fed ⊢
      rw [hk.kind, kind]
      rw [kind] at fed
      cases fed
      refine ⟨_, rfl, ?_⟩
      rw [h.atFrameLevel_eq]
      split
      · exact h.separated
      · exact h
    | eof => exact absurd kind more
    | _ =>
      -- the kinds that are left are code
      rw [kind] at coded
      exact absurd rfl coded

end Alike

/-- Whatever comments stand among them, the tokens of a program are taken. -/
theorem exists_feed_of_commented {ts ks : List Token} (h : a.Alike b)
    (tokens : Commented Token.Alike ts ks) (more : ∀ t ∈ ts, t.kind ≠ .eof)
    (fed : ts.foldlM Scanner.feed a = .ok a') :
    ∃ b', ks.foldlM Scanner.feed b = .ok b' ∧ a'.Alike b' := by
  induction tokens generalizing a b with
  | nil =>
    cases fed
    exact ⟨b, rfl, h⟩
  | token hk _ ih =>
    rw [List.forall_mem_cons] at more
    obtain ⟨r, hr, fed⟩ := foldlM_cons_eq_ok.1 fed
    obtain ⟨r', hr', same⟩ := h.feed hk more.1 hr
    obtain ⟨b', fed', same'⟩ := ih same more.2 fed
    exact ⟨b', foldlM_cons_eq_ok.2 ⟨r', hr', fed'⟩, same'⟩
  | comment kind _ ih =>
    obtain ⟨r', hr', same⟩ := h.feed_comment kind
    obtain ⟨b', fed', same'⟩ := ih same more fed
    exact ⟨b', foldlM_cons_eq_ok.2 ⟨r', hr', fed'⟩, same'⟩

/-! ## Behind the last statement -/

/-- Nothing is open, so that the program may end here. -/
structure Idle (s : Scanner) : Prop where
  brackets : s.brackets = []
  below : s.below = []
  last : s.last.any LastCode.continuesLine = false

/-- Where the first scanner may end, the second is idle. -/
theorem Alike.idle (h : a.Alike b) (finished : a.finish t = .ok a') : b.Idle := by
  unfold finish at finished
  split at finished
  · cases finished
  · next brackets =>
    split at finished
    · cases finished
    · next below =>
      split at finished
      · cases finished
      · next last =>
        have none := h.brackets
        rw [brackets] at none
        have alone := h.below
        rw [Bool.not_eq_true, Bool.not_eq_false', List.isEmpty_iff] at below
        rw [below] at alone
        exact ⟨List.map_eq_nil_iff.1 none, List.forall₂_nil_left_iff.1 alone,
          h.continuesLine_eq.trans (Bool.eq_false_iff.2 last)⟩

/-- An idle scanner may end. -/
theorem Idle.finish (h : a.Idle) (t : Token) : ∃ b, a.finish t = .ok b := by
  refine ⟨a.endHeaderOrStatement, ?_⟩
  unfold Scanner.finish
  rw [h.brackets, h.below, h.last]
  rfl

/-- Comments and ends of lines leave a scanner idle. -/
theorem Idle.feed (h : a.Idle) (kind : t.kind = .comment ∨ t.kind = .newline) :
    ∃ b, a.feed t = .ok b ∧ b.Idle := by
  unfold Scanner.feed
  rcases kind with kind | kind
  · rw [kind]
    exact ⟨_, rfl, h.brackets, h.below, h.last⟩
  · rw [kind]
    refine ⟨_, rfl, ?_⟩
    unfold Scanner.newline
    dsimp only
    split
    · exact h
    · exact ⟨(brackets_endHeaderOrStatement a).trans h.brackets,
        (below_endHeaderOrStatement a).trans h.below, rfl⟩

/-- Comments and ends of lines are passed over up to the end of the program. -/
theorem exists_feed_of_idle {ts : List Token} (h : a.Idle)
    (kinds : ∀ t ∈ ts, t.kind = .comment ∨ t.kind = .newline) (eof : t.kind = .eof) :
    ∃ b, (ts ++ [t]).foldlM Scanner.feed a = .ok b := by
  induction ts generalizing a with
  | nil =>
    obtain ⟨b, hb⟩ := h.finish t
    refine ⟨b, foldlM_cons_eq_ok.2 ⟨b, ?_, rfl⟩⟩
    unfold Scanner.feed
    rw [eof]
    exact hb
  | cons u ts ih =>
    rw [List.forall_mem_cons] at kinds
    obtain ⟨r, hr, idle⟩ := h.feed kinds.1
    obtain ⟨b, hb⟩ := ih idle kinds.2
    exact ⟨b, foldlM_cons_eq_ok.2 ⟨r, hr, hb⟩⟩

end Scanner

end Marginalia.Source
