import Marginalia.Proofs.Source.Jumps

/-!
# The bodies of the scanner

A token leaves the bodies as they are, enters one, or leaves one, and never does more than one of
these (`Passage`). Which of them it is can be told from the mark of the token (`leaves`). A body is
entered from a statement that its opener has just extended, or from a header, where no statement is
open; and it is left only into another one, so that the body of the program stays.

Under each body lie its brackets (`Stacked`), so that the two stacks fit together behind every
token, also behind an `end` that leaves the body of a brace and its brace behind (`open_feed`). What
follows for the bodies between any two tokens is put together in `Framed`, and holds of every run
(`framed_foldlM`).
-/

namespace Marginalia.Source

/-- The same body, perhaps further on. -/
structure Frame.Same (f g : Frame) : Prop where
  kind : g.kind = f.kind
  line : g.line = f.line
  base : g.bracketBase = f.bracketBase

theorem Frame.Same.refl (f : Frame) : f.Same f := ⟨rfl, rfl, rfl⟩

theorem Frame.Same.trans {f g h : Frame} (hfg : f.Same g) (hgh : g.Same h) : f.Same h :=
  ⟨hgh.kind.trans hfg.kind, hgh.line.trans hfg.line, hgh.base.trans hfg.base⟩

namespace Scanner

variable {s s' : Scanner} {t : Token} {os : List Opener}

/-! ## Bodies and the brackets under them -/

/-- Around a body there is nothing if it is that of the program, and otherwise another one, with no
more brackets. -/
theorem Under.cases_outer {k : BlockKind} {fs : List Frame} {bs : List (Bracket × Nat)}
    (h : Under k fs bs os) :
    k = .program ∧ fs = [] ∧ bs = [] ∨
      k ≠ .program ∧ ∃ outer os', Stacked fs outer os' ∧ outer.length ≤ bs.length := by
  cases h with
  | program => exact .inl ⟨rfl, rfl, rfl⟩
  | block outer word => exact .inr ⟨word.1, _, _, outer, Nat.le_refl _⟩
  | braceBlock line outer => exact .inr ⟨by nofun, _, _, outer, Nat.le_succ _⟩

/-- The outermost body is that of the program, and no other body is. -/
theorem Stacked.exists_root {fs : List Frame} {bs : List (Bracket × Nat)} (h : Stacked fs bs os) :
    ∃ inner root, fs = inner ++ [root] ∧ root.kind = .program ∧ root.bracketBase = 0 ∧
      ∀ f ∈ inner, f.kind ≠ .program := by
  induction fs generalizing bs os with
  | nil => cases h
  | cons f fs ih =>
    obtain ⟨inside, under, os', hunder, base, -, rfl, -⟩ := h.exists_inside
    obtain ⟨program, rfl, rfl⟩ | ⟨inner, outer, os'', stacked, -⟩ := hunder.cases_outer
    · exact ⟨[], f, rfl, program, base, nofun⟩
    · obtain ⟨gs, root, rfl, rest⟩ := ih stacked
      refine ⟨f :: gs, root, rfl, rest.1, rest.2.1, ?_⟩
      exact List.forall_mem_cons.2 ⟨inner, rest.2.2⟩

/-- The brackets of the bodies do not become fewer from the outside to the inside. -/
theorem Stacked.bases {fs : List Frame} {bs : List (Bracket × Nat)} (h : Stacked fs bs os) :
    (bs.length :: fs.map Frame.bracketBase).Pairwise (· ≥ ·) := by
  induction fs generalizing bs os with
  | nil => cases h
  | cons f fs ih =>
    obtain ⟨inside, under, os', hunder, base, -, rfl, -⟩ := h.exists_inside
    have inner : (under.length :: fs.map Frame.bracketBase).Pairwise (· ≥ ·) := by
      obtain ⟨-, rfl, -⟩ | ⟨-, outer, os'', stacked, fewer⟩ := hunder.cases_outer
      · exact List.pairwise_singleton _ _
      · obtain ⟨first, rest⟩ := List.pairwise_cons.1 (ih stacked)
        exact List.pairwise_cons.2 ⟨fun b hb => Nat.le_trans (first b hb) fewer, rest⟩
    rw [List.map_cons, base]
    refine List.pairwise_cons.2 ⟨?_, inner⟩
    rw [List.length_append]
    refine List.forall_mem_cons.2 ⟨Nat.le_add_left _ _, fun b hb => ?_⟩
    have := (List.pairwise_cons.1 inner).1 b hb
    omega

/-- The header of a `def` is that of a method, and the parentheses of its parameters are open while
they are read. -/
theorem Stacked.headers {fs : List Frame} {bs : List (Bracket × Nat)} (h : Stacked fs bs os) :
    ∀ f ∈ fs, (f.header.isMethod → f.kind = .methodDef) ∧
      ∀ depth, f.header = .params depth → depth ≤ bs.length := by
  induction fs generalizing bs os with
  | nil => cases h
  | cons f fs ih =>
    obtain ⟨inside, under, os', hunder, base, fits, rfl, -⟩ := h.exists_inside
    refine List.forall_mem_cons.2 ⟨⟨fun method => ?_, fun depth params => ?_⟩, fun g hg => ?_⟩
    · cases header : f.header with
      | methodName | afterName | afterParams => exact (fits.1 (by rw [header]; rfl)).1
      | params depth => exact (fits.2 depth header).1
      | body | line | blockStart =>
        rw [header] at method
        cases method
    · obtain ⟨-, depth_eq, line, last⟩ := fits.2 depth params
      have some : 0 < inside.length := List.length_pos_of_mem (List.mem_of_getLast? last)
      rw [List.length_append]
      omega
    · obtain ⟨-, rfl, -⟩ | ⟨-, outer, os'', stacked, fewer⟩ := hunder.cases_outer
      · cases hg
      · obtain ⟨method, params⟩ := ih stacked g hg
        refine ⟨method, fun depth header => ?_⟩
        have := params depth header
        rw [List.length_append]
        omega

/-- A body that is not that of the program lies in another one. -/
theorem Open.exists_outer (h : s.Open os) (inner : s.top.kind ≠ .program) :
    ∃ f fs, s.below = f :: fs := by
  obtain ⟨inside, bs, under, hunder, -⟩ := h.exists_inside
  obtain ⟨program, -⟩ | ⟨-, outer, os', stacked, -⟩ := hunder.cases_outer
  · exact absurd program inner
  · cases hbelow : s.below with
    | nil =>
      rw [hbelow] at stacked
      cases stacked
    | cons f fs => exact ⟨f, fs, rfl⟩

/-! ## What a token does to the bodies -/

/-- Whether a mark leaves the innermost body: an `end` does, and the `=` of a definition without an
end; and a closing brace, if it is that of the body. -/
def leaves (s : Scanner) : Option Mark → Bool
  | some (.closes .endWord) | some (.closes .assignment) => true
  | some (.closes (.bracket .brace)) => s.top.kind == .braceBlock && s.atFrameLevel
  | _ => false

/-- What a token does to the bodies, where it has some mark. -/
inductive Passage (t : Token) (m : Option Mark) (s s' : Scanner) : Prop where
  | stays (mark : s.leaves m = false) (below : s'.below = s.below) (same : s.top.Same s'.top)
  /-- The body around the new one has no bare header, and its open statement ends with the
  opener. -/
  | enters (mark : s.leaves m = false) (f : Frame) (below : s'.below = f :: s.below)
      (same : s.top.Same f) (full : f.header.isBare = false)
      (ends : ∀ o, f.statement = some o → o.stop = t.stop) (line : s'.top.line = t.line)
  | leaves (mark : s.leaves m = true) (f : Frame) (below : s.below = f :: s'.below)
      (same : f.Same s'.top)

variable {m : Option Mark}

/-- A token that is added to a statement leaves the frame the same. -/
theorem same_touch (s : Scanner) (t : Token) : s.top.Same (s.touch t).top := by
  unfold Scanner.touch
  split
  · exact ⟨rfl, rfl, rfl⟩
  · exact .refl _

theorem same_endStatement (s : Scanner) : s.top.Same s.endStatement.top := by
  rw [top_endStatement]
  exact ⟨rfl, rfl, rfl⟩

/-- The end of a header or of a statement leaves the frame the same. -/
theorem same_endHeaderOrStatement (s : Scanner) : s.top.Same s.endHeaderOrStatement.top := by
  unfold Scanner.endHeaderOrStatement
  split
  · exact same_endStatement s
  · exact ⟨rfl, rfl, rfl⟩

/-- The innermost statement ends with a token that has been taken, if there is one. -/
theorem stop_touch (headed : s.Headed) {o : OpenStatement}
    (h : (s.touch t).top.statement = some o) :
    o.stop = t.stop := by
  obtain ⟨same, header⟩ | ⟨w, -, touched⟩ := touch_cases s t
  · rw [same, headed s.top List.mem_cons_self header] at h
    cases h
  · rw [touched] at h
    cases h
    rfl

/-- Which marks leave a body depends on the innermost one and on the brackets. -/
theorem leaves_congr {r : Scanner} (same : s.top.Same r.top) (brackets : r.brackets = s.brackets) :
    r.leaves m = s.leaves m := by
  unfold leaves atFrameLevel
  rw [same.kind, same.base, brackets]

/-- The innermost body may change before a token is taken. -/
theorem Passage.of_same {r : Scanner} (h : Passage t m r s') (below : r.below = s.below)
    (same : s.top.Same r.top) (brackets : r.brackets = s.brackets) : Passage t m s s' := by
  have marks := leaves_congr (m := m) same brackets
  cases h with
  | stays mark below' same' => exact .stays (marks ▸ mark) (below'.trans below) (same.trans same')
  | enters mark f below' same' full ends line =>
    exact .enters (marks ▸ mark) f (below'.trans (by rw [below])) (same.trans same') full ends line
  | leaves mark f below' same' => exact .leaves (marks ▸ mark) f (below.symm.trans below') same'

/-- The innermost body may change after a token has been taken. -/
theorem Passage.to_same {r : Scanner} (h : Passage t m s r) (below : s'.below = r.below)
    (same : r.top.Same s'.top) : Passage t m s s' := by
  cases h with
  | stays mark below' same' => exact .stays mark (below.trans below') (same'.trans same)
  | enters mark f below' same' full ends line =>
    exact .enters mark f (below.trans below') same' full ends (same.line.trans line)
  | leaves mark f below' same' =>
    exact .leaves mark f (below'.trans (by rw [below])) (same'.trans same)

/-- A token that is added to a statement opens and closes nothing. -/
theorem passage_touch (mark : s.leaves m = false) : Passage t m s (s.touch t) :=
  .stays mark (below_touch s t) (same_touch s t)

/-- A change of the header opens and closes nothing. -/
theorem passage_setHeader (mark : s.leaves m = false) (header : Header) :
    Passage t m s (s.setHeader header) :=
  .stays mark rfl ⟨rfl, rfl, rfl⟩

/-- A bracket is opened. -/
theorem passage_openBracket (mark : s.leaves m = false) (b : Bracket) :
    Passage t m s ((s.touch t).openBracket b t) :=
  .stays mark (below_touch s t) (same_touch s t)

/-- A frame is opened in a frame that is filled. -/
theorem passage_openFrame (headed : s.Headed) (full : s.top.header.isBare = false)
    (mark : s.leaves m = false) (kind : BlockKind) (header : Header) :
    Passage t m s (s.openFrame kind t header) := by
  refine .enters mark (s.touch t).top ?_ (same_touch s t) ?_ (fun o => stop_touch headed) rfl
  · show (s.touch t).top :: (s.touch t).below = _
    rw [below_touch]
  · rw [header_touch, full]

/-- A brace is opened, as a bracket or as a block. -/
theorem passage_openBrace (headed : s.Headed) (full : s.top.header.isBare = false) :
    Passage t (some (.opens (.bracket .brace))) s (s.openBrace t) := by
  unfold Scanner.openBrace
  split
  · refine .enters rfl (s.touch t).top ?_ (same_touch s t) ?_ (fun o => stop_touch headed) rfl
    · show (s.touch t).top :: (s.touch t).below = _
      rw [below_touch]
    · rw [header_touch, full]
  · exact passage_openBracket rfl .brace

/-- The innermost body is left into the one around it. -/
theorem passage_dropFrame (h : s.Open os) (inner : s.top.kind ≠ .program)
    (mark : s.leaves m = true) :
    Passage t m s s.dropFrame := by
  obtain ⟨f, fs, below⟩ := h.exists_outer inner
  unfold Scanner.dropFrame
  rw [below]
  exact .leaves mark f below (.refl f)

/-- The innermost frame is left for the one around it. -/
theorem passage_leave (h : s.Open os) (inner : s.top.kind ≠ .program) (mark : s.leaves m = true) :
    Passage t m s s.endStatement.dropFrame := by
  have left : Passage t m s.endStatement s.endStatement.dropFrame := by
    refine passage_dropFrame h.endStatement ?_ ?_
    · rw [kind_endStatement]
      exact inner
    · rw [leaves_congr (same_endStatement s) (brackets_endStatement s), mark]
  exact left.of_same (below_endStatement s) (same_endStatement s) (brackets_endStatement s)

/-- Each effect of a token opens and closes what its mark says. -/
theorem passage_effect (h : s.Open os) (headed : s.Headed) (effect : Effect t m s s') :
    Passage t m s s' := by
  induction effect with
  | pass s => exact .stays rfl rfl (.refl s.top)
  | touch => exact passage_touch rfl
  | setHeader | readName => exact passage_setHeader rfl _
  | clause s => exact .stays rfl (below_endStatement s) ((same_endStatement s).trans
    ⟨rfl, rfl, rfl⟩)
  | openFrame _ full => exact passage_openFrame headed full rfl _ _
  | openBrace _ full => exact passage_openBrace headed full
  | openBracket _ b => exact passage_openBracket rfl b
  | openParams | closeParams => exact .stays rfl rfl ⟨rfl, rfl, rfl⟩
  | closeFrame s _ _ inner =>
    have left : Passage t (some (.closes .endWord)) s s.endStatement.dropFrame :=
      passage_leave h inner rfl
    exact left.to_same (below_touch _ t) (same_touch _ t)
  | closeBraceBlock s brace level =>
    have mark : s.leaves (some (.closes (.bracket .brace))) = true := by
      simp [leaves, brace, level]
    have left : Passage t (some (.closes (.bracket .brace))) s s.endStatement.dropFrame :=
      passage_leave h (by rw [brace]; nofun) mark
    exact left.to_same (below_touch s.endStatement.dropFrame.dropBracket t)
      (same_touch s.endStatement.dropFrame.dropBracket t)
  | @closeBracket s b line rest inside =>
    -- a brace that is open in a body is not that of the body
    have mark : s.leaves (some (.closes (.bracket b))) = false := by
      have deep : s.top.bracketBase < s.brackets.length := of_decide_eq_true inside
      have level : s.atFrameLevel = false := beq_eq_false_iff_ne.2 (Nat.ne_of_gt deep)
      cases b with
      | brace => simp [leaves, level]
      | paren | square => rfl
    exact .stays mark (below_touch s.dropBracket t) (same_touch s.dropBracket t)
  | @assign s header named ended =>
    have bare := Header.isBare_of_named named
    have left : Passage t (some (.closes .assignment)) s s.dropFrame :=
      passage_dropFrame h (by rw [(h.level_of_bare bare).1]; nofun) rfl
    have same : s.dropFrame.top.Same (s.dropFrame.setHeader header).top := ⟨rfl, rfl, rfl⟩
    exact left.to_same (below_touch (s.dropFrame.setHeader header) t) (same.trans (same_touch _ t))
  | readOn free left _ ih =>
    exact (ih (h.setHeader free) (headed_setHeader headed (.inr (.inl left)))).of_same rfl
      ⟨rfl, rfl, rfl⟩
      rfl

/-- The end of a header or of a statement opens and closes nothing. -/
theorem passage_endHeaderOrStatement (mark : s.leaves m = false) :
    Passage t m s s.endHeaderOrStatement :=
  .stays mark (below_endHeaderOrStatement s) (same_endHeaderOrStatement s)

/-- Every token leaves the bodies as they are, or enters or leaves one, as its mark says. -/
theorem passage_feed (h : s.Open os) (headed : s.Headed) (hs : s.feed t = .ok s') :
    Passage t (s.heeded? t) s s' := by
  have fed := h.fed_of_feed hs
  generalize s.heeded? t = m at fed ⊢
  cases fed with
  | comment | pass => exact .stays rfl rfl (.refl s.top)
  | ends => exact (passage_endHeaderOrStatement rfl).to_same rfl (.refl _)
  | code _ effect => exact (passage_effect h headed effect).to_same rfl (.refl _)

/-! ## An end that leaves a brace behind -/

/-- Only the innermost body may have a bare header: nothing is opened about the name of a method. -/
def Filled (s : Scanner) : Prop := ∀ f ∈ s.below, f.header.isBare = false

/-- A frame is opened only where the header of the innermost one is not bare. -/
theorem filled_feed (h : s.Open os) (headed : s.Headed) (filled : s.Filled)
    (hs : s.feed t = .ok s') :
    s'.Filled := by
  cases passage_feed h headed hs with
  | stays _ below =>
    unfold Filled
    rw [below]
    exact filled
  | enters _ f below _ full =>
    unfold Filled
    rw [below]
    exact List.forall_mem_cons.2 ⟨full, filled⟩
  | leaves _ f below =>
    unfold Filled at filled
    rw [below] at filled
    exact fun g hg => filled g (List.mem_cons_of_mem f hg)

/-- A bracket in a frame that is filled is stacked on it. -/
theorem Stacked.cons_bracket {f : Frame} {fs : List Frame} {bs : List (Bracket × Nat)}
    (h : Stacked (f :: fs) bs os) (full : f.header.isBare = false) (b : Bracket × Nat) :
    Stacked (f :: fs) (b :: bs) (.bracket b.1 :: os) := by
  cases h with
  | body inside under base header => exact .body (b :: inside) under base (header.cons full b)

/-- Where the body of a brace is left and its brace is not, the brace is one more bracket of the
body around. -/
theorem Open.leaveBrace (h : s.Open os) (filled : s.Filled) (level : s.inBracket = false)
    (brace : s.top.kind = .braceBlock) : s.dropFrame.Open os := by
  obtain ⟨line, rest, os', hbrackets, rfl, outer⟩ :=
    (brace ▸ h.under_of_level level : Under .braceBlock _ _ _).exists_brace
  unfold Open
  rw [open_dropFrame outer, brackets_dropFrame, hbrackets]
  unfold Filled at filled
  cases below : s.below with
  | nil =>
    rw [below] at outer
    cases outer
  | cons f fs =>
    rw [below] at outer filled
    exact outer.cons_bracket (filled f List.mem_cons_self) (.brace, line)

/-- What an `end` does where the innermost body is that of a brace. -/
theorem open_effect_endWord (effect : Effect t m s s') (mark : m = some (.closes .endWord))
    (h : s.Open os) (filled : s.Filled) (brace : s.top.kind = .braceBlock) : s'.Open os := by
  induction effect with
  | closeFrame s _ level =>
    rw [← inBracket_endStatement] at level
    rw [← kind_endStatement] at brace
    have around : s.endStatement.Filled := by
      unfold Filled
      rw [below_endStatement]
      exact filled
    exact (h.endStatement.leaveBrace around level brace).touch t
  | readOn free _ _ ih => exact ih mark (h.setHeader free) filled brace
  | _ => cases mark

/-- An `end` that leaves the body of a brace leaves the stack as it is. -/
theorem open_endsBraces (h : s.Open os) (filled : s.Filled) (ends : s.EndsBraces t)
    (hs : s.feed t = .ok s') : s'.Open os := by
  have fed := h.fed_of_feed hs
  rw [heeded?_of_endsBraces h ends] at fed
  cases fed with
  | code _ effect =>
    exact (open_effect_endWord effect rfl h filled ends.2).congr rfl rfl rfl rfl rfl

/-- The brackets of a scanner fall into stretches above its bodies, whatever token is taken. -/
theorem open_feed (h : s.Open os) (filled : s.Filled) (hs : s.feed t = .ok s') :
    ∃ os', s'.Open os' := by
  by_cases ends : s.EndsBraces t
  · exact ⟨os, open_endsBraces h filled ends hs⟩
  · obtain ⟨os', -, opened⟩ := follows_feed h ends hs
    exact ⟨os', opened⟩

/-! ## The openers of the bodies -/

/-- The openers of the bodies behind a token: it is put on top if it adds a body, and where a body
is gone, its opener is gone, too. -/
def openersAfter (s s' : Scanner) (t : Token) (opened : List Token) : List Token :=
  if s.below.length < s'.below.length then t :: opened
  else if s'.below.length < s.below.length then opened.tail
  else opened

/-- The tokens that have opened the bodies of a scanner, innermost first, when some tokens have been
taken. -/
def openers (s : Scanner) (opened : List Token) : List Token → List Token
  | [] => opened
  | t :: ts =>
    match s.feed t with
    | .ok s' => openers s' (s.openersAfter s' t opened) ts
    | .error _ => opened

/-- Every body but the outermost one starts on the line of its opener, and the open statement of the
body around it ends with its opener. -/
inductive OpenedBy : List Frame → List Token → Prop where
  | root (f : Frame) : OpenedBy [f] []
  | inner {f g : Frame} {fs : List Frame} {t : Token} {ts : List Token} (line : f.line = t.line)
      (ends : ∀ o, g.statement = some o → o.stop = t.stop) (outer : OpenedBy (g :: fs) ts) :
      OpenedBy (f :: g :: fs) (t :: ts)

/-- A frame that is the same was opened by the same token. -/
theorem OpenedBy.of_same {f g : Frame} {fs : List Frame} {ts : List Token}
    (h : OpenedBy (f :: fs) ts) (same : f.Same g) : OpenedBy (g :: fs) ts := by
  cases h with
  | root => exact .root g
  | inner line ends outer => exact .inner (same.line.trans line) ends outer

/-! ## All tokens -/

/-- What every token keeps, where some tokens have opened the bodies. -/
structure Kept (s : Scanner) (opened : List Token) : Prop where
  stacked : ∃ os, s.Open os
  headed : s.Headed
  filled : s.Filled
  opened : OpenedBy (s.top :: s.below) opened

theorem kept_start : ({} : Scanner).Kept [] where
  stacked := ⟨[], open_start⟩
  headed := headed_start
  filled := nofun
  opened := .root _

/-- A token leaves what is open with what opened it. -/
theorem kept_feed {opened : List Token} (h : s.Kept opened) (hs : s.feed t = .ok s') :
    s'.Kept (s.openersAfter s' t opened) := by
  obtain ⟨os, stacked⟩ := h.stacked
  refine ⟨open_feed stacked h.filled hs, headed_feed h.headed hs,
    filled_feed stacked h.headed h.filled hs, ?_⟩
  have before := h.opened
  -- a token changes the number of bodies by one at most, so the number tells what it has done to
  -- them
  unfold openersAfter
  cases passage_feed stacked h.headed hs with
  | stays _ below same =>
    rw [below, if_neg (Nat.lt_irrefl _), if_neg (Nat.lt_irrefl _)]
    exact before.of_same same
  | enters _ f below same _ ends line =>
    have deeper : s.below.length < s'.below.length := by rw [below]; exact Nat.lt_succ_self _
    rw [if_pos deeper, below]
    exact .inner line ends (before.of_same same)
  | leaves _ f below same =>
    have shallower : s'.below.length < s.below.length := by rw [below]; exact Nat.lt_succ_self _
    rw [if_neg (Nat.lt_asymm shallower), if_pos shallower]
    rw [below] at before
    cases before with
    | inner _ _ outer => exact outer.of_same same

/-- Tokens leave what is open with what opened it. -/
theorem kept_foldlM {opened ts : List Token} (h : s.Kept opened) (fed : ts.foldlM feed s = .ok s') :
    s'.Kept (openers s opened ts) := by
  induction ts generalizing s opened with
  | nil =>
    cases fed
    exact h
  | cons t ts ih =>
    obtain ⟨r, hr, fed⟩ := foldlM_cons_eq_ok.1 fed
    rw [openers, hr]
    exact ih (kept_feed h hr) fed

/-- What holds of a scanner between two tokens, where some tokens have opened its bodies. -/
structure Framed (s : Scanner) (opened : List Token) : Prop where
  /-- The outermost body is that of the program, where no bracket is open yet. -/
  root : ∃ inner root, s.top :: s.below = inner ++ [root] ∧ root.kind = .program ∧
    root.bracketBase = 0 ∧
    ∀ f ∈ inner, f.kind ≠ .program
  /-- No token leaves the outermost body: what leaves a body does so into another one. -/
  stays : ∀ t s', s.feed t = .ok s' →
    if s.leaves (s.heeded? t) then ∃ f, s.below = f :: s'.below else s.below <:+ s'.below
  bases : (s.brackets.length :: (s.top :: s.below).map Frame.bracketBase).Pairwise (· ≥ ·)
  headed : ∀ f ∈ s.top :: s.below, f.header ≠ .body → f.statement = none
  method : ∀ f ∈ s.top :: s.below, f.header.isMethod → f.kind = .methodDef
  params : ∀ f ∈ s.top :: s.below, ∀ depth, f.header = .params depth → depth ≤ s.brackets.length
  opened : OpenedBy (s.top :: s.below) opened

/-- What is open with what opened it is framed. -/
theorem Kept.framed {opened : List Token} (h : s.Kept opened) : s.Framed opened := by
  obtain ⟨os, stacked⟩ := h.stacked
  have headers := Stacked.headers stacked
  refine ⟨stacked.exists_root, fun t s' hs => ?_, stacked.bases, h.headed, fun f hf =>
    (headers f hf).1, fun f hf => (headers f hf).2, h.opened⟩
  cases passage_feed stacked h.headed hs with
  | stays mark below =>
    rw [mark, below]
    exact List.suffix_rfl
  | enters mark f below =>
    rw [mark, below]
    exact List.suffix_cons f s.below
  | leaves mark f below =>
    rw [mark]
    exact ⟨f, below⟩

/-- Whatever tokens a scanner has taken without a refusal, those of a program in particular, its
bodies are in order. -/
theorem framed_foldlM {ts : List Token} (fed : ts.foldlM feed {} = .ok s) :
    s.Framed (openers {} [] ts) := (kept_foldlM kept_start fed).framed

open Tokenizer in
/-- In the parentheses of a method, in a list, in a block. -/
theorem framed_foldlM_nested :
    let source := "g do\n x = [1, def f(a\n".toList
    ∃ (ts : List Token) (s : Scanner), ts <+: (tokenize source).tokens ∧ ts.foldlM feed {} = .ok s ∧
      (s.top :: s.below).map Frame.kind = [.methodDef, .doBlock, .program] ∧
      (openers {} [] ts).map Token.text = ["def".toList, "do".toList] ∧
      s.Framed (openers {} [] ts) := by
  intro source
  have checked : ∃ t ∈ runFor 60 (.ofSource source),
    ∃ s ∈ ((t.tokens.take 11).foldlM feed {}).toOption,
      (s.top :: s.below).map Frame.kind = [.methodDef, .doBlock, .program] ∧
      (openers {} [] (t.tokens.take 11)).map Token.text = ["def".toList, "do".toList] := by
    decide +kernel
  obtain ⟨t, ht, s, hs, kinds, words⟩ := checked
  have fed := eq_ok_of_toOption hs
  refine ⟨t.tokens.take 11, s, ?_, fed, kinds, words, framed_foldlM fed⟩
  rw [tokenize, run_eq_of_runFor ht]
  exact List.take_prefix 11 _

end Scanner

end Marginalia.Source
