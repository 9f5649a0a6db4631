import Marginalia.Proofs.Source.After
import Marginalia.Proofs.Source.Commented

/-!
# Code that is read alike

Code at the end of a line is read alike whatever blanks and comment follow it (`Firm`), unless it is
one of the few signs that ask for what follows. Where the code of every line that differs is firm,
the walks over two programs with other margins go side by side to the end of the first
(`exists_woven`), and the tokens that they find are the same to the scanner but for the comments
(`commented_alike`).
-/

namespace Marginalia.Source

/-! ## Firm code -/

/-- A text of blanks that end a word and stay on their line. -/
def White (u : Text) : Prop := ∀ c ∈ u, c = ' ' ∨ c = '\t' ∨ c = '\r'

instance (u : Text) : Decidable (White u) :=
  inferInstanceAs (Decidable (∀ c ∈ u, c = ' ' ∨ c = '\t' ∨ c = '\r'))

theorem White.blanks {u : Text} (h : White u) : Blanks u := fun c hc => by
  rcases h c hc with rfl | rfl | rfl <;> decide

/-- Behind white space a line goes on as at a word's end. -/
theorem White.wordEnds {u : Text} (h : White u) (a : Text) : wordEnds (u ++ '\n' :: a) := by
  cases u with
  | nil => rfl
  | cons c u => rcases h c List.mem_cons_self with rfl | rfl | rfl <;> rfl

/-- A brace whose parameters go on below its line. -/
def opensParams : Text → Bool
  | c :: x => c == '\x7b' && (behindParams x).isNone
  | [] => false

namespace Tokenizer

/-- The code ahead on the line is read alike whatever blanks and comment follow it. -/
structure Firm (s : Tokenizer) : Prop where
  /-- It does not wait for what follows. -/
  hinge : Lexeme.hinges s.memory s.codeAhead = false
  /-- It does not join the next line. -/
  join : s.codeAhead ≠ ['\\']
  /-- It does not end the program. -/
  mark : s.cursor.atLineStart → s.codeAhead ≠ "__END__".toList
  params : opensParams s.codeAhead = false

instance (s : Tokenizer) : Decidable s.Firm :=
  decidable_of_iff (Lexeme.hinges s.memory s.codeAhead = false ∧ s.codeAhead ≠ ['\\'] ∧
      (s.cursor.atLineStart → s.codeAhead ≠ "__END__".toList) ∧ opensParams s.codeAhead = false)
    ⟨fun ⟨hinge, join, mark, params⟩ => ⟨hinge, join, mark, params⟩,
      fun h => ⟨h.hinge, h.join, h.mark, h.params⟩⟩

variable {m : Margins} {s₀ t₀ s t : Tokenizer} {y p q : Text} {f g found : List Finding}

/-- The blanks of both margins end a word. -/
def Whitened (m : Margins) : Prop := ∀ u w, m.ends u w → White u ∧ White w

/-- What follows the last code of a line that differs. -/
theorem ends_of_line (whitened : Whitened m) (stretch : m.Stretch s.cursor.line y p q) (hy : y ≠ [])
    (line : '\n' ∉ y) : ∃ u a, p = u ++ '\n' :: a ∧ White u ∧ m.differs s.cursor.line ∧
      Stops p ∧ Stops q ∧ wordEnds p ∧ wordEnds q := by
  have split := stretch.split
  rw [Text.lineFeeds_eq_zero line, Nat.add_zero] at split
  have closed := stretch.closed
  obtain ⟨none, -⟩ | ⟨_, _, -, -, -, -, stops, stops'⟩ := split.joint
  · rcases closed none with h | h
    · exact absurd h hy
    · exact absurd (List.mem_of_getLast? h) line
  · generalize hn : s.cursor.line = n at split
    cases split with
    | ended => exact absurd (closed rfl) (by
        rintro (h | h)
        · exact hy h
        · exact line (List.mem_of_getLast? h))
    | @line _ u w z p q differs ends apart =>
      obtain ⟨hu, hw⟩ := whitened u w ends
      refine ⟨u, z ++ p, rfl, hu, differs, stops, stops', hu.wordEnds _, ?_⟩
      cases hc : m.comment n with
      | none => exact hw.wordEnds _
      | some c =>
        -- the comment stands behind a blank
        obtain ⟨d, w, rfl⟩ := List.exists_cons_of_ne_nil (apart (by rw [hc]; rfl))
        rcases hw d List.mem_cons_self with rfl | rfl | rfl <;> rfl

/-- Code that is no backslash joins no line to its own. -/
theorem not_join_of_firm (hy : y ≠ []) (line : '\n' ∉ y)
    (visible : ∀ c, y.getLast? = some c → Text.isAsciiBlank c = false ∨ c = '\n')
    (firm : y ≠ ['\\']) {w : Text} (hw : w = ['\\'] ∨ w = ['\\', '\r']) :
    ¬ w ++ ['\n'] <+: y ++ q := by
  intro joins
  -- the line feed of the join stands behind the code
  have within : y <+: w := by
    rcases List.prefix_or_prefix_of_prefix (List.prefix_append y q)
      ((List.prefix_append w _).trans joins)
      with short | long
    · exact short
    · obtain ⟨z, rfl⟩ := long
      rw [List.append_assoc, List.prefix_append_right_inj] at joins
      cases z with
      | nil => rw [List.append_nil]
      | cons d z =>
        obtain ⟨r, hr⟩ := joins
        have first : '\n' = d := (List.cons.inj hr).1
        exact absurd (List.mem_append_right w (first ▸ List.mem_cons_self)) line
  have last (c : Char) (h : y.getLast? = some c) : c ≠ '\r' := by
    rintro rfl
    rcases visible _ h with blank | lineFeed
    · exact absurd blank (by decide)
    · exact absurd lineFeed (by decide)
  rcases hw with rfl | rfl
  · obtain none | ⟨z, rfl, h⟩ := List.prefix_cons_iff.1 within
    · exact hy none
    · exact firm (by rw [List.prefix_nil.1 h])
  · obtain none | ⟨z, rfl, h⟩ := List.prefix_cons_iff.1 within
    · exact hy none
    · obtain rfl | ⟨x, rfl, h'⟩ := List.prefix_cons_iff.1 h
      · exact firm rfl
      · rw [List.prefix_nil.1 h'] at last
        exact last '\r' rfl rfl

/-- Where the code ahead is firm on each line that differs, it is clear of what follows it. -/
theorem clear_of_firm (whitened : Whitened m) (left : s.cursor.rest = y ++ p)
    (stretch : m.Stretch s.cursor.line y p q) (hy : y ≠ []) (line : '\n' ∉ y)
    (firm : m.differs s.cursor.line → s.Firm) : s.Clear y p q := by
  obtain ⟨u, a, hp, hu, differs, stops, stops', ends, ends'⟩ :=
    ends_of_line whitened stretch hy line
  have firm := firm differs
  rw [hp] at left
  have ahead : s.codeAhead = y := codeAhead_eq left line stretch.visible hu.blanks
  refine ⟨ahead ▸ firm.hinge, begins_append stops stops' (ends'.trans ends.symm), fun start mark =>
    mark_append stops stops' (ahead ▸ firm.mark start) mark, fun w hw joins => ?_⟩
  refine absurd (List.isPrefixOf_iff_prefix.1 joins)
    (not_join_of_firm hy line stretch.visible (ahead ▸ firm.join) ?_)
  rcases List.mem_cons.1 hw with rfl | hw
  · exact .inl rfl
  · exact .inr (List.mem_singleton.1 hw)

/-! ## Walks side by side -/

section Walk

variable (whole : s₀.Whole) (fits : Fits m s₀) (whitened : Whitened m) (start : Along m s₀ t₀)
  (firm : ∀ s, Reaches s₀ s → m.differs s.cursor.line → s.Firm)

include whole fits whitened start firm

/-- The walk over the second program keeps to that over the first. -/
theorem exists_woven (reach : Reaches s₀ s) :
    ∃ f g t, Finds s₀ f s ∧ Finds t₀ g t ∧ Along m s t ∧ Woven m f g := by
  refine (woven_of_reaches whole fits start reach).resolve_right ?_
  rintro @⟨f, g, found, s, t, u, y, p, q, first, second, woven, goes, twin, stretch, hy, line,
    unclear⟩
  exact unclear (clear_of_firm whitened twin.cursor.left stretch hy line (firm s first.reaches))

end Walk

/-! ## Tokens side by side -/

section Tokens

variable {source : Text} {xs : List Text} {k l : Token}

/-- A text that ends with its lines has as many of them at its end as there are line feeds. -/
theorem eq_drop_of_suffix {t u : Text} (closed : u.Closed) (h : Text.pieces t <:+ Text.pieces u) :
    Text.pieces t = (Text.pieces u).drop ((Text.pieces u).length - Text.lineFeeds t) := by
  have finished : t.Closed := by
    obtain ⟨w, hw⟩ := h
    refine closed.of_suffix ⟨w.flatten, ?_⟩
    rw [← Text.flatten_pieces t, ← List.flatten_append, hw, Text.flatten_pieces]
  rw [finished.lineFeeds_eq]
  exact List.suffix_iff_eq_drop.1 h

/-- Behind the end of a line both programs go on with a call, or neither does. -/
theorem leadingDot_of_beside (closed : source.Closed) (lines : m.Lines 1 (Text.pieces source) xs)
    (below : m.below.Closed) (below' : m.below = [] ∨ ∃ r, m.below = '\n' :: r)
    (quiet : m.Quiet 1 (Text.pieces source)) (hk : Text.pieces k.after <:+ Text.pieces source)
    (hl : Text.pieces l.after <:+ Text.pieces (xs.flatten ++ m.below)) (beside : Beside m k l) :
    leadingDot false l.after = leadingDot false k.after := by
  obtain ⟨n, p, q, split, twin⟩ := beside
  obtain ⟨y, left, right⟩ := twin.after
  have count : Text.lineFeeds l.after = Text.lineFeeds k.after + (Text.pieces m.below).length := by
    rw [left, right, Text.lineFeeds_append, Text.lineFeeds_append, split.lineFeeds_eq,
      below.lineFeeds_eq, Nat.add_assoc]
  have finished : Text.Closed (xs.flatten ++ m.below) :=
    (Text.closed_flatten fun x hx => (lines.isLine x hx).closed).append below
  have hk := eq_drop_of_suffix closed hk
  have hl := eq_drop_of_suffix finished hl
  generalize first : (Text.pieces source).length - Text.lineFeeds k.after = i at hk
  -- both go on from the same line
  have same : (Text.pieces (xs.flatten ++ m.below)).length - Text.lineFeeds l.after = i := by
    rw [Text.pieces_append lines.isLine, List.length_append, lines.length_eq, count, ← first]
    omega
  have within : i ≤ xs.length := by
    rw [lines.length_eq, ← first]
    exact Nat.sub_le _ _
  rw [same, Text.pieces_append lines.isLine, List.drop_append_of_le_length within] at hl
  rw [← Text.flatten_pieces l.after, hl, ← Text.flatten_pieces k.after, hk, List.flatten_append,
    Text.flatten_pieces]
  exact lines.leadingDot below' quiet i

/-- The body of a brace stands below it in both programs, or in neither. -/
theorem bodyBelow_of_beside (whole : (Tokenizer.ofSource source).Whole)
    (last : m.last = 1 + Text.lineFeeds source) (below : m.below = [] ∨ ∃ r, m.below = '\n' :: r)
    (firm : ∀ s, Reaches (.ofSource source) s → m.differs s.cursor.line → s.Firm)
    (hk : k ∈ (tokenize source).tokens) (brace : k.isPunct leftBrace) (beside : Beside m k l) :
    bodyBelow l.after = bodyBelow k.after := by
  obtain ⟨n, p, q, split, twin⟩ := beside
  obtain ⟨y, left, right⟩ := twin.after
  have punct := Scanner.kind_of_isPunct brace
  obtain ⟨r, reach, rest, -⟩ :=
    exists_reaches_of_token hk (by rw [punct]; nofun) (by rw [punct]; nofun)
  have text : k.text = ['\x7b'] := beq_iff_eq.1 (Bool.and_eq_true_iff.1 brace).2
  rw [text] at rest
  rw [left, right]
  by_cases line : '\n' ∈ y
  · rw [bodyBelow_append line, bodyBelow_append line]
  have here := whole.line_eq reach
  have finished := whole.closed_of_reaches reach
  rw [rest, left] at here finished
  have count : Text.lineFeeds (['\x7b'] ++ (y ++ p)) = Text.lineFeeds p := by
    rw [Text.lineFeeds_append, Text.lineFeeds_append, Text.lineFeeds_eq_zero line, Nat.zero_add]
    exact Nat.zero_add _
  rw [count] at here
  have place : r.cursor.line = n := by
    have total := split.last_eq
    rw [last] at total
    exact Nat.add_right_cancel (here.trans total.symm)
  cases split with
  | ended =>
    -- nothing follows the brace
    rw [List.append_nil] at finished
    have empty : y = [] := by
      refine (finished.of_suffix (List.suffix_append ['\x7b'] y)).resolve_right fun h => ?_
      exact line (List.mem_of_getLast? h)
    rw [empty]
    rcases below with below | ⟨r, below⟩
    · rw [below]
    · rw [below]
      rfl
  | @line n u w z p q differs ends =>
    obtain ⟨hu, hw⟩ := m.blanks u w ends
    have ahead : r.codeAhead = '\x7b' :: Text.dropEndWhile Text.isAsciiBlank y := by
      have noLineFeed : '\n' ∉ '\x7b' :: y ++ u := by
        rw [List.mem_append, not_or]
        exact ⟨List.not_mem_cons_of_ne_of_not_mem (by decide) line, hu.notMem (.inr rfl)⟩
      have rest : r.cursor.rest = ('\x7b' :: y ++ u) ++ '\n' :: (z ++ p) := by
        rw [rest, left, List.append_assoc, List.cons_append]
        rfl
      unfold codeAhead
      rw [rest, takeWhile_line noLineFeed,
        Text.dropEndWhile_append_of_all _ (List.all_eq_true.2 fun c hc => (hu c hc).1)]
      exact Text.dropEndWhile_cons_of_neg rfl y
    have params := (firm r reach (place ▸ differs)).params
    rw [ahead, opensParams, beq_self_eq_true, Bool.true_and, Option.isNone_eq_false_iff] at params
    refine bodyBelow_comment line hu hw ?_ params
    cases hc : m.comment n with
    | none => exact .inl rfl
    | some c => exact .inr (m.isComment n c hc)

end Tokens

end Tokenizer

end Marginalia.Source
