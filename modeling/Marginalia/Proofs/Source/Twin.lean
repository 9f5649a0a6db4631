import Mathlib.Data.List.Forall2
import Marginalia.Proofs.Source.Literal
import Marginalia.Proofs.Source.Sealed

/-!
# Two walks side by side

Two programs agree up to a place and differ behind it: `p` follows in the one, `q` in the other.
While both walks stay before that place they take the same steps (`follows_step`), if neither `p`
nor `q` starts with anything but a blank and if the code before the place is none of the few kinds
that look further. If the place is the start of a line, then no code before it looks further, and
`p` and `q` may be anything (`follows_of_closed`).
-/

namespace Marginalia.Source

variable {y p q : Text}

/-! ## Places -/

/-- What may follow a text in two programs: anything, if the text ends with its lines. Otherwise
blanks follow in both, and if the one ends there, the other does. -/
def Seam (y p q : Text) : Prop := y.Closed ∨ Stops p ∧ Stops q ∧ (p = [] → q = [])

namespace Seam

/-- What is read of the same text leaves a seam as it was. -/
theorem of_suffix {z : Text} (h : Seam y p q) (hz : z <:+ y) : Seam z p q :=
  h.imp_left (·.of_suffix hz)

/-- Where a line is not finished, blanks follow in both programs. -/
theorem stops (h : Seam y p q) (hy : y ≠ []) (line : '\n' ∉ y) : Stops p ∧ Stops q :=
  h.elim (fun closed => absurd (closed.mem_of_ne_nil hy) line) fun h => ⟨h.1, h.2.1⟩

/-- The one program goes on or ends with its lines, or nothing is different. -/
theorem closed_or_eq (h : Seam y p q) : (p = [] → y.Closed) ∨ q = p := by
  rcases h with closed | ⟨-, -, ended⟩
  · exact .inl fun _ => closed
  · by_cases hp : p = []
    · exact .inr ((ended hp).trans hp.symm)
    · exact .inl fun none => absurd none hp

/-- Where a line is not finished and the one program ends there, nothing is different. -/
theorem eq_of_nil (h : Seam y p q) (hy : y ≠ []) (line : '\n' ∉ y) (hp : p = []) : q = p :=
  h.closed_or_eq.resolve_left fun closed => line ((closed hp).mem_of_ne_nil hy)

end Seam

/-- Two places with the same text `y` ahead, behind which `p` and `q` follow. -/
structure Cursor.Twin (y p q : Text) (c d : Cursor) : Prop where
  left : c.rest = y ++ p
  right : d.rest = y ++ q
  line : d.line = c.line
  lineStart : d.atLineStart = c.atLineStart
  seam : Seam y p q

namespace Cursor

/-- Twins that pass the same text are twins behind it. -/
theorem Twin.advance {n : Nat} {c d : Cursor} (h : c.Twin y p q d) (hn : n ≤ y.length) :
    (c.advance n).Twin (y.drop n) p q (d.advance n) := by
  induction n generalizing y c d with
  | zero => exact h
  | succ n ih =>
    cases y with
    | nil => cases hn
    | cons x y =>
      have hc : c.rest = x :: (y ++ p) := h.left
      have hd : d.rest = x :: (y ++ q) := h.right
      unfold Cursor.advance
      rw [hc, hd, List.drop_succ_cons]
      refine ih ⟨rfl, rfl, ?_, rfl, h.seam.of_suffix (List.suffix_cons x y)⟩
        (Nat.le_of_succ_le_succ hn)
      dsimp only
      rw [h.line]

/-- Twins may both be put on another line. -/
theorem Twin.withLine {c d : Cursor} (h : c.Twin y p q d) (line : Nat) :
    Cursor.Twin y p q { c with line := line } { d with line := line } :=
  ⟨h.left, h.right, rfl, h.lineStart, h.seam⟩

/-- Twins that pass the same text come as far. -/
theorem Twin.position_advance {n : Nat} {c d : Cursor} (h : c.Twin y p q d) (hn : n ≤ y.length) :
    (c.advance n).position = c.position + n ∧ (d.advance n).position = d.position + n := by
  constructor
  · refine Tokenizer.advance_position n c ?_
    rw [h.left, List.length_append]
    omega
  · refine Tokenizer.advance_position n d ?_
    rw [h.right, List.length_append]
    omega

end Cursor

/-! ## Literals -/

/-- Two literals that are read alike, and have the same text so far, as seen from two places. -/
structure OpenLiteral.Twin (c d : Cursor) (l k : OpenLiteral) : Prop where
  same : k = { l with source := k.source, start := k.start }
  text : ∃ w, l.source = w ++ c.rest ∧ k.source = w ++ d.rest ∧ l.start + w.length = c.position ∧
    k.start + w.length = d.position
  close : Text.isAsciiBlank l.delimiters.close = false

/-- An open literal stays the twin of another while both cursors pass the same text. -/
theorem OpenLiteral.Twin.advance {n : Nat} {c d : Cursor} {l k : OpenLiteral} (hcd : c.Twin y p q d)
    (hn : n ≤ y.length) (h : l.Twin c d k) : l.Twin (c.advance n) (d.advance n) k := by
  obtain ⟨w, hl, hk, hpl, hpk⟩ := h.text
  obtain ⟨hc, hd⟩ := hcd.position_advance hn
  refine ⟨h.same, ⟨w ++ y.take n, ?_, ?_, ?_, ?_⟩, h.close⟩
  · rw [hl, hcd.left, (hcd.advance hn).left, List.append_assoc, ← List.append_assoc (y.take n),
      List.take_append_drop]
  · rw [hk, hcd.right, (hcd.advance hn).right, List.append_assoc, ← List.append_assoc (y.take n),
      List.take_append_drop]
  · rw [hc, List.length_append, List.length_take]
    omega
  · rw [hd, List.length_append, List.length_take]
    omega

/-- Twins of open literals have taken the same text. -/
theorem OpenLiteral.Twin.take {c d : Cursor} {l k : OpenLiteral} (h : l.Twin c d k) :
    k.source.take (d.position - k.start) = l.source.take (c.position - l.start) := by
  obtain ⟨w, hl, hk, hpl, hpk⟩ := h.text
  rw [hl, hk, show c.position - l.start = w.length from by omega,
    show d.position - k.start = w.length from by omega, List.take_left, List.take_left]

/-- Of what follows the text that two places share, at the first place all but `keep` characters are
blanks of its line. -/
structure Joint (keep : Nat) (p : Text) : Prop where
  ended : keep = 0 → p = []
  blanks : ∃ u a, p = u ++ a ∧ a.length = keep ∧ ∀ c ∈ u, Text.isAsciiBlank c ∧ c ≠ '\n'

/-- All of what follows is kept. -/
theorem joint_length (p : Text) : Joint p.length p :=
  ⟨List.eq_nil_of_length_eq_zero, [], p, rfl, rfl, nofun⟩

/-- What ends with a character that is no blank, or with a line, ends before the blanks. -/
theorem Joint.within {keep n : Nat} {c : Char} (h : Joint keep p) (hc : (y ++ p)[n - 1]? = some c)
    (visible : Text.isAsciiBlank c = false ∨ c = '\n') (hkeep : keep ≤ (y ++ p).length - n) :
    n ≤ y.length := by
  obtain ⟨u, a, hp, rfl, hu⟩ := h.blanks
  refine Nat.le_of_not_lt fun hlt => ?_
  have length := congrArg List.length hp
  rw [List.length_append] at length hkeep
  have hlast := (List.getElem?_eq_some_iff.1 hc).1
  rw [List.length_append] at hlast
  rw [List.getElem?_append_right (by omega), hp, List.getElem?_append_left (by omega)] at hc
  obtain ⟨blank, noLine⟩ := hu c (List.mem_of_getElem? hc)
  rcases visible with visible | line
  · rw [visible] at blank
    cases blank
  · exact noLine line

/-! ## Lexemes -/

/-- The rest of a line and what follows it, where the line ends within a text. -/
theorem exists_append_of_mem {y : Text} (h : '\n' ∈ y) :
    ∃ x z : Text, y = x ++ '\n' :: z ∧ '\n' ∉ x := by
  obtain ⟨x, s, rfl, hx, rfl | ⟨z, rfl⟩⟩ := Tokenizer.exists_line y
  · rw [List.append_nil] at h
    exact absurd h hx
  · exact ⟨x, z, rfl, hx⟩

section Lexemes

variable {m : Memory} {spaced : Bool} {c : Char} {x : Text}

/-- The same lexeme starts at two places, and it ends before they differ, unless it is refused or
goes on to a quote behind the code of its line. -/
theorem Seam.read (seam : Seam (c :: x) p q) (unnamed : m.namesMethod = false)
    (code : Text.isAsciiBlank c = false ∨ c = '\n')
    (line : '\n' ∉ c :: x → p ≠ [] → Lexeme.hinges m (c :: x) = false ∧ c ≠ '#') :
    Lexeme.read m spaced c (x ++ p) = .brokenHeredoc ∨
      (Lexeme.read m spaced c (x ++ q) = Lexeme.read m spaced c (x ++ p) ∧
        (Lexeme.read m spaced c (x ++ p)).more ≤ x.length) ∨
      ∃ more id indented, Lexeme.read m spaced c (x ++ p) = .heredoc more id indented ∧
        x.length < more ∧
        ∃ d, (c :: (x ++ p))[more]? = some d ∧ Text.isAsciiBlank d = false := by
  by_cases hc : c = '\n'
  · subst hc
    exact .inr (.inl ⟨rfl, Nat.zero_le _⟩)
  have code := code.resolve_right hc
  by_cases hx : '\n' ∈ x
  · -- the line ends before the places differ
    right
    left
    obtain ⟨y, z, rfl, hy⟩ := exists_append_of_mem hx
    rw [List.append_assoc, List.append_assoc, List.cons_append, List.cons_append]
    by_cases comment : c = '#'
    · subst comment
      have same : ∀ u : Text, Lexeme.read m spaced '#' (y ++ '\n' :: u) =
          .token .comment (run (· != '\n') y) := fun u => by
        show Lexeme.token .comment (run (· != '\n') (y ++ '\n' :: u)) = _
        rw [run_append y rfl]
      rw [same, same]
      refine ⟨rfl, Nat.le_trans (run_le _ y) ?_⟩
      rw [List.length_append]
      omega
    · have same : ∀ u v : Text, Lexeme.read m spaced c (y ++ '\n' :: u) =
          Lexeme.read m spaced c (y ++ '\n' :: v) := fun u v =>
        Lexeme.read_append code comment hy unnamed (.of_endLine _ u v)
      refine ⟨same _ _, ?_⟩
      have le := Lexeme.read_more_le m spaced c (y ++ ['\n'])
      rw [same [] (z ++ p), List.length_append, List.length_singleton] at le
      rw [List.length_append, List.length_cons]
      omega
  · have noLine : '\n' ∉ c :: x := by
      rw [List.mem_cons, not_or]
      exact ⟨Ne.symm hc, hx⟩
    obtain ⟨left, right⟩ := seam.stops (List.cons_ne_nil c x) noLine
    by_cases hp : p = []
    · -- nothing follows at either place
      rw [seam.eq_of_nil (List.cons_ne_nil c x) noLine hp, hp, List.append_nil]
      exact .inr (.inl ⟨rfl, Lexeme.read_more_le m spaced c x⟩)
    -- the line reaches up to the seam: no hinge is on it, and a here-document may be open
    have hinge := line noLine hp
    cases hopen : Lexeme.opensHeredoc m spaced (c :: x) with
    | true => exact (Lexeme.read_of_openHeredoc hopen hx left).imp_right .inr
    | false =>
      right
      left
      have none : (Lexeme.hinges m (c :: x) || Lexeme.opensHeredoc m spaced (c :: x)) = false := by
        rw [hinge.1, hopen]
        rfl
      have le := Lexeme.read_more_le m spaced c (x ++ [])
      rw [Lexeme.read_append code hinge.2 hx unnamed ⟨stops_nil, left, .inl none⟩,
        List.append_nil] at le
      exact ⟨Lexeme.read_append code hinge.2 hx unnamed ⟨right, left, .inl none⟩, le⟩

/-- The name of a method is the same on both sides of a seam, and ends before it. -/
theorem Seam.methodName? (seam : Seam (c :: x) p q)
    (line : '\n' ∉ c :: x → p ≠ [] → (isNameStart c && Lexeme.openSetter x) = false) :
    Lexeme.methodName? c (x ++ q) = Lexeme.methodName? c (x ++ p) ∧
      ∀ kind n pending, Lexeme.methodName? c (x ++ p) = some (kind, n, pending) → n ≤ x.length := by
  by_cases hc : c = '\n'
  · subst hc
    rw [Lexeme.methodName?_lineFeed, Lexeme.methodName?_lineFeed]
    exact ⟨rfl, nofun⟩
  by_cases hx : '\n' ∈ x
  · obtain ⟨y, z, rfl, hy⟩ := exists_append_of_mem hx
    rw [List.append_assoc, List.append_assoc, List.cons_append, List.cons_append]
    refine ⟨Lexeme.methodName?_append (.of_endLine _ _ _), fun kind n pending h => ?_⟩
    refine Nat.le_trans (Lexeme.methodName?_within (stops_cons (by decide) _) h) ?_
    rw [List.length_append]
    omega
  · have noLine : '\n' ∉ c :: x := by
      rw [List.mem_cons, not_or]
      exact ⟨Ne.symm hc, hx⟩
    obtain ⟨left, right⟩ := seam.stops (List.cons_ne_nil c x) noLine
    refine ⟨?_, fun kind n pending h => Lexeme.methodName?_within left h⟩
    by_cases hp : p = []
    · rw [seam.eq_of_nil (List.cons_ne_nil c x) noLine hp]
    · exact Lexeme.methodName?_append ⟨right, left, .inl (line noLine hp)⟩

end Lexemes

/-- A literal that stops within the text that two places share is read alike at both. Where anything
may follow, its line has not ended. -/
theorem Seam.read_literal (seam : Seam y p q) {d : Delimiters} {depth n : Nat} {inClass : Bool}
    (hclose : Text.isAsciiBlank d.close = false)
    (hn : (d.read depth inClass (y ++ p)).length? = some n) (within : n ≤ y.length) :
    d.read depth inClass (y ++ q) = d.read depth inClass (y ++ p) ∧
      (Stops p ∧ Stops q ∨ '\n' ∈ y.drop n) := by
  rcases seam with closed | ⟨left, right, -⟩
  · -- the literal stops behind a visible character, and so before the last line feed
    obtain ⟨c, hc, visible⟩ := Delimiters.visible_of_read hclose hn
    have pos := Delimiters.length_pos_of_read hn
    rcases closed with rfl | last
    · cases within
      cases pos
    obtain ⟨v, rfl⟩ := List.getLast?_eq_some_iff.1 last
    have before : n ≤ v.length := by
      refine Nat.le_of_not_lt fun lt => ?_
      rw [List.length_append, List.length_singleton] at within
      rw [List.append_assoc, show n - 1 = v.length from by omega,
        List.getElem?_append_right (Nat.le_refl _), Nat.sub_self] at hc
      rw [← Option.some.inj hc] at visible
      cases visible
    rw [List.append_assoc] at hn ⊢
    rw [List.append_assoc]
    refine ⟨Delimiters.read_append (stops_cons (by decide) _) (stops_cons (by decide) _) hn before,
      .inr ?_⟩
    rw [List.drop_append_of_le_length before]
    exact List.mem_append_right _ List.mem_cons_self
  · exact ⟨Delimiters.read_append left right hn within, .inl ⟨left, right⟩⟩

/-! ## States -/

/-- Two states that differ in their places only. -/
structure Tokenizer.Twin (y p q : Text) (s t : Tokenizer) : Prop where
  cursor : s.cursor.Twin y p q t.cursor
  spaced : t.spaced = s.spaced
  memory : t.memory = s.memory
  heredocs : t.heredocs = s.heredocs
  suspended : List.Forall₂ (OpenLiteral.Twin s.cursor t.cursor) s.suspended t.suspended

/-- A twin of a state outside of all literals is outside, too. -/
theorem Tokenizer.Twin.outside {s t : Tokenizer} (twin : s.Twin y p q t)
    (outside : s.suspended = []) :
    t.suspended = [] := by
  have literals := twin.suspended
  rw [outside] at literals
  exact List.forall₂_nil_left_iff.1 literals

/-- The same token of the program at two places. -/
structure Token.Twin (p q : Text) (t k : Token) : Prop where
  kind : k.kind = t.kind
  text : k.text = t.text
  line : k.line = t.line
  endLine : k.endLine = t.endLine
  after : ∃ y, t.after = y ++ p ∧ k.after = y ++ q

/-- The same finding at two places. -/
inductive Finding.Twin (p q : Text) : Finding → Finding → Prop where
  | token {t k : Token} (h : t.Twin p q k) : Finding.Twin p q (.token t) (.token k)
  | same {f : Finding} (h : f.token? = none) : Finding.Twin p q f f

/-- Findings that are no tokens are their own twins. -/
theorem twins_of_tokensOf {found : List Finding} (h : tokensOf found = []) :
    List.Forall₂ (Finding.Twin p q) found found := by
  induction found with
  | nil => exact .nil
  | cons f found ih =>
    cases hf : f.token? with
    | none =>
      rw [tokensOf_cons_of_none hf] at h
      exact .cons (.same hf) (ih h)
    | some t =>
      unfold tokensOf at h
      rw [List.filterMap_cons, hf] at h
      cases h

/-- Where the one step goes on, and leaves at least `keep` characters, the other step goes on
alike. -/
def Step.Follows (p q : Text) (keep : Nat) (a b : Step) : Prop :=
  ∀ found s, a = .next found s → keep ≤ s.cursor.rest.length → ∃ y more t, b = .next more t ∧
    List.Forall₂ (Finding.Twin p q) found more ∧ s.Twin y p q t

variable {keep : Nat}

theorem Step.Follows.prepend {a b : Step} {found : List Finding}
    (hfound : tokensOf found = []) (h : a.Follows p q keep b) :
    (a.prepend found).Follows p q keep (b.prepend found) := by
  intro more s ha hkeep
  cases a with
  | stop => cases ha
  | next rest t =>
    cases ha
    obtain ⟨y, others, u, rfl, twins, hu⟩ := h rest s rfl hkeep
    refine ⟨y, found ++ others, u, rfl, ?_, hu⟩
    exact List.rel_append (twins_of_tokensOf hfound) twins

namespace Tokenizer

variable {s t : Tokenizer}

theorem Twin.advance {n : Nat} (h : s.Twin y p q t) (hn : n ≤ y.length) :
    Twin (y.drop n) p q { s with cursor := s.cursor.advance n }
      { t with cursor := t.cursor.advance n } where
  cursor := h.cursor.advance hn
  spaced := h.spaced
  memory := h.memory
  heredocs := h.heredocs
  suspended := h.suspended.imp fun _ _ => OpenLiteral.Twin.advance h.cursor hn

/-- What is remembered of a token depends on its kind and its characters only. -/
theorem note_eq {k l : Token} (kind : l.kind = k.kind) (text : l.text = k.text) (m : Memory) :
    m.note l = m.note k := by
  have bare : ∀ t : Token, m.note t = m.note ⟨t.kind, t.text, 0, 0, 0, 0, []⟩ := fun _ => rfl
  rw [bare l, bare k, kind, text]

/-- Twins are the same punctuation mark. -/
theorem isPunct_eq {k l : Token} (kind : l.kind = k.kind) (text : l.text = k.text) (w : String) :
    l.isPunct w = k.isPunct w := by
  unfold Token.isPunct
  rw [kind, text]

theorem follows_record {k l : Token} (h : s.Twin y p q t) (hk : k.Twin p q l) :
    (s.record k).Follows p q keep (t.record l) := by
  intro found u hstep _
  cases hstep
  refine ⟨y, _, _, rfl, ?_, h.cursor, rfl, ?_, h.heredocs, h.suspended⟩
  · have empty : t.suspended.isEmpty = s.suspended.isEmpty := by
      rw [Bool.eq_iff_iff, List.isEmpty_iff, List.isEmpty_iff, ← List.length_eq_zero_iff,
        ← List.length_eq_zero_iff, h.suspended.length_eq]
    rw [empty]
    split
    · exact .cons (.token hk) .nil
    · exact .nil
  · dsimp only
    rw [h.memory, note_eq hk.kind hk.text]

/-- The letters behind a literal end before the blanks. -/
theorem exists_flags {c d : Cursor} (h : c.Twin y p q d) (behind : Stops p ∧ Stops q ∨ '\n' ∈ y)
    (flags : Bool) : ∃ n, n ≤ y.length ∧
      (if flags then c.advance (Source.run Char.isAlpha c.rest) else c) = c.advance n ∧
      (if flags then d.advance (Source.run Char.isAlpha d.rest) else d) = d.advance n := by
  have solid : Solid Char.isAlpha := solid_of_blanks (by decide)
  cases flags with
  | false => exact ⟨0, Nat.zero_le _, rfl, rfl⟩
  | true =>
    refine ⟨Source.run Char.isAlpha y, run_le _ y, ?_, ?_⟩
    all_goals rw [if_pos rfl]
    · rw [h.left]
      rcases behind with ⟨hp, -⟩ | line
      · rw [run_append y (solid.head hp)]
      · obtain ⟨x, z, rfl, -⟩ := exists_append_of_mem line
        rw [List.append_assoc, List.cons_append, run_append x rfl, run_append x rfl]
    · rw [h.right]
      rcases behind with ⟨-, hq⟩ | line
      · rw [run_append y (solid.head hq)]
      · obtain ⟨x, z, rfl, -⟩ := exists_append_of_mem line
        rw [List.append_assoc, List.cons_append, run_append x rfl, run_append x rfl]

/-- A literal that is read on is followed by its twin. -/
theorem follows_readLiteral {l k : OpenLiteral} (joint : Joint keep p) (h : s.Twin y p q t)
    (hl : l.Twin s.cursor t.cursor k) : (s.readLiteral l).Follows p q keep (t.readLiteral k) := by
  have delimiters : k.delimiters = l.delimiters := by rw [hl.same]
  have depth : k.depth = l.depth := by rw [hl.same]
  have inClass : k.inClass = l.inClass := by rw [hl.same]
  have flags : k.flags = l.flags := by rw [hl.same]
  have line : k.line = l.line := by rw [hl.same]
  -- what the literal takes ends before the blanks, and so the other literal takes the same
  have stops : ∀ {n : Nat}, (l.delimiters.read l.depth l.inClass s.cursor.rest).length? = some n →
      keep ≤ s.cursor.rest.length - n → n ≤ y.length ∧
        k.delimiters.read k.depth k.inClass t.cursor.rest =
          l.delimiters.read l.depth l.inClass s.cursor.rest ∧
            (Stops p ∧ Stops q ∨ '\n' ∈ y.drop n) := by
    intro n hn hkeep
    rw [h.cursor.left] at hn hkeep ⊢
    obtain ⟨c, hc, visible⟩ := Delimiters.visible_of_read hl.close hn
    have within := joint.within hc (.inl visible) hkeep
    rw [delimiters, depth, inClass, h.cursor.right]
    exact ⟨within, h.cursor.seam.read_literal hl.close hn within⟩
  intro found u hstep hkeep
  unfold readLiteral at hstep ⊢
  cases hread : l.delimiters.read l.depth l.inClass s.cursor.rest with
  | unterminated =>
    rw [hread] at hstep
    cases hstep
  | split =>
    rw [hread] at hstep
    cases hstep
  | closed n =>
    rw [hread] at hstep stops
    dsimp only at hstep
    have kept : keep ≤ s.cursor.rest.length - n := by
      cases hstep
      dsimp only at hkeep
      split at hkeep
      · rw [Cursor.rest_advance, Cursor.rest_advance, List.length_drop, List.length_drop] at hkeep
        omega
      · rw [Cursor.rest_advance, List.length_drop] at hkeep
        omega
    obtain ⟨within, same, behind⟩ := stops rfl kept
    rw [same]
    dsimp only
    rw [flags]
    have moved := h.advance within
    -- the flags end before the blanks as well
    obtain ⟨m, hm, left, right⟩ := exists_flags moved.cursor behind l.flags
    dsimp only at left right
    have moved' := moved.advance hm
    have literal := (hl.advance h.cursor within).advance moved.cursor hm
    rw [left] at hstep
    rw [right]
    refine follows_record moved' ?_ found u hstep hkeep
    exact ⟨rfl, literal.take, line, moved'.cursor.line, _, moved'.cursor.left, moved'.cursor.right⟩
  | interpolation n depth' inClass' =>
    rw [hread] at hstep stops
    cases hstep
    dsimp only at hkeep
    rw [Cursor.rest_advance, List.length_drop] at hkeep
    obtain ⟨within, same, -⟩ := stops rfl hkeep
    rw [same]
    have moved := h.advance within
    have literal := hl.advance h.cursor within
    refine ⟨y.drop n, [], _, rfl, .nil, moved.cursor, rfl, ?_, rfl, .cons ?_ moved.suspended⟩
    · dsimp only
      rw [h.memory]
    · refine ⟨?_, literal.text, literal.close⟩
      dsimp only
      rw [hl.same, h.heredocs]

/-- A token that settles is followed by its twin. -/
theorem follows_settle {k l : Token} (joint : Joint keep p) (h : s.Twin y p q t)
    (hk : k.Twin p q l) : (s.settle k).Follows p q keep (t.settle l) := by
  have literals := h.suspended
  unfold settle
  generalize hs : s.suspended = inner at literals
  generalize ht : t.suspended = inner' at literals
  cases literals with
  | nil => exact follows_record h hk
  | @cons m m' outer outer' hm hrest =>
    have braces : m'.braces = m.braces := by rw [hm.same]
    have pending : m'.pending = m.pending := by rw [hm.same]
    -- counting braces leaves the literal as it is otherwise
    have count : ∀ n : Nat,
      ({ s with suspended := { m with braces := n } :: outer }.record k).Follows
        p q keep ({ t with suspended := { m' with braces := n } :: outer' }.record l) := by
      intro n
      refine follows_record (s := { s with suspended := _ }) (t := { t with suspended := _ })
        ⟨h.cursor, h.spaced, h.memory, h.heredocs, .cons ⟨?_, hm.text, hm.close⟩ hrest⟩ hk
      dsimp only
      rw [hm.same]
    dsimp only
    rw [isPunct_eq hk.kind hk.text, isPunct_eq hk.kind hk.text, braces]
    split
    · exact count _
    · split
      · split
        · refine follows_readLiteral (s := { s with suspended := _, heredocs := _, memory := _ })
            (t := { t with suspended := _, heredocs := _, memory := _ }) joint
            ⟨h.cursor, h.spaced, ?_, pending, hrest⟩ hm
          dsimp only
          rw [h.memory, note_eq hk.kind hk.text]
        · exact count _
      · exact follows_record h hk

/-- Twins are twins behind a token of the same text. -/
theorem Twin.behind {more : Nat} (kind : TokenKind) (h : s.Twin y p q t)
    (hmore : more + 1 ≤ y.length) : Twin (y.drop (more + 1)) p q
      { s with cursor := s.behind kind more } { t with cursor := t.behind kind more } := by
  have moved := h.advance hmore
  unfold Tokenizer.behind
  dsimp only
  split
  · refine ⟨?_, moved.spaced, moved.memory, moved.heredocs, ?_⟩
    · have place := moved.cursor.withLine s.cursor.line
      rw [h.cursor.line]
      exact place
    · refine moved.suspended.imp fun _ _ hl => ⟨hl.same, hl.text, hl.close⟩
  · exact moved

/-- A token that is taken is followed by its twin. -/
theorem follows_take {kind : TokenKind} {more : Nat} (joint : Joint keep p) (h : s.Twin y p q t)
    (hmore : more + 1 ≤ y.length) : (s.take kind more).Follows p q keep (t.take kind more) := by
  have moved := h.behind kind hmore
  refine follows_settle joint moved
    ⟨rfl, ?_, h.cursor.line, moved.cursor.line, _, moved.cursor.left, moved.cursor.right⟩
  show t.cursor.rest.take (more + 1) = s.cursor.rest.take (more + 1)
  rw [h.cursor.left, h.cursor.right, List.take_append_of_le_length hmore,
    List.take_append_of_le_length hmore]

/-- An end of a line is followed by its twin. -/
theorem follows_takeNewline (joint : Joint keep p) (h : s.Twin ('\n' :: y) p q t) :
    s.takeNewline.Follows p q keep t.takeNewline := by
  have below : Twin y p q { s with cursor := s.cursor.advance 1 }
      { t with cursor := t.cursor.advance 1 } := h.advance (Nat.succ_le_succ (Nat.zero_le _))
  have left : (s.cursor.advance 1).rest = y ++ p := below.cursor.left
  have right : (t.cursor.advance 1).rest = y ++ q := below.cursor.right
  have line : (t.cursor.advance 1).line = (s.cursor.advance 1).line := below.cursor.line
  have heredocs := h.heredocs
  unfold takeNewline
  dsimp only
  rw [left, right, line, heredocs]
  cases hbodies : readBodies s.heredocs (s.cursor.advance 1).line (y ++ p) with
  | mk bodies taken =>
    cases taken with
    | error e =>
      intro found u hstep
      cases hstep
    | ok more =>
      obtain ⟨length, lines⟩ := more
      intro found u hstep hkeep
      -- the bodies end with a line feed, and so within the common text
      have within : length ≤ y.length := by
        cases hstep
        have kept : keep ≤ (y ++ p).length - length := by
          rw [← left, ← List.length_drop, ← Cursor.rest_advance]
          exact hkeep
        by_cases pos : 0 < length
        · by_cases hlt : length < (y ++ p).length
          · exact joint.within (getElem?_readBodies hbodies hlt pos) (.inr rfl) kept
          · -- all of the program is taken, and so nothing is kept
            have hp := joint.ended (by omega)
            rw [hp, List.append_nil] at hbodies
            exact length_readBodies_le hbodies
        · omega
      have same : readBodies s.heredocs (s.cursor.advance 1).line (y ++ q) =
          (bodies, .ok (length, lines)) := by
        rcases below.cursor.seam.closed_or_eq with closed | same
        · exact readBodies_append closed hbodies within q
        · rw [same, hbodies]
      rw [same]
      have moved := below.advance within
      have place := moved.cursor.withLine ((s.cursor.advance 1).line + lines)
      have literals : List.Forall₂ (OpenLiteral.Twin
          { (s.cursor.advance 1).advance length with line := (s.cursor.advance 1).line + lines }
          { (t.cursor.advance 1).advance length with line := (s.cursor.advance 1).line + lines })
          s.suspended t.suspended :=
        moved.suspended.imp fun _ _ hl => ⟨hl.same, hl.text, hl.close⟩
      have recorded : ({ s with
          cursor := { (s.cursor.advance 1).advance length with
            line := (s.cursor.advance 1).line + lines }
          heredocs := [] }.record (s.cut .newline ['\n'] { (s.cursor.advance 1).advance length with
            line := (s.cursor.advance 1).line + lines })).Follows p q keep
          ({ t with
          cursor := { (t.cursor.advance 1).advance length with
            line := (s.cursor.advance 1).line + lines }
          heredocs := [] }.record (t.cut .newline ['\n'] { (t.cursor.advance 1).advance length with
            line := (s.cursor.advance 1).line + lines })) :=
        follows_record (s := { s with cursor := _, heredocs := [] })
          (t := { t with cursor := _, heredocs := [] })
          ⟨place, h.spaced, h.memory, rfl, literals⟩
          ⟨rfl, rfl, h.cursor.line, rfl, _, moved.cursor.left, moved.cursor.right⟩
      have nothing : tokensOf bodies = [] := by
        have := tokensOf_readBodies s.heredocs (s.cursor.advance 1).line (y ++ p)
        rw [hbodies] at this
        exact this
      exact (recorded.prepend nothing) found u hstep hkeep

/-- A token that is taken leaves what is behind it, at most. -/
theorem rest_take_le (s : Tokenizer) (kind : TokenKind) (more : Nat) :
    (s.take kind more).Within (s.cursor.rest.length - (more + 1)) := by
  refine (rest_settle_le ..).mono ?_
  rw [rest_behind, List.length_drop]

/-- What a character of the program starts is followed by its twin, if it does not hinge on the
seam. -/
theorem follows_readLexeme {c : Char} {x : Text} (joint : Joint keep p)
    (h : s.Twin (c :: x) p q t) (unnamed : s.memory.namesMethod = false)
    (code : Text.isAsciiBlank c = false ∨ c = '\n')
    (line : '\n' ∉ c :: x → p ≠ [] → Lexeme.hinges s.memory (c :: x) = false ∧ c ≠ '#') :
    (s.readLexeme c (x ++ p)).Follows p q keep (t.readLexeme c (x ++ q)) := by
  have state : Lexeme.read t.memory t.spaced c (x ++ q) =
      Lexeme.read s.memory s.spaced c (x ++ q) := by rw [h.memory, h.spaced]
  have reading : Lexeme.read s.memory s.spaced c (x ++ p) = .brokenHeredoc ∨ _ :=
    h.cursor.seam.read unnamed code line
  unfold readLexeme
  rw [state]
  obtain broken | ⟨same, le⟩ | ⟨more, id, indented, opens, beyond, d, last, visible⟩ := reading
  · intro found u hstep
    rw [broken] at hstep
    cases hstep
  on_goal 2 =>
    -- the name ends behind the place where the programs differ
    intro found u hstep hkeep
    rw [opens] at hstep
    have within := Step.within_prepend [.heredocOpened ⟨id, indented, s.cursor.line⟩]
      (rest_take_le { s with heredocs := s.heredocs ++ [⟨id, indented, s.cursor.line⟩] }
        .literal more)
    dsimp only at hstep
    rw [hstep] at within
    have less : u.cursor.rest.length ≤ s.cursor.rest.length - (more + 1) := within
    rw [h.cursor.left] at less
    have le := joint.within (y := c :: x) (n := more + 1) last (.inl visible)
      (Nat.le_trans hkeep less)
    exact absurd le (Nat.not_le_of_lt (Nat.succ_lt_succ beyond))
  rw [same]
  -- both programs have the same lexeme, and it ends within the common text
  cases hread : Lexeme.read s.memory s.spaced c (x ++ p) with
  | token kind more =>
    rw [hread] at le
    exact follows_take joint h (Nat.succ_le_succ le)
  | newline =>
    have hc : c = '\n' := Classical.byContradiction fun hc => Lexeme.read_ne_newline hc _ _ _ hread
    subst hc
    exact follows_takeNewline joint h
  | delimited more delimiters flags =>
    rw [hread] at le
    have within : more + 1 ≤ (c :: x).length := Nat.succ_le_succ le
    obtain ⟨left, right⟩ := h.cursor.position_advance within
    have literal : OpenLiteral.Twin (s.cursor.advance (more + 1)) (t.cursor.advance (more + 1))
        { source := s.cursor.rest, start := s.cursor.position, line :=
          s.cursor.line, delimiters, flags }
        { source := t.cursor.rest, start := t.cursor.position, line := t.cursor.line, delimiters,
          flags } := by
      refine ⟨?_, ⟨(c :: x).take (more + 1), ?_, ?_, ?_, ?_⟩, Lexeme.blank_close_of_read hread⟩
      · dsimp only
        rw [h.cursor.line]
      · dsimp only
        rw [(h.cursor.advance within).left, h.cursor.left, ← List.append_assoc,
          List.take_append_drop]
      · dsimp only
        rw [(h.cursor.advance within).right, h.cursor.right, ← List.append_assoc,
          List.take_append_drop]
      · dsimp only
        rw [left, List.length_take, Nat.min_eq_left within]
      · dsimp only
        rw [right, List.length_take, Nat.min_eq_left within]
    exact follows_readLiteral joint (h.advance within) literal
  | heredoc more id indented =>
    rw [hread] at le
    have opened : Twin (c :: x) p q
        { s with heredocs := s.heredocs ++ [⟨id, indented, s.cursor.line⟩] }
        { t with heredocs := t.heredocs ++ [⟨id, indented, t.cursor.line⟩] } :=
      ⟨h.cursor, h.spaced, h.memory, by rw [h.heredocs, h.cursor.line], h.suspended⟩
    have found : [Finding.heredocOpened ⟨id, indented, t.cursor.line⟩] =
        [.heredocOpened ⟨id, indented, s.cursor.line⟩] := by rw [h.cursor.line]
    dsimp only
    rw [found]
    exact (follows_take joint opened (Nat.succ_le_succ le)).prepend rfl
  | brokenHeredoc =>
    intro found u hstep
    cases hstep
  | split =>
    intro found u hstep
    cases hstep

/-- Where a method may be named, what names none starts no name. -/
theorem isNameStart_of_methodName? {c : Char} {r : Text} (h : Lexeme.methodName? c r = none) :
    isNameStart c = false := by
  rw [Bool.eq_false_iff]
  intro hc
  unfold Lexeme.methodName? at h
  rw [if_pos hc] at h
  dsimp only at h
  split at h <;> cases h

/-- What starts no name hinges on the seam in the same way where a method is named. -/
theorem hinges_unnamed {m : Memory} {c : Char} {x : Text} (hc : isNameStart c = false) :
    Lexeme.hinges { m with namesMethod := false } (c :: x) = Lexeme.hinges m (c :: x) := by
  rw [Lexeme.hinges_cons, Lexeme.hinges_cons, hc]
  rfl

/-- What a character starts is followed by its twin, also where a method is named. -/
theorem follows_readToken {c : Char} {x : Text} (joint : Joint keep p)
    (h : s.Twin (c :: x) p q t) (code : Text.isAsciiBlank c = false ∨ c = '\n')
    (line : '\n' ∉ c :: x → p ≠ [] → Lexeme.hinges s.memory (c :: x) = false ∧ c ≠ '#') :
    (s.readToken c (x ++ p)).Follows p q keep (t.readToken c (x ++ q)) := by
  have memory := h.memory
  unfold readToken
  cases named : s.memory.namesMethod with
  | false =>
    rw [memory, named]
    exact follows_readLexeme joint h named code line
  | true =>
    -- behind a `def` a name may be a setter, which is a hinge of its own
    obtain ⟨same, within⟩ := h.cursor.seam.methodName? fun hx hp => by
      have hinge := (line hx hp).1
      rw [Lexeme.hinges_cons, named] at hinge
      cases hc : isNameStart c with
      | false => rfl
      | true =>
        rw [hc] at hinge
        exact hinge
    rw [memory, named, if_pos rfl, if_pos rfl, same]
    cases hname : Lexeme.methodName? c (x ++ p) with
    | some method =>
      obtain ⟨kind, more, pending⟩ := method
      have renamed : Twin (c :: x) p q
          { s with memory := { s.memory with namesMethod := pending } }
          { t with memory := { s.memory with namesMethod := pending } } :=
        ⟨h.cursor, h.spaced, rfl, h.heredocs, h.suspended⟩
      exact follows_take joint renamed (Nat.succ_le_succ (within _ _ _ hname))
    | none =>
      have unnamed : Twin (c :: x) p q
          { s with spaced := false, memory := { s.memory with namesMethod := false } }
          { t with spaced := false, memory := { s.memory with namesMethod := false } } :=
        ⟨h.cursor, rfl, rfl, h.heredocs, h.suspended⟩
      refine follows_readLexeme joint unnamed rfl code fun hx hp => ?_
      rw [hinges_unnamed (isNameStart_of_methodName? hname)]
      exact line hx hp

/-! ## Steps -/

theorem wordAhead_append {w y : Text} {ends : Text → Bool}
    (head : ∀ c r r', ends (c :: r) = ends (c :: r')) (hw : '\n' ∉ w) (hy : '\n' ∈ y)
    (p q : Text) : (List.isPrefixOf? w (y ++ q)).any ends =
      (List.isPrefixOf? w (y ++ p)).any ends := by
  induction w generalizing y with
  | nil =>
    cases y with
    | nil => cases hy
    | cons c y => exact head c _ _
  | cons d w ih =>
    rw [List.mem_cons, not_or] at hw
    cases y with
    | nil => cases hy
    | cons c y =>
      rw [List.cons_append, List.cons_append, List.isPrefixOf?, List.isPrefixOf?]
      by_cases hd : d = c
      · rw [if_pos (beq_iff_eq.2 hd), if_pos (beq_iff_eq.2 hd)]
        refine ih hw.2 ((List.mem_cons.1 hy).resolve_left ?_)
        rw [← hd]
        exact hw.1
      · rw [if_neg (mt beq_iff_eq.1 hd), if_neg (mt beq_iff_eq.1 hd)]

/-- A word that fills its line is ahead on both sides of a seam, or on none. -/
theorem isPrefixOf_append_line {w y : Text} (hw : '\n' ∉ w) (hy : '\n' ∈ y) (p q : Text) :
    List.isPrefixOf (w ++ ['\n']) (y ++ q) = List.isPrefixOf (w ++ ['\n']) (y ++ p) := by
  induction w generalizing y with
  | nil =>
    cases y with
    | nil => cases hy
    | cons c y => rfl
  | cons d w ih =>
    rw [List.mem_cons, not_or] at hw
    cases y with
    | nil => cases hy
    | cons c y =>
      rw [List.cons_append, List.cons_append, List.cons_append, List.isPrefixOf_cons_cons,
        List.isPrefixOf_cons_cons]
      by_cases hd : d = c
      · have inside : '\n' ∈ y := (List.mem_cons.1 hy).resolve_left (hd ▸ hw.1)
        rw [ih hw.2 inside]
      · rw [beq_false_of_ne hd, Bool.false_and, Bool.false_and]

theorem wordEnds_cons (c : Char) (r r' : Text) : wordEnds (c :: r) = wordEnds (c :: r') := rfl

theorem lineEnds_cons (c : Char) (r r' : Text) : lineEnds (c :: r) = lineEnds (c :: r') := rfl

/-- What the code ahead must not be where the line ends differently at two places: a hinge, a
comment, a word that counts at the start of a line only, or a backslash that joins lines. -/
structure Steady (y p q : Text) (s : Tokenizer) : Prop where
  hinge : '\n' ∉ y → p ≠ [] → Lexeme.hinges s.memory y = false
  uncommented : '\n' ∉ y → p ≠ [] → y.head? ≠ some '#'
  begins : '\n' ∉ y → p ≠ [] →
    wordAhead "=begin" wordEnds (y ++ q) = wordAhead "=begin" wordEnds (y ++ p)
  mark : '\n' ∉ y → p ≠ [] → s.cursor.atLineStart →
    wordAhead "__END__" lineEnds (y ++ q) → wordAhead "__END__" lineEnds (y ++ p)
  joins : '\n' ∉ y → p ≠ [] → ∀ w ∈ [['\\'], ['\\', '\r']],
    List.isPrefixOf (w ++ ['\n']) (y ++ q) → List.isPrefixOf (w ++ ['\n']) (y ++ p)
  document : p ≠ [] → ∀ n, s.document? = some n → n < y.length

/-- What is skipped is skipped by the twin, too. -/
theorem follows_skip {n : Nat} {found : List Finding} (h : s.Twin y p q t)
    (hn : n ≤ y.length) (nothing : tokensOf found = []) :
    (Step.next found (s.skip n)).Follows p q keep (.next found (t.skip n)) := by
  intro more u hstep _
  cases hstep
  have moved := h.advance hn
  exact ⟨_, found, _, rfl, twins_of_tokensOf nothing, moved.cursor, rfl, moved.memory,
    moved.heredocs, moved.suspended⟩

/-- A backslash that joins lines at the one place, before the blanks, does so at the other. -/
theorem joins_of_kept {w : Text} (joint : Joint keep p)
    (joins : List.isPrefixOf (w ++ ['\n']) (y ++ p))
    (hkeep : keep ≤ (y ++ p).length - (w.length + 1)) :
    w.length + 1 ≤ y.length ∧ List.isPrefixOf (w ++ ['\n']) (y ++ q) := by
  obtain ⟨r, hr⟩ := List.isPrefixOf_iff_prefix.1 joins
  have last : (y ++ p)[w.length + 1 - 1]? = some '\n' := by
    rw [← hr, Nat.add_sub_cancel, List.append_assoc, List.getElem?_append_right (Nat.le_refl _),
      Nat.sub_self]
    rfl
  have within := joint.within last (.inr rfl) hkeep
  have front : w ++ ['\n'] <+: y := by
    refine List.prefix_of_prefix_length_le ⟨r, hr⟩ (List.prefix_append y p) ?_
    rw [List.length_append, List.length_singleton]
    exact within
  exact ⟨within, List.isPrefixOf_iff_prefix.2 (front.trans (List.prefix_append y q))⟩

section Steady

variable (steady : Steady y p q s) (seam : Seam y p q) (hy : y ≠ [])

include steady seam hy

/-- A line that is not joined to the next is not joined by the twin. -/
theorem Steady.not_joins {w : Text} (hw : w ∈ [['\\'], ['\\', '\r']])
    (h : ¬ List.isPrefixOf (w ++ ['\n']) (y ++ p)) : ¬ List.isPrefixOf (w ++ ['\n']) (y ++ q) := by
  by_cases line : '\n' ∈ y
  · have noLine : '\n' ∉ w := by
      rcases List.mem_cons.1 hw with rfl | hw
      · decide
      · rw [List.mem_singleton.1 hw]
        decide
    rw [isPrefixOf_append_line noLine line p q]
    exact h
  · by_cases hp : p = []
    · rw [seam.eq_of_nil hy line hp]
      exact h
    · exact fun hq => h (steady.joins line hp w hw hq)

/-- An embedded document begins on both sides of a seam, or on none. -/
theorem Steady.begins_eq :
    wordAhead "=begin" wordEnds (y ++ q) = wordAhead "=begin" wordEnds (y ++ p) := by
  by_cases line : '\n' ∈ y
  · exact wordAhead_append wordEnds_cons (by decide) line p q
  · by_cases hp : p = []
    · rw [seam.eq_of_nil hy line hp]
    · exact steady.begins line hp

/-- Where there is no end mark, the twin has none. -/
theorem Steady.not_mark (start : s.cursor.atLineStart)
    (h : wordAhead "__END__" lineEnds (y ++ p) = false) :
    wordAhead "__END__" lineEnds (y ++ q) = false := by
  by_cases line : '\n' ∈ y
  · have same : wordAhead "__END__" lineEnds (y ++ q) = wordAhead "__END__" lineEnds (y ++ p) :=
      wordAhead_append lineEnds_cons (by decide) line p q
    rw [same]
    exact h
  · by_cases hp : p = []
    · rw [seam.eq_of_nil hy line hp]
      exact h
    · rw [Bool.eq_false_iff]
      intro hq
      rw [steady.mark line hp start hq] at h
      cases h

omit hy in
/-- An embedded document is read alike at both places. -/
theorem Steady.document_append {n lines : Nat}
    (ahead : s.cursor.atLineStart ∧ s.cursor.rest = y ++ p)
    (begins : wordAhead "=begin" wordEnds (y ++ p))
    (h : embeddedDocument? (y ++ p) = some (n, lines)) :
    n ≤ y.length ∧ embeddedDocument? (y ++ q) = some (n, lines) := by
  by_cases hp : p = []
  · rw [hp, List.append_nil] at h
    rcases seam with closed | ⟨-, -, ended⟩
    · have lt := (lineFeeds_embeddedDocument? h).2 closed
      refine ⟨Nat.le_of_lt lt, embeddedDocument?_append (s := []) (fun _ => closed) ?_ lt q⟩
      rw [List.append_nil]
      exact h
    · rw [ended hp, List.append_nil]
      exact ⟨length_embeddedDocument?_le h, h⟩
  · have lt := steady.document hp n (by
      unfold document?
      rw [ahead.1, ahead.2, begins, h]
      rfl)
    exact ⟨Nat.le_of_lt lt, embeddedDocument?_append (fun none => absurd none hp) h lt q⟩

end Steady

/-- The end of the walk does not go on. -/
theorem not_finish_next {found more : List Finding} {u : Tokenizer} :
    s.finish found ≠ .next more u := by
  unfold finish
  split <;> nofun

/-- While the code before the differences is steady, both walks take the same steps. -/
theorem follows_step (joint : Joint keep p) (h : s.Twin y p q t) (hy : y ≠ [])
    (steady : Steady y p q s) : s.step.Follows p q keep t.step := by
  obtain ⟨c, x, rfl⟩ := List.exists_cons_of_ne_nil hy
  have left : s.cursor.rest = c :: (x ++ p) := h.cursor.left
  have right : t.cursor.rest = c :: (x ++ q) := h.cursor.right
  have lineStart := h.cursor.lineStart
  have seam := h.cursor.seam
  have begins : wordAhead "=begin" wordEnds (c :: (x ++ q)) =
      wordAhead "=begin" wordEnds (c :: (x ++ p)) := steady.begins_eq seam hy
  -- the cases of a step in their order; what decides between them is told by the common text
  intro found u hstep hkeep
  unfold step at hstep ⊢
  rw [left] at hstep
  rw [right]
  dsimp only at hstep ⊢
  rw [lineStart, h.cursor.line, begins]
  split at hstep
  · next ahead =>
    rw [if_pos ahead]
    cases hdoc : embeddedDocument? (c :: (x ++ p)) with
    | none =>
      rw [hdoc] at hstep
      cases hstep
    | some document =>
      obtain ⟨n, lines⟩ := document
      rw [Bool.and_eq_true] at ahead
      obtain ⟨within, same⟩ := steady.document_append seam ⟨ahead.1, left⟩ ahead.2 hdoc
      rw [hdoc] at hstep
      cases hstep
      rw [show embeddedDocument? (c :: (x ++ q)) = some (n, lines) from same]
      have moved := h.advance within
      exact ⟨_, _, _, rfl, .cons (.same rfl) .nil, moved⟩
  next noDocument =>
  rw [if_neg noDocument]
  split at hstep
  · exact absurd hstep not_finish_next
  next noMark =>
  have noMark' : ¬ (s.cursor.atLineStart && wordAhead "__END__" lineEnds (c :: (x ++ q))) =
      true := by
    cases hstart : s.cursor.atLineStart with
    | false => exact Bool.false_ne_true
    | true =>
      rw [hstart, Bool.true_and, Bool.not_eq_true] at noMark
      have := steady.not_mark seam hy hstart noMark
      rw [Bool.true_and, Bool.not_eq_true]
      exact this
  rw [if_neg noMark']
  by_cases blank : (c == ' ' || c == '\t' || c == '\r' || c == '\x0c') = true
  · rw [if_pos blank] at hstep ⊢
    exact follows_skip h (Nat.succ_le_succ (Nat.zero_le _)) rfl found u hstep hkeep
  rw [if_neg blank] at hstep ⊢
  -- a line that is joined to the next: the join ends before the programs differ
  by_cases join : List.isPrefixOf ['\\', '\n'] (c :: (x ++ p)) = true
  · rw [if_pos join] at hstep
    have kept : keep ≤ (c :: x ++ p).length - 2 := by
      cases hstep
      rw [← h.cursor.left, ← List.length_drop, ← Cursor.rest_advance]
      exact hkeep
    obtain ⟨within, join'⟩ := joins_of_kept (y := c :: x) (w := ['\\']) joint join kept
    rw [if_pos (show List.isPrefixOf ['\\', '\n'] (c :: (x ++ q)) = true from join')]
    exact follows_skip h within rfl found u hstep hkeep
  rw [if_neg join] at hstep
  have apart : ¬ List.isPrefixOf ['\\', '\n'] (c :: (x ++ q)) = true :=
    steady.not_joins seam hy (w := ['\\']) (by decide) join
  rw [if_neg apart]
  by_cases join : List.isPrefixOf ['\\', '\r', '\n'] (c :: (x ++ p)) = true
  · rw [if_pos join] at hstep
    have kept : keep ≤ (c :: x ++ p).length - 3 := by
      cases hstep
      rw [← h.cursor.left, ← List.length_drop, ← Cursor.rest_advance]
      exact hkeep
    obtain ⟨within, join'⟩ := joins_of_kept (y := c :: x) (w := ['\\', '\r']) joint join kept
    rw [if_pos (show List.isPrefixOf ['\\', '\r', '\n'] (c :: (x ++ q)) = true from join')]
    exact follows_skip h within rfl found u hstep hkeep
  rw [if_neg join] at hstep
  have apart : ¬ List.isPrefixOf ['\\', '\r', '\n'] (c :: (x ++ q)) = true :=
    steady.not_joins seam hy (w := ['\\', '\r']) (by decide) join
  rw [if_neg apart]
  -- what is left is read as a token
  have code : Text.isAsciiBlank c = false ∨ c = '\n' := by
    by_cases hc : c = '\n'
    · exact .inr hc
    · exact .inl (Bool.eq_false_iff.2 fun hblank => blank (isSkipped_of_isAsciiBlank hblank hc))
  exact follows_readToken joint h code (fun hx hp => ⟨steady.hinge hx hp, fun hc =>
    steady.uncommented hx hp (by rw [hc]; rfl)⟩) found u hstep hkeep

/-- Code that ends with its lines is steady, if no embedded document reaches over its end. -/
theorem steady_of_closed (closed : y.Closed) (hy : y ≠ [])
    (document : p ≠ [] → ∀ n, s.document? = some n → n < y.length) : Steady y p q s := by
  have line := closed.mem_of_ne_nil hy
  exact ⟨absurd line, absurd line, absurd line, absurd line, absurd line, document⟩

/-- Before the end of a program that ends with its lines, another program that goes on takes the
same steps. -/
theorem follows_of_closed (h : s.Twin y [] q t) (closed : y.Closed) (hy : y ≠ []) :
    s.step.Follows [] q 0 t.step :=
  follows_step (joint_length []) h hy (steady_of_closed closed hy fun some => absurd rfl some)

end Tokenizer

end Marginalia.Source
