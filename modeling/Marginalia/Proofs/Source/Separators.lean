import Mathlib.Data.List.TakeWhile
import Marginalia.Proofs.Source.Insertion
import Marginalia.Proofs.Source.Slices

/-!
# What stands between tokens

Between two tokens, and before the end of a program, the tokenizer passes blanks, backslashes that
join two lines, and embedded documents, and nothing else (`Separates`). A step that passes one of
these is told by what is ahead (`Tokenizer.separator?`); every other step reads.
-/

namespace Marginalia.Source

/-! ## Embedded documents -/

theorem wordAhead_line {w : String} (hw : '\n' ∉ w.toList) (v : Text) :
    wordAhead w wordEnds (v ++ ['\n']) = wordAhead w wordEnds v := by
  unfold wordAhead
  generalize w.toList = w at hw
  induction w generalizing v with
  | nil => cases v <;> rfl
  | cons d w ih =>
    rw [List.mem_cons, not_or] at hw
    cases v with
    | nil =>
      show (if d == '\n' then List.isPrefixOf? w [] else none).any wordEnds = false
      rw [beq_false_of_ne (Ne.symm hw.1)]
      rfl
    | cons c v =>
      rw [List.cons_append, List.isPrefixOf?, List.isPrefixOf?]
      split
      · exact ih v hw.2
      · rfl

/-- The last line of an embedded document ends where a line of the program does. -/
theorem exists_last {t : Text} {k : Nat} (hk : k < (Text.pieces t).length) :
    ∃ last rest, ((Text.pieces t).drop k).flatten = last ++ rest ∧ '\n' ∉ last ∧
      (rest = [] ∨ rest.head? = some '\n') ∧
      ((Text.pieces t)[k] = last ∨ (Text.pieces t)[k] = last ++ ['\n']) := by
  rw [← List.getElem_cons_drop hk, List.flatten_cons]
  rcases Text.notMem_of_mem_pieces (List.getElem_mem hk) with ⟨v, hv, hline⟩ | open_
  · exact ⟨v, '\n' :: ((Text.pieces t).drop (k + 1)).flatten, by rw [hline, List.append_assoc]; rfl,
      hv, .inr rfl, .inr hline⟩
  · -- a piece that is not finished is the last
    have ended : (Text.pieces t).length ≤ k + 1 := by
      refine Nat.le_of_not_lt fun more => ?_
      obtain ⟨v, -, hline⟩ := Text.isLine_of_mem_take (.inl more) (Text.pieces t)[k]
        (List.mem_take_iff_getElem.2 ⟨k, by omega, rfl⟩)
      exact open_ (hline ▸ List.mem_append_right v List.mem_cons_self)
    rw [List.drop_of_length_le ended]
    exact ⟨_, [], rfl, open_, .inl rfl, .inl rfl⟩

/-- An embedded document without its last line feed: a line that starts with `=begin`, lines that do
not start with `=end`, and the characters of one that does. -/
structure IsDocument (first : Text) (inner : List Text) (last : Text) : Prop where
  opened : Text.IsLine first ∧ wordAhead "=begin" wordEnds first
  inside : ∀ l ∈ inner, Text.IsLine l ∧ wordAhead "=end" wordEnds l = false
  closed : '\n' ∉ last ∧ wordAhead "=end" wordEnds last

/-- The length of an embedded document is that of its lines, which end where a line ends. -/
theorem exists_document {t : Text} {length lines : Nat} (begins : wordAhead "=begin" wordEnds t)
    (h : embeddedDocument? t = some (length, lines)) :
    ∃ first inner last rest, IsDocument first inner last ∧
      t = (first ++ inner.flatten ++ last) ++ rest ∧ (rest = [] ∨ rest.head? = some '\n') ∧
      length = (first ++ inner.flatten ++ last).length := by
  obtain ⟨p, ps, k, hpieces, hk, -, rfl⟩ := embeddedDocument?_eq_some h
  obtain ⟨hps, closing, before⟩ := List.findIdx?_eq_some_iff_getElem.1 hk
  have above : ∀ q ∈ p :: ps.take k, Text.IsLine q := by
    have taken := Text.isLine_of_mem_take (t := t) (k := k + 1)
      (.inl (by rw [hpieces, List.length_cons]; omega))
    rw [hpieces] at taken
    exact taken
  have first := above p List.mem_cons_self
  obtain ⟨last, rest, hrest, notMem, ended, hlast⟩ := exists_last (t := t) (k := k + 1)
    (by rw [hpieces, List.length_cons]; omega)
  -- the document reaches up to the text of its last line
  have whole : t = p ++ (ps.take k).flatten ++ last ++ rest := by
    rw [hpieces, List.drop_succ_cons] at hrest
    rw [List.append_assoc, ← hrest, List.append_assoc, ← List.flatten_append, List.take_append_drop,
      ← List.flatten_cons, ← hpieces, Text.flatten_pieces]
  have hlast : ps[k] = last ∨ ps[k] = last ++ ['\n'] := by
    simpa only [hpieces, List.getElem_cons_succ] using hlast
  have all : ∀ c ∈ last, c != '\n' := fun c hc => bne_iff_ne.2 fun heq => notMem (heq ▸ hc)
  have cut : ps[k].takeWhile (· != '\n') = last ∧ wordAhead "=end" wordEnds last := by
    rcases hlast with same | line
    · rw [← same, List.takeWhile_eq_self_iff.2 (by rw [same]; exact all)]
      exact ⟨rfl, closing⟩
    · rw [line, wordAhead_line (by decide)] at closing
      rw [line, List.takeWhile_append_of_pos all]
      exact ⟨List.append_nil last, closing⟩
  refine ⟨p, ps.take k, last, rest, ⟨⟨first, ?_⟩, fun l hl => ?_, notMem, cut.2⟩, whole, ended, ?_⟩
  · obtain ⟨v, -, hline⟩ := first
    have lineFeed : '\n' ∈ p := hline ▸ List.mem_append_right v List.mem_cons_self
    rw [whole, List.append_assoc, List.append_assoc] at begins
    have noLineFeed : '\n' ∉ "=begin".toList := by decide
    rw [wordAhead, Tokenizer.wordAhead_append Tokenizer.wordEnds_cons noLineFeed lineFeed []]
      at begins
    rwa [List.append_nil] at begins
  · refine ⟨above l (List.mem_cons_of_mem p hl), ?_⟩
    obtain ⟨j, hj, rfl⟩ := List.mem_take_iff_getElem.1 hl
    exact Bool.eq_false_iff.2 (before j (by omega))
  · rw [List.getElem?_eq_getElem hps, Option.getD_some, cut.1, List.length_append,
      List.flatten_cons]

/-! ## Separators -/

/-- The texts that may separate tokens at a place of a program. -/
inductive Separator (source : Text) (p : Nat) : Text → Prop where
  | blank {c : Char} (one : c = ' ' ∨ c = '\t' ∨ c = '\r' ∨ c = '\x0c') : Separator source p [c]
  | join : Separator source p ['\\', '\n']
  | joinReturn : Separator source p ['\\', '\r', '\n']
  /-- A whole embedded document, which starts and ends with a line. -/
  | document {first last : Text} {inner : List Text} (starts : AtLineStart source p)
      (document : IsDocument first inner last)
      (ended : (source.drop (p + (first ++ inner.flatten ++ last).length)).head?.all (· == '\n')) :
      Separator source p (first ++ inner.flatten ++ last)

/-- Nothing but separators stands between two places of a program. -/
inductive Separates (source : Text) : Nat → Nat → Prop where
  | here (p : Nat) : Separates source p p
  | more {p q : Nat} {sep : Text} (before : Separates source p q) (ahead : sep <+: source.drop q)
      (next : Separator source q sep) : Separates source p (q + sep.length)

theorem Separates.le {source : Text} {p q : Nat} (h : Separates source p q) : p ≤ q := by
  induction h with
  | here => exact Nat.le_refl _
  | more _ _ _ ih => exact Nat.le_trans ih (Nat.le_add_right _ _)

namespace Tokenizer

/-- The separator at a place, if there is one: how many characters it takes. -/
def separator? (s : Tokenizer) : Option Nat :=
  match s.cursor.rest with
  | [] => none
  | c :: r =>
    if s.cursor.atLineStart && wordAhead "=begin" wordEnds (c :: r) then
      (embeddedDocument? (c :: r)).map Prod.fst
    else if c == ' ' || c == '\t' || c == '\r' || c == '\x0c' then some 1
    else if List.isPrefixOf ['\\', '\n'] (c :: r) then some 2
    else if List.isPrefixOf ['\\', '\r', '\n'] (c :: r) then some 3
    else none

variable {source : Text} {s t : Tokenizer} {found : List Finding}

/-- What is taken for a separator is one. -/
theorem exists_separator {n : Nat} (placed : s.cursor.At source) (h : s.separator? = some n) :
    ∃ sep, Separator source s.cursor.position sep ∧ sep <+: s.cursor.rest ∧ sep.length = n := by
  unfold separator? at h
  split at h
  · cases h
  · next c r hr =>
    rw [hr]
    split at h
    · next begins =>
      rw [Bool.and_eq_true] at begins
      obtain ⟨⟨length, lines⟩, hdoc, rfl⟩ := Option.map_eq_some_iff.1 h
      obtain ⟨first, inner, last, rest, document, whole, ended, hlength⟩ :=
        exists_document begins.2 hdoc
      refine ⟨_, .document (placed.lineStart.1 begins.1) document ?_, ⟨rest, whole.symm⟩,
        hlength.symm⟩
      -- the document ends at the end of the source or before a line feed
      have behind : source.drop (s.cursor.position + (first ++ inner.flatten ++ last).length) =
          rest := by
        rw [← List.drop_drop, ← placed.rest, hr, whole, List.drop_left]
      rw [behind]
      rcases ended with rfl | head
      · rfl
      · rw [head]
        rfl
    split at h
    · next one =>
      cases h
      simp only [Bool.or_eq_true, beq_iff_eq, or_assoc] at one
      exact ⟨[c], .blank one, List.prefix_append [c] r, rfl⟩
    split at h
    · next join =>
      cases h
      exact ⟨_, .join, List.isPrefixOf_iff_prefix.1 join, rfl⟩
    split at h
    · next join =>
      cases h
      exact ⟨_, .joinReturn, List.isPrefixOf_iff_prefix.1 join, rfl⟩
    · cases h

/-- A step passes the separator ahead, or there is none and it reads. -/
theorem next_of_separator? (h : s.step = .next found t) :
    (∃ n spaced, s.separator? = some n ∧
      t = { s with cursor := s.cursor.advance n, spaced := spaced } ∧ tokensOf found = []) ∨
    s.separator? = none ∧ Reads s.origin s.cursor (.next found t) := by
  have finished : ∀ before, s.finish before ≠ .next found t := fun before h => by
    unfold Tokenizer.finish at h
    split at h <;> cases h
  unfold separator?
  unfold step at h
  -- the cases of a step in their order, beside those of `separator?`
  cases hr : s.cursor.rest with
  | nil =>
    rw [hr] at h
    dsimp only at h
    split at h
    · cases h
    · exact absurd h (finished _)
  | cons c r =>
    rw [hr] at h
    dsimp only at h ⊢
    split at h
    · next begins =>
      rw [if_pos begins]
      split at h
      · next length lines hdoc =>
        cases h
        rw [hdoc]
        exact .inl ⟨length, s.spaced, rfl, rfl, rfl⟩
      · cases h
    · next plain =>
      rw [if_neg plain]
      split at h
      · exact absurd h (finished _)
      split at h
      · next one =>
        cases h
        rw [if_pos one]
        exact .inl ⟨1, true, rfl, rfl, rfl⟩
      · next solid =>
        rw [if_neg solid]
        split at h
        · next join =>
          cases h
          rw [if_pos join]
          exact .inl ⟨2, true, rfl, rfl, rfl⟩
        · next apart =>
          rw [if_neg apart]
          split at h
          · next join =>
            cases h
            rw [if_pos join]
            exact .inl ⟨3, true, rfl, rfl, rfl⟩
          · next apart =>
            rw [if_neg apart, ← h]
            exact .inr ⟨rfl, (s.takes c r).reads⟩

end Tokenizer

end Marginalia.Source
