import Marginalia.Proofs.Annotation.Again
import Marginalia.Proofs.Annotation.Remains
import Marginalia.Proofs.Engine.Session

/-!
# The line feed at the end

A program is kept with a line feed at its end, and loses it again at the end if it was added. What
is left of it when its annotations are removed is nothing (`Forgotten`), or it ends in one line feed
where the line feed was added (`endsOnce_of_cleans`). An annotated program does so too, unless its
last appended line is empty (`endsOnce_annotateWith`). From this it follows which of the programs of
an engine end in a line feed (`Engine.endsInLineFeed_of_ofProgram`).
-/

namespace Marginalia

open Source

/-! ## Texts that end in one line feed -/

namespace Text

/-- A text that ends in a line feed, with no other directly before. -/
def EndsOnce (t : Text) : Prop := ∃ u : Text, t = u ++ ['\n'] ∧ u.getLast? ≠ some '\n'

theorem endsOnce_lineFeed : EndsOnce ['\n'] := ⟨[], rfl, by decide⟩

/-- A text that is put behind another ends once, if its last line does. -/
theorem endsOnce_append {t u : Text} (some : u ≠ []) (line : '\n' ∉ u) :
    EndsOnce (t ++ (u ++ ['\n'])) := by
  refine ⟨t ++ u, (List.append_assoc ..).symm, fun h => line ?_⟩
  rw [List.getLast?_append_of_ne_nil t some] at h
  exact List.mem_of_getLast? h

end Text

namespace Program

variable {source t : Text}

/-- A text ends in a line feed if that is its last character. -/
theorem endsInLineFeed_iff : endsInLineFeed t ↔ t.getLast? = some '\n' := beq_iff_eq

/-- A text with finished lines ends in a line feed unless it is empty. -/
theorem endsInLineFeed_iff_ne_nil (closed : t.Closed) : endsInLineFeed t ↔ t ≠ [] := by
  rw [endsInLineFeed_iff]
  refine ⟨?_, closed.resolve_left⟩
  rintro h rfl
  cases h

/-- A program that ends in a line feed keeps it. -/
theorem restoreNewline_of_endsInLineFeed (h : endsInLineFeed source) (t : Text) :
    (ofSource source).restoreNewline t = t := by
  unfold restoreNewline ofSource
  rw [if_pos h]
  rfl

/-- If the line feed at the end of a program was added, one is taken away from a text. -/
theorem endsInLineFeed_restoreNewline (h : ¬ endsInLineFeed source) (closed : t.Closed) :
    endsInLineFeed ((ofSource source).restoreNewline t) ↔ t ≠ [] ∧ ¬ t.EndsOnce := by
  unfold restoreNewline ofSource
  rw [if_neg h, Bool.true_and]
  rcases closed with rfl | ends
  · exact ⟨fun h => (nomatch h), fun h => absurd rfl h.1⟩
  · rw [if_pos (endsInLineFeed_iff.2 ends)]
    obtain ⟨u, rfl⟩ := List.getLast?_eq_some_iff.1 ends
    rw [List.dropLast_concat, endsInLineFeed_iff]
    constructor
    · intro last
      refine ⟨List.append_ne_nil_of_right_ne_nil u (List.cons_ne_nil _ _), ?_⟩
      rintro ⟨v, same, other⟩
      exact other (List.append_cancel_right same ▸ last)
    · rintro ⟨-, twice⟩
      exact Classical.byContradiction fun last => twice ⟨u, rfl, last⟩

/-- A program that does not end in a line feed gets one. -/
theorem body_of_not_endsInLineFeed (h : ¬ endsInLineFeed source) :
    (ofSource source).body = source ++ ['\n'] := by
  unfold ofSource
  rw [if_neg h]

end Program

/-! ## Programs of which nothing is left -/

section Cleaned

variable {body prepared piece : Text} {before after : List Text} {l : Layout} {m : Markers}
  {s : Scan} {k : Kept}

/-- Something is left of a line that does not go. -/
theorem Fate.eq_dropped (hp : Text.pieces body = before ++ piece :: after)
    (fate : Fate body l m before piece k) (nothing : k.text = []) : k = .dropped := by
  cases fate with
  | whole =>
    have mem : piece ∈ Text.pieces body := by
      rw [hp]
      exact List.mem_append_right before List.mem_cons_self
    exact absurd nothing (Text.ne_nil_of_mem_pieces mem)
  | cut _ some => exact absurd (List.append_eq_nil_iff.1 nothing).1 some
  | noted | empty => rfl

/-- A line that is dropped is bare. -/
theorem Fate.bare (fate : Fate body l m before piece .dropped) :
    Bare body l m before.flatten.length piece := by
  cases fate with
  | noted noted => exact .inr (.inr ⟨_, _, noted⟩)
  | empty empty => exact or_assoc.1 (.inl empty)

/-- A program of which every line is empty or an annotation, and one at least is an annotation. -/
def Forgotten (body : Text) (m : Markers) : Prop :=
  ∃ s, scan body = .ok (.ok s) ∧ Spent body s.layout m 0

/-- Nothing is left of a program just if all its lines are forgotten. -/
theorem eq_nil_iff_forgotten (ends : body.getLast? = some '\n')
    (cleans : removeAnnotations body m = .ok prepared) : prepared = [] ↔ Forgotten body m := by
  have full : body ≠ [] := by
    rintro rfl
    cases ends
  constructor
  · rintro rfl
    obtain ⟨e, -, rfl⟩ | ⟨s, hscan, -⟩ := removeAnnotations_eq_ok cleans
    · exact absurd rfl full
    · refine ⟨s, hscan, ?_⟩
      obtain ⟨fates, pared, text⟩ := exists_pared hscan cleans
      -- nothing is left of any line, and so all lines were dropped
      have gone : ∀ before piece after, Text.pieces body = before ++ piece :: after →
          Fate body s.layout m before piece .dropped := by
        intro before piece after hp
        obtain ⟨k, hk, fate⟩ := pared.fate before piece after hp
        have nothing := List.flatMap_eq_nil_iff.1 text.symm k (List.mem_of_getElem? hk)
        exact fate.eq_dropped hp nothing ▸ fate
      cases hp : Text.pieces body with
      | nil =>
        have none := Text.flatten_pieces body
        rw [hp] at none
        exact absurd none.symm full
      | cons piece after =>
        cases gone [] piece after hp with
        | noted noted =>
          exact ⟨0, Nat.le_refl 0, fun before piece after hp _ => (gone before piece after hp).bare,
            [], piece, after, hp, Nat.le_refl 0, _, _, noted⟩
        | empty _ spent => exact spent
  · rintro ⟨s, accepted, spent⟩
    have removes := cleans
    rw [removeAnnotations_of_scan m accepted] at removes
    have counted := (removeWith_answers_iff accepted).1 ⟨prepared, removes⟩
    obtain ⟨fates, pared, rfl⟩ := exists_pared accepted cleans
    refine List.flatMap_eq_nil_iff.2 fun k hk => ?_
    obtain ⟨j, hj⟩ := List.getElem?_of_mem hk
    obtain ⟨before, piece, after, hp, -, fate⟩ := pared.exists_line hj
    rw [fate.dropped_of_spent accepted counted hp (spent.mono (Nat.zero_le _))]
    rfl

/-- What is left of a line ends in one line feed, unless the line is empty. -/
theorem Fate.line (line : Text.IsLine piece) (fate : Fate body l m before piece k) :
    k = .dropped ∨ k = .whole ['\n'] ∨ ∃ u : Text, u ≠ [] ∧ '\n' ∉ u ∧ k.text = u ++ ['\n'] := by
  cases fate with
  | whole =>
    obtain ⟨u, hu, rfl⟩ := line
    by_cases empty : u = []
    · rw [empty]
      exact .inr (.inl rfl)
    · exact .inr (.inr ⟨u, empty, hu, rfl⟩)
  | @cut code blanks c noted some =>
    obtain ⟨u, hu, ended⟩ := (Text.isLine_terminator line).2
    refine .inr (.inr ⟨code ++ u, List.append_ne_nil_of_left_ne_nil some u, ?_, ?_⟩)
    · obtain ⟨v, hv, rfl⟩ := line
      obtain ⟨feed, -, split⟩ := noted.split
      rw [List.mem_append, not_or]
      refine ⟨fun hm => ?_, hu⟩
      -- the code does not end in a blank, and so not in the line feed
      have front : code <+: v ++ ['\n'] := ⟨blanks ++ c.text body ++ feed, by rw [split]; simp⟩
      rcases List.prefix_concat_iff.1 front with whole | front
      · have visible := noted.visible '\n' (by rw [whole, List.getLast?_concat])
        cases visible
      · exact hv (front.subset hm)
    · show code ++ Text.terminator piece = _
      rw [ended, List.append_assoc]
  | noted | empty => exact .inl rfl

/-- An empty line before lines that go goes with them. -/
theorem Pared.not_empty_before_dropped {fates : List Kept} (pared : Pared body s m fates)
    (hp : Text.pieces body = before ++ ['\n'] :: after)
    (stays : fates[before.length]? = some (.whole ['\n']))
    (gone : ∀ j, before.length < j → ∀ k, fates[j]? = some k → k = .dropped) : after = [] := by
  cases after with
  | nil => rfl
  | cons next after =>
    exfalso
    have dropped : ∀ before' piece' after', Text.pieces body = before' ++ piece' :: after' →
        before.length < before'.length → Fate body s.layout m before' piece' .dropped := by
      intro before' piece' after' hp' lt
      obtain ⟨k, hk, fate⟩ := pared.fate before' piece' after' hp'
      exact gone _ lt k hk ▸ fate
    have bare : ∀ before' piece' after', Text.pieces body = before' ++ piece' :: after' →
        before.length ≤ before'.length → Bare body s.layout m before'.flatten.length piece' := by
      intro before' piece' after' hp' le
      rcases Nat.eq_or_lt_of_le le with same | lt
      · rw [hp] at hp'
        exact .inl (List.cons.inj (List.append_inj hp' same).2).1.symm
      · exact (dropped before' piece' after' hp' lt).bare
    have hnext : Text.pieces body = (before ++ [['\n']]) ++ next :: after := by
      rw [hp, List.append_assoc]
      rfl
    have longer : before.length < (before ++ [['\n']]).length := by
      rw [List.length_append]
      exact Nat.lt_succ_self _
    -- the next line is dropped, and whatever spends it spends the empty line too
    have spent : Spent body s.layout m before.length := by
      cases dropped _ next after hnext longer with
      | noted noted =>
        exact ⟨before.length, Nat.le_refl _, bare, _, next, after, hnext, Nat.le_of_lt longer, _,
          _, noted⟩
      | empty _ spent =>
        obtain ⟨first, -, bareFrom, b, p, a, hb, behind, blanks, c, noted⟩ := spent
        by_cases early : first ≤ before.length
        · exact ⟨first, early, bareFrom, b, p, a, hb, behind, blanks, c, noted⟩
        · exact ⟨before.length, Nat.le_refl _, bare, b, p, a, hb, by omega, blanks, c, noted⟩
    obtain ⟨k, hk, fate⟩ := pared.fate before ['\n'] (next :: after) hp
    rw [stays] at hk
    cases hk
    cases fate with
    | whole _ stays => exact stays ⟨.inl rfl, spent⟩

/-- Where the line feed at the end was added, the last line is empty only if it is the only one. -/
theorem Text.eq_nil_of_empty_last {source : Text} (h : source.getLast? ≠ some '\n')
    (hp : Text.pieces (source ++ ['\n']) = before ++ [['\n']]) : before = [] := by
  have whole := Text.flatten_pieces (source ++ ['\n'])
  rw [hp, List.flatten_append, List.flatten_singleton] at whole
  have rest : before.flatten = source := List.append_cancel_right whole
  have lines : ∀ p ∈ before, Text.IsLine p := fun p hp' =>
    Text.Closed.isLine (.inr List.getLast?_concat) p (hp ▸ List.mem_append_left _ hp')
  have closed : Text.Closed before.flatten := Text.closed_flatten fun p hp' => (lines p hp').closed
  have empty : before.flatten = [] := closed.resolve_right (rest ▸ h)
  refine List.eq_nil_iff_forall_not_mem.2 fun p hp' => ?_
  obtain ⟨u, -, rfl⟩ := lines p hp'
  exact absurd (List.flatten_eq_nil_iff.1 empty _ hp') (List.concat_ne_nil _ u)

/-- What is left of a program whose line feed at the end was added is nothing, or ends in one line
feed. -/
theorem endsOnce_of_cleans {source : Text} (h : ¬ Program.endsInLineFeed source)
    (cleans : removeAnnotations (Program.ofSource source).body m = .ok prepared) :
    prepared = [] ∨ prepared.EndsOnce := by
  rw [Program.body_of_not_endsInLineFeed h] at cleans
  rw [Program.endsInLineFeed_iff] at h
  have lines : ∀ p ∈ Text.pieces (source ++ ['\n']), Text.IsLine p :=
    Text.Closed.isLine (.inr List.getLast?_concat)
  obtain ⟨e, -, rfl⟩ | ⟨s, hscan, -⟩ := removeAnnotations_eq_ok cleans
  · exact .inr ⟨source, rfl, h⟩
  · obtain ⟨fates, pared, rfl⟩ := exists_pared hscan cleans
    -- the last line of which something is left
    obtain ⟨gone, split, all⟩ := Text.eq_dropEndWhile_append (· == Kept.dropped) fates
    have last : ∀ k, (Text.dropEndWhile (· == Kept.dropped) fates).getLast? = some k →
        k ≠ .dropped := by
      intro k hk
      have stays := Text.getLast?_dropEndWhile hk
      exact beq_eq_false_iff_ne.1 stays
    generalize Text.dropEndWhile (· == Kept.dropped) fates = left at split last
    have nothing : gone.flatMap Kept.text = [] := List.flatMap_eq_nil_iff.2 fun k hk => by
      rw [beq_iff_eq.1 (List.all_eq_true.1 all k hk)]
      rfl
    rw [split, List.flatMap_append, nothing, List.append_nil]
    rcases List.eq_nil_or_concat left with rfl | ⟨front, k, rfl⟩
    · exact .inl rfl
    · rw [List.concat_eq_append] at split last ⊢
      right
      have hk : fates[front.length]? = some k := by
        rw [split, List.getElem?_append_left (by simp), List.getElem?_concat_length]
      obtain ⟨before, piece, after, hp, length, fate⟩ := pared.exists_line hk
      have line := lines piece (by rw [hp]; exact List.mem_append_right before List.mem_cons_self)
      rw [List.flatMap_append, List.flatMap_singleton]
      rcases fate.line line with dropped | rfl | ⟨u, some, hu, text⟩
      · exact absurd dropped (last k List.getLast?_concat)
      · -- an empty line that stays is the only one
        cases fate with
        | whole =>
          have none : after = [] := by
            refine pared.not_empty_before_dropped hp (length ▸ hk) fun j lt k hj => ?_
            rw [split, List.getElem?_append_right (by simp; omega)] at hj
            exact beq_iff_eq.1 (List.all_eq_true.1 all k (List.mem_of_getElem? hj))
          have first : before = [] := Text.eq_nil_of_empty_last h (by rw [hp, none])
          rw [first] at length
          rw [List.eq_nil_of_length_eq_zero length.symm]
          exact Text.endsOnce_lineFeed
      · rw [text]
        exact Text.endsOnce_append some hu

end Cleaned

/-! ## Appended lines -/

/-- The last part of a text is empty if the text is, or if it ends where it is split. -/
theorem Text.getLast?_splitOn (c : Char) (t : Text) :
    (t.splitOn c).getLast? = some [] ↔ t = [] ∨ t.getLast? = some c := by
  induction t with
  | nil => exact ⟨fun _ => .inl rfl, fun _ => rfl⟩
  | cons d r ih =>
    have last : (d :: r).getLast? = some c ↔ r = [] ∧ d = c ∨ r.getLast? = some c := by
      cases r with
      | nil => simp
      | cons x r => rw [List.getLast?_cons_cons]; simp
    rw [or_iff_right (List.cons_ne_nil d r), last]
    rw [List.splitOn_cons_eq_if_modifyHead]
    by_cases hd : d = c
    · rw [if_pos (beq_iff_eq.2 hd), and_iff_left hd, ← ih]
      cases hs : r.splitOn c with
      | nil => exact absurd hs (List.splitOn_ne_nil c r)
      | cons p ps => rw [List.getLast?_cons_cons]
    · rw [if_neg (mt beq_iff_eq.1 hd), or_iff_right (mt And.right hd)]
      cases hs : r.splitOn c with
      | nil => exact absurd hs (List.splitOn_ne_nil c r)
      | cons p ps =>
        rw [List.modifyHead_cons]
        cases ps with
        | nil =>
          -- the text is not split at all
          have count := length_splitOn c r
          rw [hs] at count
          have absent : c ∉ r := List.count_eq_zero.1 (Nat.succ.inj count).symm
          refine ⟨fun h => ?_, fun h => absurd (List.mem_of_getLast? h) absent⟩
          cases h
        | cons q ps =>
          rw [hs, List.getLast?_cons_cons] at ih
          rw [List.getLast?_cons_cons, ih]
          refine or_iff_right ?_
          rintro rfl
          cases hs

/-- A block ends in an empty line just if its last text ends in a line feed. -/
theorem getLast?_blockLines {marker : Text} (plain : '\n' ∉ marker)
    (visible : Text.trimEnd marker ≠ []) {lines : List Text} {t : Text}
    (last : lines.getLast? = some t) :
    (blockLines marker lines).getLast? = some [] ↔ t.getLast? = some '\n' := by
  obtain ⟨front, rfl⟩ := List.getLast?_eq_some_iff.1 last
  unfold blockLines
  rw [List.flatMap_append, List.flatMap_singleton, ← List.cons_append,
    List.getLast?_append_of_ne_nil _ (List.splitOn_ne_nil _ _), Text.getLast?_splitOn]
  cases t with
  | nil =>
    rw [List.isEmpty_nil, if_pos rfl, or_iff_right visible]
    exact ⟨fun h => absurd (List.mem_of_getLast? h) (Text.notMem_trimEnd plain), fun h => nomatch h⟩
  | cons c t =>
    rw [List.isEmpty_cons, if_neg Bool.false_ne_true,
      List.getLast?_append_of_ne_nil marker (List.cons_ne_nil c t)]
    exact or_iff_right (List.append_ne_nil_of_right_ne_nil marker (List.cons_ne_nil c t))

/-- The last appended line is empty just if the last text that describes the exception ends in a
line feed. -/
theorem getLast?_appendedLines (r : EvalResult) : (appendedLines r).getLast? = some [] ↔
    ∃ e t, r.lastException = some e ∧ (exceptionLines e).getLast? = some t ∧
      t.getLast? = some '\n' := by
  unfold appendedLines
  cases hexception : r.lastException with
  | some e =>
    have described : exceptionLines e ≠ [] :=
      List.append_ne_nil_of_left_ne_nil (List.cons_ne_nil _ _) _
    obtain ⟨t, ht⟩ := Option.isSome_iff_exists.1 (List.getLast?_isSome.2 described)
    dsimp only
    rw [List.getLast?_append_of_ne_nil _ (show blockLines _ _ ≠ [] from List.cons_ne_nil _ _),
      getLast?_blockLines (by decide) (by decide) ht]
    refine ⟨fun ends => ⟨e, t, rfl, ht, ends⟩, ?_⟩
    rintro ⟨_, u, he, hu, ends⟩
    cases he
    rw [ht] at hu
    exact Option.some.inj hu ▸ ends
  | none =>
    rw [List.append_nil]
    constructor
    · intro last
      exfalso
      split at last
      · cases last
      · next some =>
        -- lines of output hold no line feeds
        have full : Text.lines r.stdout ≠ [] := by
          unfold Text.lines
          intro none
          have none := Text.flatten_pieces r.stdout ▸ congrArg List.flatten
            (List.map_eq_nil_iff.1 none)
          exact some (List.isEmpty_iff.2 none)
        obtain ⟨t, ht⟩ := Option.isSome_iff_exists.1 (List.getLast?_isSome.2 full)
        rw [getLast?_blockLines (by decide) (by decide) ht] at last
        exact Text.lineFeed_notMem_of_mem_lines (List.mem_of_getLast? ht)
          (List.mem_of_getLast? last)
    · rintro ⟨_, _, he, -⟩
      cases he

/-! ## Annotated programs -/

section Annotated

variable {l : Layout} {body : Text} {r : EvalResult} {o : AnnotateOptions}

/-- The lines of an annotated program are finished. -/
theorem isLine_of_mem_annotatedLines (markers : o.markers = {}) (closed : body.Closed) {p : Text}
    (hp : p ∈ annotatedLines l body r o) : Text.IsLine p := by
  rw [annotatedLines_eq] at hp
  obtain ⟨row, hrow, rfl⟩ := List.mem_map.1 hp
  exact isLine_renderLine (markers ▸ Markers.oneLine_default) (isLine_of_mem_rows closed hrow)

/-- An annotated program has its lines, and then those that are appended. -/
theorem annotateWith_eq_append (markers : o.markers = {}) (closed : body.Closed) :
    annotateWith l body r o = (annotatedLines l body r o).flatten ++
      ((appendedLines r).map (· ++ ['\n'])).flatten := by
  rw [← Text.flatten_pieces (annotateWith l body r o), pieces_annotateWith markers closed,
    pieces_appended, List.flatten_append]

/-- An annotated program is closed. -/
theorem closed_annotated (markers : o.markers = {}) (closed : body.Closed) :
    Text.Closed (annotateWith l body r o) := by
  rw [annotateWith_eq_append markers closed]
  refine (Text.closed_flatten fun p hp => ?_).append (Text.closed_flatten fun p hp => ?_)
  · exact (isLine_of_mem_annotatedLines markers closed hp).closed
  · obtain ⟨t, -, rfl⟩ := List.mem_map.1 hp
    exact .inr List.getLast?_concat

/-- Nothing is written if there are neither lines nor anything to append. -/
theorem annotateWith_eq_nil (markers : o.markers = {}) (closed : body.Closed) :
    annotateWith l body r o = [] ↔ body = [] ∧ appendedLines r = [] := by
  have empty (t : Text) : Text.pieces t = [] ↔ t = [] := by
    refine ⟨fun h => ?_, fun h => h ▸ rfl⟩
    rw [← Text.flatten_pieces t, h]
    rfl
  rw [← empty, pieces_annotateWith markers closed, List.append_eq_nil_iff,
    ← List.length_eq_zero_iff, length_annotatedLines, List.length_eq_zero_iff, empty,
    pieces_appended, List.map_eq_nil_iff]

/-- A line on which something is written is not empty. -/
theorem renderLine_ne_lineFeed {column line : Nat} {piece : Text} {cs : List Capture}
    (hw : written l r line = some cs) : renderLine l r o column line piece ≠ ['\n'] := by
  rw [renderLine_of_written o hw]
  intro h
  have some : padding column piece ≠ [] := padding_ne_nil
  obtain ⟨c, hc⟩ := List.exists_mem_of_ne_nil _ some
  have mem : c ∈ ['\n'] := by
    rw [← h]
    exact List.mem_append_left _ (List.mem_append_left _ (List.mem_append_right _ hc))
  exact absurd (List.mem_singleton.1 mem) (oneLine_padding c hc).1

/-- A line that is empty in the annotated program is so before. -/
theorem renderLine_eq_lineFeed {row : (Text × Nat) × Nat}
    (h : renderLine l r o row.2 row.1.2 row.1.1 = ['\n']) : row.1.1 = ['\n'] := by
  cases hw : written l r row.1.2 with
  | none => rwa [renderLine_of_not_written o hw] at h
  | some cs => exact absurd h (renderLine_ne_lineFeed hw)

/-- Let nothing be left of a program, or let it end in one line feed. Then the annotated program
ends in two line feeds just if the last appended line is empty. -/
theorem endsOnce_annotateWith (markers : o.markers = {}) (closed : body.Closed)
    (once : body = [] ∨ body.EndsOnce) :
    annotateWith l body r o ≠ [] ∧ ¬ (annotateWith l body r o).EndsOnce ↔
      (appendedLines r).getLast? = some [] := by
  have lines := fun p hp =>
    isLine_of_mem_annotatedLines (l := l) (r := r) markers closed (p := p) hp
  rw [Ne, annotateWith_eq_nil markers closed, annotateWith_eq_append markers closed]
  rcases List.eq_nil_or_concat (appendedLines r) with none | ⟨front, t, split⟩
  · -- the last line of the program is the last of the annotated program
    rw [none, List.map_nil, List.flatten_nil, List.append_nil, and_iff_left rfl]
    refine ⟨fun ⟨full, twice⟩ => absurd ?_ twice, fun h => nomatch h⟩
    obtain ⟨u, hu, single⟩ := once.resolve_left full
    have pieces := map_rows_pieces l body o.alignment
    have whole := Text.flatten_pieces body
    rw [annotatedLines_eq] at lines ⊢
    rcases List.eq_nil_or_concat (rows l body o.alignment) with nothing | ⟨front, row, hrows⟩
    · rw [← pieces, nothing] at whole
      exact absurd whole.symm full
    · rw [List.concat_eq_append] at hrows
      rw [hrows, List.map_append, List.map_singleton] at lines ⊢
      obtain ⟨v, hv, line⟩ := lines _ (List.mem_append_right _ (List.mem_singleton_self _))
      rw [List.flatten_append, List.flatten_singleton, line]
      by_cases empty : v = []
      · -- an empty last line is the only one
        rw [empty] at line
        have blank := renderLine_eq_lineFeed line
        rw [hrows, List.map_append, List.map_singleton, blank] at pieces
        rw [← pieces, List.flatten_append, List.flatten_singleton, hu] at whole
        have before := Text.isLine_before pieces.symm
        have ended : Text.Closed (front.map fun row => row.1.1).flatten :=
          Text.closed_flatten fun p hp => (before p hp).closed
        have first := ended.resolve_right (List.append_cancel_right whole ▸ single)
        have none : front = [] := List.eq_nil_iff_forall_not_mem.2 fun row hrow => by
          have hp := List.mem_map_of_mem (f := fun row : (Text × Nat) × Nat => row.1.1) hrow
          obtain ⟨w, -, hw⟩ := before _ hp
          have nothing := List.flatten_eq_nil_iff.1 first _ hp
          rw [hw] at nothing
          exact List.append_ne_nil_of_right_ne_nil w (List.cons_ne_nil _ _) nothing
        rw [none, empty]
        exact Text.endsOnce_lineFeed
      · exact Text.endsOnce_append empty hv
  · -- the last appended line is the last of the annotated program
    rw [List.concat_eq_append] at split
    rw [split, List.getLast?_concat, List.map_append, List.map_singleton, List.flatten_append,
      List.flatten_singleton, ← List.append_assoc]
    by_cases empty : t = []
    · rw [empty]
      refine ⟨fun _ => rfl, fun _ =>
        ⟨fun h => List.append_ne_nil_of_right_ne_nil front (List.cons_ne_nil _ _) h.2, ?_⟩⟩
      rintro ⟨u, hu, single⟩
      have rest := List.append_cancel_right (show _ ++ ['\n'] = u ++ ['\n'] from hu)
      -- a line with a marker stands before the empty one
      obtain ⟨v, mem, marked⟩ := exists_isAnnotation_of_appendedLines (r := r)
        (by rw [split]; exact List.append_ne_nil_of_right_ne_nil front (List.cons_ne_nil _ _))
      rw [split, empty, List.mem_append, List.mem_singleton] at mem
      have earlier : v ∈ front := mem.resolve_right fun h => by
        rw [h] at marked
        revert marked
        decide
      have some : (front.map (· ++ ['\n'])).flatten ≠ [] := fun h =>
        List.append_ne_nil_of_right_ne_nil v (List.cons_ne_nil _ _)
          (List.flatten_eq_nil_iff.1 h _ (List.mem_map_of_mem earlier))
      have closed : Text.Closed (front.map (· ++ ['\n'])).flatten :=
        Text.closed_flatten fun p hp => by
        obtain ⟨w, -, rfl⟩ := List.mem_map.1 hp
        exact .inr List.getLast?_concat
      rw [← rest, List.getLast?_append_of_ne_nil _ some] at single
      exact single (closed.resolve_left some)
    · refine ⟨fun h => absurd (Text.endsOnce_append empty ?_) h.2, fun h =>
        absurd (Option.some.inj h) empty⟩
      exact lineFeed_notMem_appendedLines
        (by rw [split]; exact List.mem_append_right _ (List.mem_singleton_self t))

end Annotated

/-! ## Engines -/

namespace Engine

open Program (endsInLineFeed endsInLineFeed_iff endsInLineFeed_iff_ne_nil)

variable {p : Program} {o : EvalOptions} {a : AnnotateOptions} {e : Engine} {runner : Runner}

/-- After an evaluation there is an annotated program. -/
theorem annotatedBody_of_evaluate {out : Outcome} (ended : (e.evaluate runner).1 = .ok out) :
    (e.evaluate runner).2.annotatedBody = .ok (e.bodyFor out) := by
  unfold evaluate at ended ⊢
  cases hdemand : e.demand with
  | known known =>
    rw [hdemand] at ended
    rw [← Except.ok.inj ended]
    rfl
  | refused failure =>
    rw [hdemand] at ended
    cases ended
  | run body =>
    rw [hdemand] at ended
    dsimp only at ended ⊢
    cases hrun : runner body e.options with
    | error failure =>
      rw [hrun] at ended
      cases ended
    | ok r =>
      rw [hrun] at ended
      rw [← Except.ok.inj ended]
      rfl

/-- The prepared program ends in a line feed, and the cleaned one does so if the source does, unless
every line of the source is empty or an annotation. After a run that was completed the annotated
program ends in a line feed if the source does, unless nothing is left and nothing appended; if the
source does not, then only where the last text that describes the exception ends in one. -/
theorem endsInLineFeed_of_ofProgram {source : Text}
    (made : ofProgram (.ofSource source) o a = .ok e) :
    let forgotten := Forgotten (Program.ofSource source).body a.markers
    (endsInLineFeed e.prepared ↔ ¬ forgotten) ∧
    (endsInLineFeed e.cleanedBody ↔ endsInLineFeed source ∧ ¬ forgotten) ∧
    (a.markers = {} → ∀ runner result, (e.evaluate runner).1 = .ok (.success result) →
      ∃ text, (e.evaluate runner).2.annotatedBody = .ok text ∧
        (endsInLineFeed text ↔
          endsInLineFeed source ∧ ¬ (forgotten ∧ appendedLines result = []) ∨
          ¬ endsInLineFeed source ∧ ∃ x t, result.lastException = some x ∧
            (exceptionLines x).getLast? = some t ∧ endsInLineFeed t)) := by
  intro forgotten
  obtain ⟨program, options, -, cleans, -⟩ := ofProgram_eq_ok made
  have ends := endsInLineFeed_iff.1 (Program.endsInLineFeed_body_ofSource source)
  have closed : e.prepared.Closed := closed_removeAnnotations (.inr ends) cleans
  have left : e.prepared = [] ↔ forgotten := eq_nil_iff_forgotten ends cleans
  refine ⟨(endsInLineFeed_iff_ne_nil closed).trans (not_congr left), ?_, ?_⟩
  · unfold cleanedBody
    rw [program]
    by_cases h : endsInLineFeed source
    · rw [Program.restoreNewline_of_endsInLineFeed h, endsInLineFeed_iff_ne_nil closed,
        and_iff_right h]
      exact not_congr left
    · rw [Program.endsInLineFeed_restoreNewline h closed]
      have once := endsOnce_of_cleans h cleans
      exact ⟨fun ⟨full, twice⟩ => absurd (once.resolve_left full) twice, fun both =>
        absurd both.1 h⟩
  · intro markers runner result ended
    refine ⟨_, annotatedBody_of_evaluate ended, ?_⟩
    show endsInLineFeed
      (e.program.restoreNewline (annotateWith e.layout e.prepared result e.annotateOptions)) ↔ _
    have plain : e.annotateOptions.markers = {} := options ▸ markers
    have finished := closed_annotated (l := e.layout) (r := result) plain closed
    rw [program]
    by_cases h : endsInLineFeed source
    · rw [Program.restoreNewline_of_endsInLineFeed h, endsInLineFeed_iff_ne_nil finished, Ne,
        annotateWith_eq_nil plain closed, left, and_iff_right h, or_iff_left fun both => both.1 h]
    · -- the added line feed is taken off again, so that another one has to stand before it
      rw [Program.endsInLineFeed_restoreNewline h finished,
        endsOnce_annotateWith plain closed (endsOnce_of_cleans h cleans), getLast?_appendedLines,
        or_iff_right fun both => h both.1, and_iff_right h]
      simp only [endsInLineFeed_iff]

/-- A program without a line feed at its end, of which the last line goes. -/
theorem endsInLineFeed_of_ofProgram_last :
    let source := "x = 1\n# => 2".toList
    let runner : Runner :=
      fun _ _ => .ok ⟨[.event (.value 1 "1".toList), .event (.stdout "hi\n".toList)], .completed⟩
    ∃ e, ofProgram (.ofSource source) {} (.aligned .chunk) = .ok e ∧ endsInLineFeed e.prepared ∧
      ¬ endsInLineFeed e.cleanedBody ∧
      ∃ text, (e.evaluate runner).2.annotatedBody = .ok text ∧ ¬ endsInLineFeed text := by
  intro source runner
  let prepared := "x = 1\n".toList
  let run : Run := ⟨[.event (.value 1 "1".toList), .event (.stdout "hi\n".toList)], .completed⟩
  have checked : ∃ s ∈ scanFor 20 (Program.ofSource source).body,
      removeWith (Program.ofSource source).body s.layout {} = .ok prepared := by
    decide +kernel
  have again : (scanFor 20 prepared).isSome := by decide +kernel
  obtain ⟨s, hs, removed⟩ := checked
  obtain ⟨t, ht⟩ := Option.isSome_iff_exists.1 again
  have made := ofProgram_of_scan (p := .ofSource source) (a := .aligned .chunk) {}
    ((removeAnnotations_of_scan {} (scan_of_scanFor hs)).trans removed) (scan_of_scanFor ht)
  obtain ⟨left, cleaned, annotated⟩ := endsInLineFeed_of_ofProgram made
  have bare : ¬ endsInLineFeed source := by decide
  have asks := demand_of_accepted
    (e := ofScan (.ofSource source) {} (.aligned .chunk) prepared t) rfl rfl rfl
  have ended := congrArg Prod.fst (evaluate_of_run asks (show runner _ _ = .ok run from rfl))
  obtain ⟨text, htext, ends⟩ := annotated rfl runner _ ended
  have finished : endsInLineFeed prepared := by decide
  refine ⟨_, made, finished, fun h => bare (cleaned.1 h).1, text, htext, fun h => ?_⟩
  obtain ⟨h, -⟩ | ⟨-, _, _, he, -⟩ := ends.1 h
  · exact bare h
  · cases he

/-- Nothing is left of a program that is one annotation, though it ends in a line feed. -/
theorem not_endsInLineFeed_of_ofProgram_comment :
    let source := "# => 1\n".toList
    endsInLineFeed source ∧ ∃ e, ofProgram (.ofSource source) {} (.aligned .chunk) = .ok e ∧
      ¬ endsInLineFeed e.prepared ∧ ¬ endsInLineFeed e.cleanedBody := by
  intro source
  have checked : ∃ s ∈ scanFor 20 (Program.ofSource source).body,
      removeWith (Program.ofSource source).body s.layout {} = .ok [] := by
    decide +kernel
  have again : (scanFor 20 []).isSome := by decide +kernel
  obtain ⟨s, hs, removed⟩ := checked
  obtain ⟨t, ht⟩ := Option.isSome_iff_exists.1 again
  have made := ofProgram_of_scan (p := .ofSource source) (a := .aligned .chunk) {}
    ((removeAnnotations_of_scan {} (scan_of_scanFor hs)).trans removed) (scan_of_scanFor ht)
  have empty : ¬ endsInLineFeed [] := by decide
  exact ⟨by decide, _, made, empty, empty⟩

end Engine

end Marginalia
