import Marginalia.Proofs.Instrumented.Wrapping
import Marginalia.Proofs.Source.Waiting

/-!
# Bodies of here-documents

Which lines are read as the bodies of the here-documents that wait at a line feed, and that nothing
else is made of those lines: no token ends in them, nothing is inserted, and none of them ends in
code. The main statement is `heredocs_of_source`. It holds no more than is true: a here-document
that is opened inside an interpolation and is still waiting at the closing brace is given up, and so
is one that waits at the end mark.
-/

namespace Marginalia.Source

/-! ## Lines that are bodies -/

/-- Whether some lines are the body of a here-document: the last closes it, and none before does. -/
def Heredoc.IsBody (h : Heredoc) (body : List Text) : Prop :=
  ∃ above last, body = above ++ [last] ∧ h.closedBy last ∧ ∀ p ∈ above, h.closedBy p = false

/-- The bodies of some here-documents, one behind the other, and the lines that they take from line
`line` on. -/
inductive Bodies : Nat → List Heredoc → List (List Text) → List (Heredoc × LineRange) → Prop where
  | nil (line : Nat) : Bodies line [] [] []
  | cons {line : Nat} {h : Heredoc} {hs : List Heredoc} {body : List Text}
    {bodies : List (List Text)}
      {lines : List (Heredoc × LineRange)} (isBody : h.IsBody body)
      (others : Bodies (line + body.length) hs bodies lines) :
      Bodies line (h :: hs) (body :: bodies) ((h, ⟨line, line + body.length - 1⟩) :: lines)

/-- Of some here-documents `d` is the first whose closing line is missing among the lines that
follow. -/
def Unclosed (line : Nat) (hs : List Heredoc) (ps : List Text) (d : Heredoc) : Prop :=
  ∃ before behind bodies lines rest, hs = before ++ d :: behind ∧ Bodies line before bodies lines ∧
    ps = bodies.flatten ++ rest ∧ ∀ p ∈ rest, d.closedBy p = false

/-- Each here-document that is read has a line that closes it. -/
theorem Bodies.exists_closing {line : Nat} {hs : List Heredoc} {bodies : List (List Text)}
    {lines : List (Heredoc × LineRange)} (h : Bodies line hs bodies lines) :
    ∀ d ∈ hs, ∃ p ∈ bodies.flatten, d.closedBy p := by
  induction h with
  | nil => exact nofun
  | cons isBody _ ih =>
    intro d hd
    rw [List.flatten_cons]
    rcases List.mem_cons.1 hd with rfl | hd
    · obtain ⟨above, last, rfl, closes, -⟩ := isBody
      exact ⟨last, List.mem_append_left _ (List.mem_append_right _ (List.mem_singleton_self _)),
        closes⟩
    · obtain ⟨p, hp, closes⟩ := ih d hd
      exact ⟨p, List.mem_append_right _ hp, closes⟩

/-- The pieces of a text behind the first `k`. -/
theorem pieces_drop (t : Text) (k : Nat) :
    Text.pieces (t.drop ((Text.pieces t).take k).flatten.length) = (Text.pieces t).drop k := by
  have whole : ((Text.pieces t).take k).flatten ++ ((Text.pieces t).drop k).flatten = t := by
    rw [← List.flatten_append, List.take_append_drop, Text.flatten_pieces]
  have rest : t.drop ((Text.pieces t).take k).flatten.length =
      ((Text.pieces t).drop k).flatten := by
    conv => lhs; arg 2; rw [← whole]
    rw [List.drop_left]
  rw [rest]
  by_cases more : k < (Text.pieces t).length
  · have cut := Text.pieces_append (Text.isLine_of_mem_take (.inl more))
      ((Text.pieces t).drop k).flatten
    rw [whole] at cut
    conv at cut => lhs; rw [← List.take_append_drop k (Text.pieces t)]
    exact (List.append_cancel_left cut).symm
  · rw [List.drop_of_length_le (Nat.le_of_not_lt more)]
    rfl

/-- A body that is found is one. -/
theorem isBody_of_body? {h : Heredoc} {t : Text} {n k : Nat} (hb : h.body? t = some (n, k)) :
    ∃ body, h.IsBody body ∧ body.length = k ∧ Text.pieces t = body ++ Text.pieces (t.drop n) := by
  obtain ⟨j, hj, rfl, rfl⟩ := body?_eq_some hb
  obtain ⟨hlt, hp, hnot⟩ := List.findIdx?_eq_some_iff_getElem.1 hj
  refine ⟨(Text.pieces t).take (j + 1), ⟨(Text.pieces t).take j, (Text.pieces t)[j],
    List.take_succ_eq_append_getElem hlt, hp, fun p hp => ?_⟩, ?_, ?_⟩
  · obtain ⟨i, hi, rfl⟩ := List.mem_take_iff_getElem.1 hp
    exact Bool.eq_false_iff.2 (hnot i (by omega))
  · rw [List.length_take]
    omega
  · rw [pieces_drop, List.take_append_drop]

/-- If no body is found, no line closes the here-document. -/
theorem not_closedBy_of_body? {h : Heredoc} {t : Text} (hb : h.body? t = none) :
    ∀ p ∈ Text.pieces t, h.closedBy p = false :=
  List.findIdx?_eq_none_iff.1 (Option.map_eq_none_iff.1 hb)

namespace Tokenizer

/-- What is read for the here-documents that wait is their bodies, or a closing line is missing. -/
theorem bodies_or_unclosed (hs : List Heredoc) (line : Nat) (t : Text) :
    (∃ found n k bodies, readBodies hs line t = (found, .ok (n, k)) ∧
        Bodies line hs bodies (bodiesOf found) ∧
          Text.pieces t = bodies.flatten ++ Text.pieces (t.drop n)) ∨
      ∃ found d, readBodies hs line t = (found, .error d) ∧ Unclosed line hs (Text.pieces t) d := by
  -- over the documents, each read behind the one before it
  induction hs generalizing line t with
  | nil => exact .inl ⟨[], 0, 0, [], rfl, .nil line, rfl⟩
  | cons h hs ih =>
    unfold readBodies
    cases hb : h.body? t with
    | none =>
      exact .inr ⟨[], h, rfl, [], hs, [], [], Text.pieces t, rfl, .nil line, rfl,
        not_closedBy_of_body? hb⟩
    | some taken =>
      obtain ⟨n, k⟩ := taken
      obtain ⟨body, isBody, rfl, cut⟩ := isBody_of_body? hb
      dsimp only
      obtain ⟨found, m, j, bodies, read, are, rest⟩
        | ⟨found, d, read, before, behind, bodies, lines, rest, rfl, are, hrest, missing⟩ :=
          ih (line + body.length) (t.drop n)
      · rw [read]
        refine .inl ⟨_, _, _, body :: bodies, rfl, .cons isBody are, ?_⟩
        rw [cut, rest, List.flatten_cons, List.append_assoc, List.drop_drop]
      · rw [read]
        refine .inr ⟨_, d, rfl, h :: before, behind, body :: bodies, _, rest, rfl, .cons isBody are,
          ?_, missing⟩
        rw [cut, hrest, List.flatten_cons, List.append_assoc]

variable {s u : Tokenizer} {found : List Finding}

/-- At a line feed the bodies of the innermost queue are read, or the walk stops. -/
theorem bodies_of_lineFeed {r : Text} (hr : s.cursor.rest = '\n' :: r) :
    (∃ d, Unclosed (s.cursor.line + 1) s.heredocs (Text.pieces r) d ∧ ∃ found, s.step =
        .stop found (.refused { line := d.line, fault := .unterminatedHeredoc d.id })) ∨
      ∃ bodies found u, s.step = .next found u ∧
        Bodies (s.cursor.line + 1) s.heredocs bodies (bodiesOf found) ∧
        Text.pieces r = bodies.flatten ++ Text.pieces u.cursor.rest := by
  have below : s.cursor.advance 1 = ⟨r, s.cursor.position + 1, s.cursor.line + 1, true⟩ := by
    unfold Cursor.advance
    rw [hr]
    rfl
  have newline : s.step = s.unnamed.takeNewline := step_of_lineFeed hr
  unfold takeNewline at newline
  rw [show s.unnamed.cursor = s.cursor from rfl, show s.unnamed.heredocs = s.heredocs from rfl,
    below] at newline
  dsimp only at newline
  rw [newline]
  -- all documents are read, or one of them is not closed
  obtain ⟨found, n, k, bodies, read, are, rest⟩ | ⟨found, d, read, unclosed⟩ :=
    bodies_or_unclosed s.heredocs (s.cursor.line + 1) r
  · rw [read]
    refine .inr ⟨bodies, _, _, rfl, ?_, ?_⟩
    · have only (k : Token) :
          bodiesOf (found ++ if s.suspended.isEmpty then [.token k] else []) = bodiesOf found := by
        split
        · exact (bodiesOf_append ..).trans (List.append_nil _)
        · rw [List.append_nil]
      exact (congrArg (Bodies _ _ _) (only _)).mpr are
    · dsimp only
      rw [Cursor.rest_advance]
      exact rest
  · rw [read]
    exact .inl ⟨d, unclosed, found, rfl⟩

theorem ending_of_stop {t : Tokenizer} {ending : Ending} (reach : Reaches s t)
    (h : t.step = .stop found ending) : s.run.ending = ending := by
  obtain ⟨before, hrun⟩ := reach.run_eq
  rw [hrun, run_of_stop h]

theorem mem_found_of_reaches {t : Tokenizer} (reach : Reaches s t) (h : t.step = .next found u) :
    ∀ f ∈ found, f ∈ s.run.found := by
  obtain ⟨before, hrun⟩ := reach.run_eq
  intro f hf
  rw [hrun, run_of_next h]
  exact List.mem_append_right _ (List.mem_append_left _ hf)

end Tokenizer

/-! ## Lines that are no code -/

theorem mem_bodiesOf {found : List Finding} {x : Heredoc × LineRange} :
    x ∈ bodiesOf found ↔ .heredocRead x.1 x.2 ∈ found := by
  rw [bodiesOf, List.mem_filterMap]
  constructor
  · rintro ⟨f, hf, hx⟩
    cases f with
    | heredocRead h lines =>
      cases hx
      exact hf
    | token | sealed | heredocOpened => cases hx
  · exact fun h => ⟨_, h, rfl⟩

/-- No line of a body ends in code. -/
theorem endsInCode_of_body {source : Text} {t : Tokenization} {x : Heredoc × LineRange}
    (hx : x ∈ bodiesOf t.found) {line : Nat} (hline : x.2.contains line) (comments : List Comment) :
    (Layout.ofTokens source t comments).endsInCode line = false :=
  Bool.eq_false_iff.2 fun ends =>
    not_covers_of_endsInCode ends ⟨_, mem_bodiesOf.1 hx, x.2, rfl, hline⟩

/-- What is inserted stands at the ends of tokens. -/
theorem insertion_of_apart {source : Text} {scanned : Scan}
    (accepted : scan source = .ok (.ok scanned)) {a b : Nat}
    (apart : ∀ k ∈ (tokenize source).tokens, k.stop ≤ a ∨ b ≤ k.start ∨ (k.start ≤ a ∧ b ≤ k.stop))
    (m : Markers) :
    ∀ i ∈ insertions m scanned.statements, i.position ≤ a ∨ b ≤ i.position := by
  obtain ⟨-, ends⟩ := statements_of_scan accepted
  rw [Edge.insertions_eq]
  intro i hi
  obtain ⟨e, he, rfl⟩ := List.mem_map.1 hi
  obtain ⟨⟨k, hk, -, start⟩, ⟨l, hl, -, stop⟩, -⟩ := ends _ (Edge.mem_sorted.1 he)
  have hs := Tokenizer.origin_ofSource source
  have hk' := (Tokenizer.token_of_run _ hs k hk).1.1
  have hl' := (Tokenizer.token_of_run _ hs l hl).1.1
  show e.position ≤ a ∨ b ≤ e.position
  unfold Edge.position
  split
  · have := apart k hk
    omega
  · have := apart l hl
    omega

/-- The here-documents of a program and their bodies. -/
theorem heredocs_of_source (source : Text) :
    let walk := tokenize source
    let Reached := Tokenizer.Reaches (.ofSource source)
    -- in a complete walk each here-document that is opened is read once, unless one is forgotten
    (walk.ending = .complete →
      ((openedOf walk.found).Perm (readOf walk.found) ↔ ∀ s, Reached s → s.forgotten = []) ∧
      -- and in the order of opening, unless one is read while others wait outside of its
      -- interpolation
      ((∀ s, Reached s → s.forgotten = []) →
        (∀ s, Reached s → s.cursor.rest.head? = some '\n' → s.heredocs = [] ∨ s.outside = []) →
        openedOf walk.found = readOf walk.found)) ∧
    -- at a line feed
    (∀ s r, Reached s → s.cursor.rest = '\n' :: r →
      -- a closing line is missing, and that is an error
      (∃ d, Unclosed (s.cursor.line + 1) s.heredocs (Text.pieces r) d ∧
        walk.ending = .refused { line := d.line, fault := .unterminatedHeredoc d.id }) ∨
      -- or the bodies of the innermost queue follow, in the order of opening
      ∃ bodies found u, s.step = .next found u ∧
        Bodies (s.cursor.line + 1) s.heredocs bodies (bodiesOf found) ∧
        Text.pieces r = bodies.flatten ++ Text.pieces u.cursor.rest ∧
        -- no token and nothing that is inserted has an end in them
        (∀ k ∈ walk.tokens, k.stop ≤ s.cursor.position ∨ u.cursor.position ≤ k.start ∨
          (k.start ≤ s.cursor.position ∧ u.cursor.position ≤ k.stop)) ∧
        (∀ scanned, scan source = .ok (.ok scanned) → ∀ m, ∀ i ∈ insertions m scanned.statements,
          i.position ≤ s.cursor.position ∨ u.cursor.position ≤ i.position) ∧
        -- and none of their lines ends in code
        ∀ x ∈ bodiesOf found, ∀ line, x.2.contains line →
          ∀ comments, (Layout.ofTokens source walk comments).endsInCode line = false) ∧
    -- a here-document without a closing line is an error where its body would start
    (∀ s r d, Reached s → s.cursor.rest = '\n' :: r → d ∈ s.heredocs →
      (∀ p ∈ Text.pieces r, d.closedBy p = false) →
      ∃ d' ∈ s.heredocs,
        walk.ending = .refused { line := d'.line, fault := .unterminatedHeredoc d'.id }) ∧
    -- as is one that waits at the end of the text
    ∀ s d, Reached s → s.cursor.rest = [] → s.heredocs.head? = some d →
      walk.ending = .refused { line := d.line, fault := .unterminatedHeredoc d.id } := by
  intro walk Reached
  have hs := Tokenizer.origin_ofSource source
  refine ⟨fun complete => ⟨Tokenizer.perm_iff_of_complete rfl complete, fun kept inner => ?_⟩,
    fun s r reach hr => ?_, fun s r d reach hr hd missing => ?_, fun s d reach hr hd => ?_⟩
  · exact Tokenizer.opened_eq_read (.ofSource source) complete kept inner
  · obtain ⟨d, unclosed, found, stops⟩ | ⟨bodies, found, u, goes, are, rest⟩ :=
      Tokenizer.bodies_of_lineFeed hr
    · exact .inl ⟨d, unclosed, Tokenizer.ending_of_stop reach stops⟩
    · have apart := Tokenizer.token_of_passed reach hs goes
      refine .inr ⟨bodies, found, u, goes, are, rest, apart,
        fun scanned accepted m =>
          insertion_of_apart accepted apart m, fun x hx line hline comments => ?_⟩
      have whole : x ∈ bodiesOf walk.found :=
        mem_bodiesOf.2 (Tokenizer.mem_found_of_reaches reach goes _ (mem_bodiesOf.1 hx))
      exact endsInCode_of_body whole hline comments
  · obtain ⟨d', ⟨before, behind, _, _, _, heredocs, -⟩, found, stops⟩ |
      ⟨bodies, found, u, -, are, rest⟩ := Tokenizer.bodies_of_lineFeed hr
    · refine ⟨d', ?_, Tokenizer.ending_of_stop reach stops⟩
      rw [heredocs]
      exact List.mem_append_right _ List.mem_cons_self
    · -- the bodies that follow hold a closing line
      obtain ⟨p, hp, closes⟩ := are.exists_closing d hd
      have missed := missing p (by rw [rest]; exact List.mem_append_left _ hp)
      rw [closes] at missed
      cases missed
  · obtain ⟨others, heredocs⟩ := List.head?_eq_some_iff.1 hd
    have stops : s.step =
        .stop [] (.refused { line := d.line, fault := .unterminatedHeredoc d.id }) := by
      unfold Tokenizer.step
      rw [hr, heredocs]
      rfl
    exact Tokenizer.ending_of_stop reach stops

/-- A here-document whose body is read inside of an interpolation, while another waits outside of
it. -/
theorem heredocs_of_source_interpolation :
    let source := "f <<A, \"#\x7b<<B\nb\nB\n\x7d\"\na\nA\n".toList
    openedOf (tokenize source).found = [⟨"A".toList, false, 1⟩, ⟨"B".toList, false, 1⟩] ∧
      (openedOf (tokenize source).found).Perm (readOf (tokenize source).found) := by
  intro source
  have walked : ∃ t ∈ Tokenizer.runFor 30 (.ofSource source), t.ending = .complete ∧
      openedOf t.found = [⟨"A".toList, false, 1⟩, ⟨"B".toList, false, 1⟩] ∧
      ∀ s ∈ Tokenizer.statesFor 30 (.ofSource source), s.forgotten = [] := by
    decide +kernel
  obtain ⟨t, ht, complete, opened, kept⟩ := walked
  have same : tokenize source = t := Tokenizer.run_eq_of_runFor ht
  obtain ⟨read, -⟩ := (heredocs_of_source source).1 (same ▸ complete)
  rw [same] at read ⊢
  exact ⟨opened, read.2 fun s reach => kept s (Tokenizer.mem_statesFor ht reach)⟩

/-- A here-document that is opened inside of an interpolation and not read there is lost, and so is
one that waits at the end mark: no closing line is missed. -/
theorem heredoc_lost :
    let inside := tokenize "\"#{<<A}\"\n".toList
    let before := tokenize "x = <<A \\\n__END__\n".toList
    (inside.ending = .complete ∧ openedOf inside.found = [⟨"A".toList, false, 1⟩] ∧
        readOf inside.found = []) ∧
      before.ending = .complete ∧ openedOf before.found = [⟨"A".toList, false, 1⟩] ∧
        readOf before.found = [] := by
  have lost : ∀ source : Text, (∃ t ∈ Tokenizer.runFor 20 (.ofSource source), t.ending = .complete ∧
      openedOf t.found = [⟨"A".toList, false, 1⟩] ∧ readOf t.found = []) →
      (tokenize source).ending = .complete ∧
        openedOf (tokenize source).found = [⟨"A".toList, false, 1⟩] ∧
        readOf (tokenize source).found = [] := by
    rintro source ⟨t, ht, walked⟩
    rw [show tokenize source = t from Tokenizer.run_eq_of_runFor ht]
    exact walked
  exact ⟨lost _ (by decide +kernel), lost _ (by decide +kernel)⟩

end Marginalia.Source
