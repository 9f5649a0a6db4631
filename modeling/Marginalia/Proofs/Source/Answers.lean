import Marginalia.Proofs.Instrumented.Wrapping
import Marginalia.Proofs.Source.Moves
import Marginalia.Proofs.Source.Nesting
import Marginalia.Proofs.Source.Slices

/-!
# Every program gets an answer

If no character outside of ASCII stands where a delimiter is due, scanning a program, checking its
syntax and instrumenting it come to a result or to a refusal (`scan_of_narrow`). Nothing on the way
is out of range: no place of the tokenizer, no end of a token, no body that is left, no line that is
marked and no place of an insertion.
-/

namespace Marginalia.Source

namespace Scanner

variable {s s' : Scanner} {t : Token}

/-- The outermost body is that of the program, and it has no header of a method. -/
def Rooted (s : Scanner) : Prop := ∃ inner root, s.top :: s.below = inner ++ [root] ∧
  root.kind = .program ∧ root.header.isMethod = false

theorem rooted_start : ({} : Scanner).Rooted := ⟨[], _, rfl, rfl, rfl⟩

/-- A body that can be left lies inside another. -/
theorem Rooted.below_ne_nil (h : s.Rooted) (inner : s.top.kind ≠ .program ∨ s.top.header.isMethod) :
    s.below ≠ [] := by
  obtain ⟨outer, root, hframes, program, free⟩ := h
  intro none
  rw [none] at hframes
  have alone : [] ++ [s.top] = outer ++ [root] := hframes
  rw [(List.singleton_inj.1 (List.append_inj' alone rfl).2)] at inner
  rcases inner with inner | method
  · exact inner program
  · rw [free] at method
    cases method

/-- The innermost body may change, but neither its kind nor, unless it is that of a method, its
header to that of one. -/
theorem Rooted.of_top (h : s.Rooted) (below : s'.below = s.below) (kind : s'.top.kind = s.top.kind)
    (method : s'.top.header.isMethod → s.top.header.isMethod) : s'.Rooted := by
  obtain ⟨inner, root, hframes, program, free⟩ := h
  cases inner with
  | nil =>
    obtain ⟨rfl, hbelow⟩ := List.cons.inj hframes
    refine ⟨[], s'.top, by rw [below, hbelow]; rfl, kind.trans program, ?_⟩
    rw [Bool.eq_false_iff] at free ⊢
    exact fun hm => free (method hm)
  | cons f inner =>
    refine ⟨s'.top :: inner, root, ?_, program, free⟩
    rw [below, (List.cons.inj hframes).2]
    rfl

/-- A token that is added to a statement leaves the frame of the program. -/
theorem Rooted.touch (h : s.Rooted) (t : Token) : (s.touch t).Rooted := by
  obtain ⟨same, -⟩ | ⟨w, -, touched⟩ := touch_cases s t
  · rwa [same]
  · rw [touched]
    exact h.of_top rfl rfl id

/-- Dropping a frame inside another one leaves the frame of the program. -/
theorem Rooted.dropFrame (h : s.Rooted) (some : s.below ≠ []) : s.dropFrame.Rooted := by
  obtain ⟨inner, root, hframes, root_spec⟩ := h
  obtain ⟨f, fs, hbelow⟩ := List.exists_cons_of_ne_nil some
  unfold Scanner.dropFrame
  rw [hbelow] at hframes ⊢
  cases inner with
  | nil => cases hframes
  | cons g inner => exact ⟨inner, root, (List.cons.inj hframes).2, root_spec⟩

/-- No move leaves the body of the program. -/
theorem Rooted.move (h : s.Rooted) (move : Move t s s') : s'.Rooted := by
  cases move with
  | touch => exact h.touch t
  | endStatement =>
    exact h.of_top (below_endStatement s) (kind_endStatement s)
      (by rw [header_endStatement]; exact id)
  | setHeader method => exact h.of_top rfl rfl method
  | enter =>
    obtain ⟨inner, root, hframes, root_spec⟩ := h
    exact ⟨_ :: inner, root, by rw [hframes]; rfl, root_spec⟩
  | @leave header inner ended =>
    have left := h.dropFrame (h.below_ne_nil (inner.imp And.left id))
    have headed : (s.dropFrame.setHeader header).Rooted := left.of_top rfl rfl fun method => by
      rcases ended with rfl | rfl
      · cases method
      · exact method
    exact headed.touch t
  | openBracket | dropBracket | remember | comment => exact h

/-- Whatever tokens are fed, the frame of the program is the outermost. -/
theorem rooted_foldlM {ts : List Token} (h : s.Rooted) (fed : ts.foldlM feed s = .ok s') :
    s'.Rooted := by
  induction ts generalizing s with
  | nil =>
    cases fed
    exact h
  | cons t ts ih =>
    obtain ⟨r, hr, fed⟩ := foldlM_cons_eq_ok.1 fed
    exact ih (invariant_feed (fun _ _ move h => h.move move) h hr) fed

/-- Before each token the frame of the program is the outermost. -/
theorem rooted_steps {ts : List Token} (h : s.Rooted) : ∀ x ∈ s.steps ts, x.1.Rooted := by
  induction ts generalizing s with
  | nil => exact fun _ hx => nomatch hx
  | cons t ts ih =>
    cases hfeed : s.feed t with
    | error e =>
      rw [steps, hfeed]
      exact List.forall_mem_singleton.2 h
    | ok r =>
      rw [steps_cons hfeed]
      exact List.forall_mem_cons.2 ⟨h, ih (invariant_feed (fun _ _ move h => h.move move) h hfeed)⟩

end Scanner

/-! ## Layouts and insertions -/

/-- The lines that are marked in a layout are lines of the program, counted from 1. -/
theorem one_le_sealedLines {source : Text} {found : List Finding} {ending : Ending}
    (h : ∀ f ∈ found, f.Shows source) (comments : List Comment) :
    ∀ lines ∈ (Layout.ofTokens source ⟨found, ending⟩ comments).sealedLines, 1 ≤ lines.first := by
  refine List.forall_mem_append.2 ⟨fun lines hlines => ?_, fun lines hlines => ?_⟩
  · obtain ⟨t, ht, hlines⟩ := List.mem_filterMap.1 hlines
    rw [Tokenization.tokens_eq] at ht
    unfold literalLines at hlines
    split at hlines
    · cases hlines
      exact (Tokenizer.shows_of_mem_tokensOf h t ht).line
    · cases hlines
  · obtain ⟨f, hf, hlines⟩ := List.mem_filterMap.1 hlines
    have shows := h f hf
    cases f with
    | sealed lines' =>
      cases hlines
      exact shows
    | heredocRead _ lines' =>
      cases hlines
      exact shows
    | token | heredocOpened => cases hlines

end Marginalia.Source

namespace Marginalia

open Source

/-- Insertions stand in order and within the program. -/
theorem insertions_of_scan {source : Text} {s : Scan} (accepted : scan source = .ok (.ok s))
    (m : Markers) : (insertions m s.statements).Pairwise (fun a b => a.position ≤ b.position) ∧
      ∀ i ∈ insertions m s.statements, i.position ≤ source.length := by
  obtain ⟨laminar, ends⟩ := statements_of_scan accepted
  have ordered : (Edge.sorted m s.statements).Pairwise fun a b => a.position ≤ b.position :=
    Edge.pairwise_sorted.imp fun {a b} le =>
      ((Edge.le_iff m a b).1 le).elim Nat.le_of_lt fun same => Nat.le_of_eq same.1
  rw [Edge.insertions_eq]
  refine ⟨List.pairwise_map.2 ordered, fun i hi => ?_⟩
  obtain ⟨e, he, rfl⟩ := List.mem_map.1 hi
  have mem := Edge.mem_sorted.1 he
  have stop := (ends _ mem).2.2
  have nonempty := laminar.nonempty _ mem
  show e.position ≤ source.length
  unfold Edge.position
  split <;> omega

/-- If no character outside of ASCII follows `$-`, a `%` or a `%` and the letter of a literal, then
every question about the program is answered, and all that is looked up on the way is there. -/
theorem scan_of_narrow {source : Text} (narrow : NarrowDelimiters source) :
    -- places, and literals that may be read byte by byte
    (∀ s, Tokenizer.Reaches (.ofSource source) s → s.Placed source ∧
      (∀ l ∈ s.suspended, l.delimiters.Bytewise) ∧
      ∀ m spaced c r more d flags, s.cursor.rest = c :: r →
        Lexeme.read m spaced c r = .delimited more d flags → d.Bytewise) ∧
    (∀ t ∈ (tokenize source).tokens, t.Shows source) ∧
    -- a body that can be left lies inside another
    (∀ x ∈ ({} : Scanner).steps (tokenize source).tokens,
      x.1.top.kind ≠ .program ∨ x.1.top.header.isMethod → x.1.below ≠ []) ∧
    ∃ answer, scan source = .ok answer ∧ (∀ fileName, ∃ e, checkSyntax source fileName = .ok e) ∧
      (∀ m, ∃ out, instrument source m = .ok out) ∧
      ∀ s, answer = .ok s → (∀ lines ∈ s.layout.sealedLines, 1 ≤ lines.first) ∧
        ∀ m, (insertions m s.statements).Pairwise (fun a b => a.position ≤ b.position) ∧
          ∀ i ∈ insertions m s.statements, i.position ≤ source.length := by
  have start := Tokenizer.placed_ofSource source
  obtain ⟨shows, unbroken⟩ := Tokenizer.shows_run start
  refine ⟨fun s reach => ?_, fun t ht => ?_, fun x hx => ?_, ?_⟩
  · have placed := Tokenizer.placed_of_reaches start reach
    refine ⟨placed, fun l hl => ?_, fun m spaced c r more d flags hr hread => ?_⟩
    · exact Delimiters.bytewise_of_narrow ((placed.literals l hl).1.narrow narrow)
    · have ahead := Tokenizer.wideDelimiterAhead_of_at placed.cursor narrow
      rw [hr] at ahead
      exact Delimiters.bytewise_of_narrow (Lexeme.narrow_of_read ahead hread)
  · rw [Tokenization.tokens_eq] at ht
    exact Tokenizer.shows_of_mem_tokensOf shows t ht
  · exact (Scanner.rooted_steps Scanner.rooted_start x hx).below_ne_nil
  · have answered : ∃ answer, scan source = .ok answer := by
      unfold scan Scan.ofTokens
      split
      · exact ⟨_, rfl⟩
      · split
        · exact ⟨_, rfl⟩
        · exact ⟨_, rfl⟩
        · next fault hending => exact absurd hending (unbroken narrow fault)
    obtain ⟨answer, hscan⟩ := answered
    refine ⟨answer, hscan, fun fileName => ?_, fun m => ?_, ?_⟩
    · exact ⟨_, by rw [checkSyntax, hscan]; rfl⟩
    · exact ⟨_, by rw [instrument, hscan]; rfl⟩
    · rintro s rfl
      refine ⟨?_, insertions_of_scan hscan⟩
      obtain ⟨r, -, -, rfl⟩ := Scan.eq_of_scan hscan
      exact one_le_sealedLines shows r.comments

/-- Characters outside of ASCII stand in a string, behind its backslash, in an interpolation and in
the literal inside of it, in a comment and behind a question mark. -/
theorem scan_of_narrow_string :
    let source := "s = \"\\é#{%w(ü) + [ö]}ß\" # é\nif s\n  ?é\nend\n".toList
    NarrowDelimiters source ∧ ∃ answer, scan source = .ok answer ∧
      ∀ m, ∃ out, instrument source m = .ok out := by
  intro source
  have narrow : NarrowDelimiters source := by decide +kernel
  obtain ⟨-, -, -, answer, answered, -, instrumented, -⟩ := scan_of_narrow narrow
  exact ⟨narrow, answer, answered, instrumented⟩

end Marginalia
