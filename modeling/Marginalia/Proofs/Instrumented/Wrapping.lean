import Marginalia.Proofs.Instrumented.Weave
import Marginalia.Proofs.Source.Accepted
import Marginalia.Proofs.Source.Spans

/-!
# Wrapping keeps the program

The main statement about instrumented programs, `instrument_weaves`: they are the program with the
two halves of a recording call around every statement and nothing else, the halves are well
bracketed, and none of them stands inside a token, an embedded document or what follows the end
mark. No line feed is inserted, so that line `n` stays line `n`.
-/

namespace Marginalia

open Source

/-- Nothing that is not code is cut in two at a place of a program: no token, no embedded document,
and nothing behind the end mark. -/
structure Uncut (source : Text) (p : Nat) : Prop where
  token : ∀ t ∈ (tokenize source).tokens, ¬ (t.start < p ∧ p < t.stop)
  document : ∀ s n, Tokenizer.Reaches (.ofSource source) s → s.document? = some n →
    ¬ (s.cursor.position < p ∧ p < s.cursor.position + n)
  endMark : ∀ s, Tokenizer.Reaches (.ofSource source) s → s.atEndMark → p ≤ s.cursor.position

namespace Source

theorem Tokenizer.origin_ofSource (source : Text) :
    (Tokenizer.ofSource source).origin ≤ (Tokenizer.ofSource source).cursor.position :=
  Nat.le_refl 0

/-- A place at which a token of code starts or ends. -/
def CodeEdge (source : Text) (place : Token → Nat) (p : Nat) : Prop :=
  ∃ t ∈ (tokenize source).tokens, Scanner.isCode t.kind ∧ place t = p

/-- The statements of a program are disjoint or nested, and they start and end with tokens of
code. -/
theorem statements_of_scan {source : Text} {s : Scan} (h : scan source = .ok (.ok s)) :
    Edge.Laminar s.statements ∧ ∀ e ∈ s.statements,
      CodeEdge source Token.start e.start ∧ CodeEdge source Token.stop e.stop ∧
        e.stop ≤ source.length := by
  obtain ⟨r, hr, -, rfl⟩ := Scan.eq_of_scan h
  have hs := Tokenizer.origin_ofSource source
  have inside := Tokenizer.stop_le_of_run (.ofSource source)
  have tidy : r.Tidy (CodeEdge source Token.start) (CodeEdge source Token.stop) source.length :=
    Scanner.tidy_foldlM ⟨Scanner.laid_start, Scanner.capped_of_none rfl⟩ (fun _ _ => Nat.zero_le _)
    (Tokenizer.pairwise_tokens_run _ hs)
    (fun t ht => ⟨(Tokenizer.token_of_run _ hs t ht).1, by
      have := inside t ht
      rwa [show (Tokenizer.ofSource source).cursor.position = 0 from rfl, Nat.zero_add] at this⟩)
    (fun t ht hc => ⟨⟨t, ht, hc, rfl⟩, ⟨t, ht, hc, rfl⟩⟩) (Nat.zero_le _) hr
  refine ⟨⟨fun e he => (tidy.1.past e he).2.2.1, tidy.1.apart⟩, fun e he => ?_⟩
  obtain ⟨h1, h2, -, h3⟩ := tidy.1.past e he
  exact ⟨h1, h2, h3⟩

/-- The ends of tokens cut nothing in two. -/
theorem uncut_of_codeEdge {source : Text} {place : Token → Nat} {p : Nat}
    (complete : (tokenize source).ending = .complete)
    (hplace : place = Token.start ∨ place = Token.stop) (h : CodeEdge source place p) :
    Uncut source p := by
  obtain ⟨t, ht, -, rfl⟩ := h
  have hs := Tokenizer.origin_ofSource source
  have le := (Tokenizer.token_of_run _ hs t ht).1.1
  refine ⟨fun k hk => ?_, fun s n reach hdoc => ?_, fun s reach hend => ?_⟩
  · have hle := (Tokenizer.token_of_run _ hs k hk).1.1
    rcases Tokenizer.eq_or_apart hs ht hk with rfl | h | h <;> rcases hplace with rfl
      | rfl <;> omega
  · have := Tokenizer.token_of_document reach hs hdoc ht
    rcases hplace with rfl | rfl <;> omega
  · have := Tokenizer.token_of_atEndMark reach hs complete hend ht
    rcases hplace with rfl | rfl <;> omega

end Source

theorem lineFeed_notMem_text {m : Markers} (hm : '\n' ∉ m.record) (e : Edge) : '\n' ∉ e.text m := by
  unfold Edge.text
  split
  · simp only [List.mem_append, List.mem_cons, not_or]
    refine ⟨⟨hm, by decide, fun h => ?_⟩, by decide⟩
    have := Nat.isDigit_of_mem_toDigits (by decide) (by decide) h
    cases this
  · decide

/-- An instrumented program is the program with `RECORD(LINE, (` at the start of each statement and
`))` at its end. Deleting them gives the program back; they are well bracketed, each closer with the
opener of its own statement; they stand where nothing but code is cut in two; and every line is the
line of the program with that number plus insertions. -/
theorem instrument_weaves {source : Text} {scanned : Scan} {m : Markers}
    (accepted : scan source = .ok (.ok scanned)) (hm : '\n' ∉ m.record) :
    ∃ marks : List Mark,
      instrument source m = .ok (.ok (Mark.render m marks)) ∧
      Mark.source marks = source ∧
      (Mark.edges marks).Perm (scanned.statements.flatMap Edge.both) ∧
      (∀ before e after, marks = before ++ .inserted e :: after →
        (Mark.source before).length = e.position) ∧
      Edge.Balanced (Mark.edges marks) ∧
      (∀ e ∈ Mark.edges marks, Uncut source e.position) ∧
      Text.lineFeeds (Mark.render m marks) = Text.lineFeeds source ∧
      ∃ lines : List (List Mark), source.splitOn '\n' = lines.map Mark.source ∧
        List.splitOn '\n' (Mark.render m marks) = lines.map (Mark.render m) := by
  obtain ⟨laminar, places⟩ := statements_of_scan accepted
  obtain ⟨-, -, complete, -⟩ := Scan.eq_of_scan accepted
  -- the sorted edges of the statements, woven into the source
  let marks := Mark.weave 0 source (Edge.sorted m scanned.statements)
  have hsource : Mark.source marks = source := Mark.source_weave ..
  have hedges : Mark.edges marks = Edge.sorted m scanned.statements := Mark.edges_weave ..
  have hlines := Mark.lines_render m fun e (_ : e ∈ Mark.edges marks) => lineFeed_notMem_text hm e
  rw [hsource] at hlines
  refine ⟨marks, ?_, hsource, ?_, ?_, ?_, ?_, ?_, hlines⟩
  · unfold instrument
    rw [accepted, Mark.render_weave, Edge.sorted, ← Edge.insertions_eq]
    rfl
  · rw [hedges]
    exact Edge.sorted_perm
  · intro before e after h
    have stands := Mark.position_of_weave
      (Edge.pairwise_sorted.imp fun hle => ?_) (fun e he => ⟨Nat.zero_le _, ?_⟩) h
    · rw [Nat.zero_add] at stands
      exact stands
    · rw [Edge.le_iff] at hle
      omega
    · have hlen := (places e.statement (Edge.mem_sorted.1 he)).2.2
      have hlt := laminar.nonempty e.statement (Edge.mem_sorted.1 he)
      unfold Edge.position
      split <;> omega
  · rw [hedges]
    exact laminar.balanced_sorted
  · intro e he
    rw [hedges] at he
    obtain ⟨hstart, hstop, -⟩ := places e.statement (Edge.mem_sorted.1 he)
    unfold Edge.position
    split
    · exact uncut_of_codeEdge complete (.inl rfl) hstart
    · exact uncut_of_codeEdge complete (.inr rfl) hstop
  · obtain ⟨lines, hs, hr⟩ := hlines
    have h1 := Text.length_splitOn '\n' source
    have h2 := Text.length_splitOn '\n' (Mark.render m marks)
    rw [hs, List.length_map] at h1
    rw [hr, List.length_map] at h2
    unfold Text.lineFeeds
    omega

/-- A statement with a here-document and one inside a bracket of the next line. -/
theorem instrument_weaves_heredoc :
    '\n' ∉ ({} : Markers).record ∧
    ∃ (scanned : Scan) (marks : List Mark),
      scan "puts <<A if x\n b\nA\ny = [1]\n".toList = .ok (.ok scanned) ∧
      scanned.statements.length = 2 ∧
      instrument "puts <<A if x\n b\nA\ny = [1]\n".toList {} = .ok (.ok (Mark.render {} marks)) ∧
      Mark.source marks = "puts <<A if x\n b\nA\ny = [1]\n".toList ∧
      Edge.Balanced (Mark.edges marks) := by
  have scanned : (scanFor 40 "puts <<A if x\n b\nA\ny = [1]\n".toList).any
      (·.statements.length == 2) := by decide +kernel
  obtain ⟨s, hs, hlength⟩ := (Option.any_eq_true ..).1 scanned
  have noLineFeed : '\n' ∉ ({} : Markers).record := by decide
  obtain ⟨marks, hrender, hsource, -, -, balanced, -⟩ :=
    instrument_weaves (scan_of_scanFor hs) noLineFeed
  exact ⟨noLineFeed, s, marks, scan_of_scanFor hs, eq_of_beq hlength, hrender, hsource, balanced⟩

end Marginalia
