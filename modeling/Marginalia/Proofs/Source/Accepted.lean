import Marginalia.Proofs.Source.Walk
import Marginalia.Source.Scanner

/-!
# Accepted programs

A program is accepted when the tokenizer comes to its end and the scanner takes every token. The
layout of an accepted program is drawn from that one walk.
-/

namespace Marginalia

theorem eq_ok_of_toOption {ε α : Type} {x : Except ε α} {a : α} (h : x.toOption = some a) :
    x = .ok a := by
  cases x with
  | error e => cases h
  | ok b => rw [Option.some.inj h]

namespace Source

/-- An accepted program has been fed to the scanner up to its end. -/
theorem Scan.eq_of_ofTokens {source : Text} {t : Tokenization} {s : Scan}
    (h : Scan.ofTokens source t = .ok (.ok s)) :
    ∃ r : Scanner, t.tokens.foldlM Scanner.feed {} = .ok r ∧ t.ending = .complete ∧
      s = ⟨r.statements, .ofTokens source t r.comments⟩ := by
  unfold Scan.ofTokens at h
  split at h
  · cases h
  · next r hr =>
    split at h
    · next hc =>
      cases h
      exact ⟨r, hr, hc, rfl⟩
    · cases h
    · cases h

/-- An accepted source has been fed to the scanner up to its end. -/
theorem Scan.eq_of_scan {source : Text} {s : Scan} (h : scan source = .ok (.ok s)) :
    ∃ r : Scanner, (tokenize source).tokens.foldlM Scanner.feed {} = .ok r ∧
      (tokenize source).ending = .complete ∧
      s = ⟨r.statements, .ofTokens source (tokenize source) r.comments⟩ :=
  Scan.eq_of_ofTokens h

/-- A walk that comes to its end finds the end of the program last. -/
theorem Tokenizer.exists_eof_of_complete (s : Tokenizer) (h : s.run.ending = .complete) :
    ∃ ts t, s.run.tokens = ts ++ [t] ∧ t.kind = .eof := by
  induction s using walk_induction with
  | stop s found ending hstep =>
    rw [run_of_stop hstep] at h
    rw [tokens_run_of_stop hstep]
    obtain ⟨-, incomplete⟩ | ⟨t, only, eof, -⟩ := found_of_stop hstep
    · exact absurd h incomplete
    · exact ⟨[], t, only, eof⟩
  | next s found t hstep ih =>
    rw [run_of_next hstep] at h
    obtain ⟨ts, last, htokens, eof⟩ := ih h
    refine ⟨tokensOf found ++ ts, last, ?_, eof⟩
    rw [tokens_run_of_next hstep, htokens, List.append_assoc]

/-! ## Scans that can be evaluated -/

/-- The scan of a program that is accepted after a walk of at most `n` steps. -/
def scanFor (n : Nat) (source : Text) : Option Scan :=
  match (Tokenizer.runFor n (.ofSource source)).map (Scan.ofTokens source) with
  | some (.ok (.ok s)) => some s
  | _ => none

/-- A source that is accepted within some number of steps is accepted. -/
theorem scan_of_scanFor {n : Nat} {source : Text} {s : Scan} (h : scanFor n source = some s) :
    scan source = .ok (.ok s) := by
  unfold scanFor at h
  split at h
  · next hrun =>
    obtain ⟨t, ht, htokens⟩ := Option.map_eq_some_iff.1 hrun
    rw [scan, tokenize, Tokenizer.run_eq_of_runFor ht, htokens, Option.some.inj h]
  · cases h

namespace Tokenizer

/-- The states of a walk of at most `n` steps. -/
def statesFor : Nat → Tokenizer → List Tokenizer
  | 0, s => [s]
  | n + 1, s =>
    match s.step with
    | .next _ t => s :: statesFor n t
    | .stop _ _ => [s]

/-- The walk comes to a state at once, or behind its first step. -/
theorem Reaches.head {s t : Tokenizer} (h : Reaches s t) :
    t = s ∨ ∃ found u, s.step = .next found u ∧ Reaches u t := by
  induction h with
  | here => exact .inl rfl
  | @step t u found _ hstep ih =>
    rcases ih with rfl | ⟨found', v, hs, reach⟩
    · exact .inr ⟨found, u, hstep, .here⟩
    · exact .inr ⟨found', v, hs, .step reach hstep⟩

/-- A walk of at most `n` steps comes to no other states. -/
theorem mem_statesFor {n : Nat} {s t : Tokenizer} {whole : Tokenization}
    (h : runFor n s = some whole) (reach : Reaches s t) : t ∈ statesFor n s := by
  induction n generalizing s whole with
  | zero => cases h
  | succ n ih =>
    unfold runFor at h
    unfold statesFor
    rcases reach.head with rfl | ⟨found, u, hstep, reach⟩
    · split
      · exact List.mem_cons_self
      · exact List.mem_cons_self
    · rw [hstep] at h ⊢
      obtain ⟨tail, htail, -⟩ := Option.map_eq_some_iff.1 h
      exact List.mem_cons_of_mem _ (ih htail reach)

theorem mem_statesFor_of_scanFor {n : Nat} {source : Text} {s : Scan} {t : Tokenizer}
    (h : scanFor n source = some s) (reach : Reaches (.ofSource source) t) :
    t ∈ statesFor n (.ofSource source) := by
  unfold scanFor at h
  split at h
  · next hrun =>
    obtain ⟨_, ht, -⟩ := Option.map_eq_some_iff.1 hrun
    exact mem_statesFor ht reach
  · cases h

end Tokenizer

end Source

end Marginalia
