import Mathlib.Data.List.Infix
import Marginalia.Proofs.Annotation.Lines
import Marginalia.Proofs.Source.Accepted

/-!
# Annotations that are cut

An annotation that is longer than it may be keeps its start and gets dots at its end. The limit
counts the marker as well, so that a cut may go through it. No marker holds a dot, and so what is
left starts with a marker just if the cut leaves the whole of it (`exists_prefix_truncate_iff`). The
main statement, `marked_renderCaptures_iff`, says for which limits an annotation is still known as
one.
-/

namespace Marginalia

open Source

/-- A start without dots lies in front of the dots. -/
theorem length_le_of_prefix_ellipsis {start front : Text} (h : start <+: front ++ ellipsis)
    (noDot : '.' ∉ start) : start.length ≤ front.length := by
  apply Nat.le_of_not_lt
  intro longer
  have dots : front ++ ['.'] <+: front ++ ellipsis := ⟨['.', '.'], by simp [ellipsis]⟩
  have dot : front ++ ['.'] <+: start :=
    List.prefix_of_prefix_length_le dots h
      (by simp only [List.length_append, List.length_singleton]; omega)
  exact noDot (dot.subset (by simp))

/-- A text that begins with one of some starts of one length does so after it has been cut, if
nothing had to be cut or the cut is behind the start. -/
theorem exists_prefix_truncate_iff {starts : List Text} {n max : Nat} {t : Text}
    (lengths : ∀ s ∈ starts, s.length = n) (nonempty : 0 < n) (noDot : ∀ s ∈ starts, '.' ∉ s)
    (begins : ∃ s ∈ starts, s <+: t) :
    (∃ s ∈ starts, s <+: truncate max t) ↔ t.length ≤ max ∨ n + ellipsis.length ≤ max := by
  unfold truncate
  split
  · next fits => exact ⟨fun _ => .inl fits, fun _ => begins⟩
  · next cut =>
    have kept : (t.take (max - ellipsis.length)).length = max - ellipsis.length := by
      rw [List.length_take]
      omega
    constructor
    · rintro ⟨s, hs, h⟩
      have within := length_le_of_prefix_ellipsis h (noDot s hs)
      rw [kept, lengths s hs] at within
      omega
    · intro room
      obtain ⟨s, hs, h⟩ := begins
      have front : s <+: t.take (max - ellipsis.length) := by
        apply List.prefix_of_prefix_length_le h (List.take_prefix _ _)
        rw [kept, lengths s hs]
        omega
      exact ⟨s, hs, front.trans (List.prefix_append _ _)⟩

/-- The limit spares the first characters of an annotation: the annotation is not cut, or the limit
has room for them and for the dots. -/
def Spares (n : Nat) (o : AnnotateOptions) (cs : List Capture) : Prop :=
  ∀ max, o.maxLength = some max →
    (renderCaptures { o with maxLength := none } cs).length ≤ max ∨ n + ellipsis.length ≤ max

theorem renderCaptures_of_limit {o : AnnotateOptions} {max : Nat} (h : o.maxLength = some max)
    (cs : List Capture) :
    renderCaptures o cs = truncate max (renderCaptures { o with maxLength := none } cs) := by
  unfold renderCaptures
  simp only [h]

theorem renderCaptures_of_no_limit {o : AnnotateOptions} (h : o.maxLength = none)
    (cs : List Capture) :
    renderCaptures o cs = renderCaptures { o with maxLength := none } cs := by
  unfold renderCaptures
  simp only [h]

section Limits

variable {cs : List Capture} {o : AnnotateOptions} {starts : List Text} {n : Nat}

/-- What an annotation starts with before it is cut, it starts with afterwards just if the limit
leaves it. -/
theorem exists_prefix_renderCaptures_iff (lengths : ∀ s ∈ starts, s.length = n) (nonempty : 0 < n)
    (noDot : ∀ s ∈ starts, '.' ∉ s)
    (begins : ∃ s ∈ starts, s <+: renderCaptures { o with maxLength := none } cs) :
    (∃ s ∈ starts, s <+: renderCaptures o cs) ↔ Spares n o cs := by
  unfold Spares
  cases hlimit : o.maxLength with
  | none =>
    rw [renderCaptures_of_no_limit hlimit]
    exact ⟨fun _ _ none => (nomatch none), fun _ => begins⟩
  | some max =>
    rw [renderCaptures_of_limit hlimit, exists_prefix_truncate_iff lengths nonempty noDot begins]
    exact ⟨fun h _ same => Option.some.inj same ▸ h, fun h => h max rfl⟩

/-- Before it is cut, an annotation starts with the marker of values or with that of exceptions. -/
theorem exists_marker_prefix (some : cs ≠ []) (markers : o.markers = {}) :
    ∃ s ∈ ["# =>".toList, "# ~>".toList], s <+: renderCaptures { o with maxLength := none } cs := by
  have aligned : ({ o with maxLength := none } : AnnotateOptions) = .aligned o.alignment := by
    rw [markers]
  rw [aligned]
  obtain ⟨t, ht | ht⟩ := renderCaptures_eq o.alignment some
  · exact ⟨"# =>".toList, by simp, ht ▸ ⟨' ' :: t, rfl⟩⟩
  · exact ⟨"# ~>".toList, by simp, ht ▸ ⟨' ' :: t, rfl⟩⟩

end Limits

/-- Let something be recorded for a line, and let the markers be the usual ones. What is written
behind the blanks starts with the marker of values or with that of exceptions, and is known as an
annotation, if and only if the limit leaves the four characters of a marker; and it is a comment if
and only if the limit leaves the first of them. -/
theorem marked_renderCaptures_iff {cs : List Capture} (captured : cs ≠ []) {o : AnnotateOptions}
    (markers : o.markers = {}) :
    (∀ l r column line piece, written l r line = some cs →
      renderLine l r o column line piece =
        codeOf piece ++ padding column piece ++ renderCaptures o cs ++ Text.terminator piece) ∧
    (Text.trimEnd o.markers.value <+: renderCaptures o cs ∨
        Text.trimEnd o.markers.exception <+: renderCaptures o cs ↔ Spares 4 o cs) ∧
    (o.markers.isAnnotation (renderCaptures o cs) ↔ Spares 4 o cs) ∧
    ((renderCaptures o cs).head? = some '#' ↔ Spares 1 o cs) := by
  have starts := exists_marker_prefix captured markers
  refine ⟨fun l r column line piece h => renderLine_of_written o h, ?_, ?_, ?_⟩
  · rw [markers, ← exists_prefix_renderCaptures_iff (by decide) (by decide) (by decide) starts]
    simp only [List.mem_cons, List.not_mem_nil, or_false, exists_eq_or_imp, exists_eq_left]
    exact Iff.rfl
  · -- a comment with the marker of output would be known, too, but no annotation starts with it
    have known : ∃ s ∈ Markers.starts {}, s <+: renderCaptures { o with maxLength := none } cs := by
      obtain ⟨s, hs, h⟩ := starts
      exact ⟨s, List.mem_append_left ["# >>".toList] hs, h⟩
    rw [markers, Markers.isAnnotation_iff]
    exact exists_prefix_renderCaptures_iff (by decide) (by decide) (by decide) known
  · have first : ∀ s ∈ ["# =>".toList, "# ~>".toList], ['#'] <+: s := by decide
    have hash : ∃ s ∈ [['#']], s <+: renderCaptures { o with maxLength := none } cs := by
      obtain ⟨s, hs, h⟩ := starts
      exact ⟨['#'], List.mem_singleton_self _, (first s hs).trans h⟩
    rw [← exists_prefix_renderCaptures_iff (by decide) (by decide) (by decide) hash]
    cases renderCaptures o cs <;> simp [eq_comm]

/-- With a limit of seven characters, the marker is left and nothing else. -/
theorem marked_renderCaptures_seven :
    let cs := [Capture.exception "E".toList "a\nb".toList]
    let o : AnnotateOptions := { maxLength := some 7 }
    cs ≠ [] ∧ o.markers = {} ∧ renderCaptures o cs = "# ~>...".toList ∧
      o.markers.isAnnotation (renderCaptures o cs) := by
  intro cs o
  have captured : cs ≠ [] := by decide
  have spares : Spares 4 o cs := by
    rintro max ⟨⟩
    exact .inr (by decide)
  obtain ⟨-, -, known, -⟩ := marked_renderCaptures_iff captured (o := o) rfl
  exact ⟨captured, rfl, by decide, known.2 spares⟩

/-- With a limit of two characters only dots are left, and they are code. -/
theorem unmarked_renderCaptures_two :
    let cs := [Capture.value "1".toList]
    let o : AnnotateOptions := { maxLength := some 2 }
    annotate "a\n".toList (.ofEvents none [.value 1 "1".toList]) o = .ok "a  ...\n".toList ∧
      renderCaptures o cs = "...".toList ∧ (renderCaptures o cs).head? ≠ some '#' ∧
      ¬ (Text.trimEnd o.markers.value <+: renderCaptures o cs ∨
        Text.trimEnd o.markers.exception <+: renderCaptures o cs) := by
  intro cs o
  have checked : ∃ s ∈ scanFor 20 "a\n".toList,
      annotateWith s.layout "a\n".toList (.ofEvents none [.value 1 "1".toList]) o =
        "a  ...\n".toList := by
    decide +kernel
  obtain ⟨s, hs, annotated⟩ := checked
  refine ⟨?_, by decide, by decide, by decide⟩
  rw [annotate_of_scan (scan_of_scanFor hs), annotated]

end Marginalia
