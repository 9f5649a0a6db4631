import Marginalia.Instrumented
import Marginalia.Proofs.Source.Spans
import Marginalia.Proofs.Text

/-!
# Programs woven with recording calls

An instrumented program is the program itself, interspersed with the openers and closers of
recording calls. `Mark` keeps the two apart: a list of marks is both the program (`Mark.source`) and
the instrumented text (`Mark.render`). The module shows that the instrumented text is such a list,
and that its insertions are well bracketed, because the spans of the statements are disjoint or
nested.
-/

namespace Marginalia

open Source

/-- One of the two ends of a statement. -/
structure Edge where
  statement : Statement
  opens : Bool
  deriving DecidableEq, Repr

namespace Edge

/-- The two ends of a statement. -/
def both (s : Statement) : List Edge := [⟨s, true⟩, ⟨s, false⟩]

/-- Where an end stands: before the character with this number. -/
def position (e : Edge) : Nat := if e.opens then e.statement.start else e.statement.stop

/-- What is inserted there. -/
def text (m : Markers) (e : Edge) : Text :=
  if e.opens then m.record ++ '(' :: Text.ofNat e.statement.line ++ ", (".toList else "))".toList

/-- The insertion at an end. -/
def insertion (m : Markers) (e : Edge) : Insertion :=
  ⟨e.position, e.opens, e.statement.depth, e.text m⟩

/-- The order of insertions, for ends. -/
def le (m : Markers) (e f : Edge) : Bool := (e.insertion m).le (f.insertion m)

/-- Words of brackets in which each closer belongs to the last opener that is still open, and to the
same statement. -/
inductive Balanced : List Edge → Prop where
  | nil : Balanced []
  | wrap (s : Statement) {inside behind : List Edge} (inner : Balanced inside)
      (outer : Balanced behind) : Balanced (⟨s, true⟩ :: (inside ++ ⟨s, false⟩ :: behind))

/-- Balanced edges behind balanced edges are balanced. -/
theorem Balanced.append {a b : List Edge} (ha : Balanced a) (hb : Balanced b) :
    Balanced (a ++ b) := by
  induction ha with
  | nil => exact hb
  | wrap s inner _ _ ih =>
    rw [List.cons_append, List.append_assoc, List.cons_append]
    exact .wrap s inner ih

/-! ## The order of the ends -/

variable (m : Markers)

/-- The insertions are those of the edges in their order. -/
theorem insertions_eq (ss : List Statement) :
    insertions m ss = ((ss.flatMap both).mergeSort (le m)).map (insertion m) := by
  have around : Insertion.around m = fun s => (both s).map (insertion m) := rfl
  rw [List.map_mergeSort (r := le m) (s := Insertion.le) (fun _ _ _ _ => rfl), List.map_flatMap]
  unfold insertions
  rw [around]

/-- Edges are in order by their places; at one place closing edges come before opening ones, inner
statements close first, and outer ones open first. -/
theorem le_iff (e f : Edge) : le m e f = true ↔ e.position < f.position ∨
    (e.position = f.position ∧ (e.opens = false ∧ f.opens = true ∨
      (e.opens = true ∧ f.opens = true ∧ e.statement.depth ≤ f.statement.depth) ∨
      (e.opens = false ∧ f.opens = false ∧ f.statement.depth ≤ e.statement.depth))) := by
  unfold le Insertion.le insertion
  dsimp only
  split
  · next h =>
    rw [bne_iff_ne] at h
    rw [decide_eq_true_iff]
    exact ⟨.inl, fun h' => h'.elim id fun h' => absurd h'.1 h⟩
  · next h =>
    rw [bne_iff_ne, Decidable.not_not] at h
    cases e.opens <;> cases f.opens <;> simp [h]

/-- An edge further in front comes first. -/
theorem le_of_position_lt {e f : Edge} (h : e.position < f.position) : le m e f = true :=
  (le_iff m e f).2 (.inl h)

/-- The order of edges is transitive. -/
theorem le_trans (a b c : Edge) (hab : le m a b = true) (hbc : le m b c = true) :
    le m a c = true := by
  rw [le_iff] at hab hbc ⊢
  rcases hab with hab | ⟨hp, hab⟩ <;> rcases hbc with hbc | ⟨hq, hbc⟩
  · exact .inl (by omega)
  · exact .inl (by omega)
  · exact .inl (by omega)
  · refine .inr ⟨by omega, ?_⟩
    rcases hab with ⟨h1, h2⟩ | ⟨h1, h2, h3⟩ | ⟨h1, h2, h3⟩ <;>
      rcases hbc with ⟨h4, h5⟩ | ⟨h4, h5, h6⟩ | ⟨h4, h5, h6⟩ <;> simp_all <;> omega

/-- Any two edges are in order. -/
theorem le_total (a b : Edge) : (le m a b || le m b a) = true := by
  rw [Bool.or_eq_true, le_iff, le_iff]
  rcases Nat.lt_trichotomy a.position b.position with h | h | h
  · exact .inl (.inl h)
  · rcases Nat.le_total a.statement.depth b.statement.depth with hd | hd <;>
      cases ha : a.opens <;> cases hb : b.opens <;> simp [h, hd]
  · exact .inr (.inl h)

/-! ## Statements whose spans are disjoint or nested -/

/-- The spans of some statements, each disjoint from the later ones or inside them. -/
structure Laminar (ss : List Statement) : Prop where
  nonempty : ∀ s ∈ ss, s.start < s.stop
  apart : ss.Pairwise Statement.Apart

variable {m} {ss : List Statement}

theorem mem_both {e : Edge} {s : Statement} : e ∈ both s ↔ e.statement = s := by
  constructor
  · intro h
    rcases List.mem_cons.1 h with rfl | h
    · rfl
    · rw [List.mem_singleton.1 h]
  · rintro rfl
    unfold both
    obtain ⟨s, opens⟩ := e
    cases opens <;> simp

theorem mem_edges {e : Edge} : e ∈ ss.flatMap both ↔ e.statement ∈ ss := by
  rw [List.mem_flatMap]
  constructor
  · rintro ⟨s, hs, he⟩
    rw [mem_both.1 he]
    exact hs
  · intro h
    exact ⟨e.statement, h, mem_both.2 rfl⟩

/-- No two statements share an end. -/
theorem Laminar.eq_of_position (h : Laminar ss) {e f : Edge} (he : e.statement ∈ ss)
    (hf : f.statement ∈ ss) (hopens : e.opens = f.opens) (hp : e.position = f.position) :
    e = f := by
  have apart : ∀ {a b : Statement}, a ∈ ss → Statement.Apart a b → a.start ≠ b.start ∧
    a.stop < b.stop ∨
      a.stop ≤ b.start := by
    intro a b _ hab
    rcases hab with hab | ⟨h1, h2, -⟩
    · exact .inr hab
    · exact .inl ⟨by omega, h2⟩
  -- statements that share an edge would be neither apart nor nested
  have starts : ∀ ⦃a⦄, a ∈ ss → ∀ ⦃b⦄, b ∈ ss → (a.start = b.start ∨ a.stop = b.stop) → a = b := by
    refine List.Pairwise.forall_of_forall_of_flip (fun _ _ _ => rfl) ?_ ?_
    · refine h.apart.imp_of_mem fun ha hb hab heq => ?_
      have h1 := h.nonempty _ ha
      have h2 := h.nonempty _ hb
      rcases apart ha hab with ⟨h3, h4⟩ | h3 <;> omega
    · refine h.apart.imp_of_mem fun ha hb hab heq => ?_
      have h1 := h.nonempty _ ha
      have h2 := h.nonempty _ hb
      rcases apart ha hab with ⟨h3, h4⟩ | h3 <;> omega
  obtain ⟨s, o⟩ := e
  obtain ⟨t, o'⟩ := f
  cases hopens
  unfold position at hp
  have : s = t := by
    cases o
    · exact starts he hf (.inr hp)
    · exact starts he hf (.inl hp)
  rw [this]

/-- Fewer statements are laminar, too. -/
theorem Laminar.sublist {ts : List Statement} (h : Laminar ss) (hs : ts.Sublist ss) : Laminar ts :=
  ⟨fun t ht => h.nonempty t (hs.subset ht), h.apart.sublist hs⟩

/-- The ends of some statements in order. -/
def sorted (m : Markers) (ss : List Statement) : List Edge := (ss.flatMap both).mergeSort (le m)

theorem mem_sorted {e : Edge} : e ∈ sorted m ss ↔ e.statement ∈ ss :=
  List.mem_mergeSort.trans mem_edges

/-- Sorted edges are in order. -/
theorem pairwise_sorted : (sorted m ss).Pairwise fun a b => le m a b = true :=
  List.pairwise_mergeSort (le_trans m) (le_total m) _

/-- Sorting only moves edges. -/
theorem sorted_perm : (sorted m ss).Perm (ss.flatMap both) := List.mergeSort_perm ..

/-- Whether a statement ends before another starts. -/
def inFront (t s : Statement) : Bool := s.stop ≤ t.start

section Concat

variable {t : Statement} {e : Edge}

/-- What ends in front of the last statement stands before its start; nothing starts there. -/
theorem Laminar.position_front (h : Laminar (ss ++ [t]))
    (he : e ∈ sorted m (ss.filter (inFront t))) :
    e.position ≤ t.start ∧ (e.opens = true → e.position < t.start) := by
  have he := List.mem_filter.1 (mem_sorted.1 he)
  have hle := of_decide_eq_true he.2
  have hlt := h.nonempty e.statement (List.mem_append_left _ he.1)
  unfold position
  cases e.opens <;> simp <;> omega

/-- The edges of the statements inside another one lie between its own. -/
theorem Laminar.position_inside (h : Laminar (ss ++ [t]))
    (he : e ∈ sorted m (ss.filter fun s => !inFront t s)) :
    t.start < e.position ∧ e.position < t.stop := by
  have he := List.mem_filter.1 (mem_sorted.1 he)
  have hlt := h.nonempty e.statement (List.mem_append_left _ he.1)
  have hapart := (List.pairwise_append.1 h.apart).2.2 e.statement he.1 t (List.mem_singleton_self t)
  rcases hapart with hle | ⟨h1, h2, -⟩
  · have := he.2
    rw [inFront, decide_eq_true hle] at this
    cases this
  · unfold position
    cases e.opens <;> simp <;> omega

/-- The ends of a statement around those of the statements that do not end in front of it. -/
def around (m : Markers) (ss : List Statement) (t : Statement) : List Edge :=
  ⟨t, true⟩ :: (sorted m (ss.filter fun s => !inFront t s) ++ [⟨t, false⟩])

/-- The edges around the last statement are in order: its opening edge, those inside, and its
closing edge. -/
theorem Laminar.pairwise_around (h : Laminar (ss ++ [t])) :
    (around m ss t).Pairwise fun a b => le m a b = true := by
  have ht : t.start < t.stop := h.nonempty t (List.mem_append_right _ (List.mem_singleton_self t))
  refine List.pairwise_cons.2 ⟨?_, ?_⟩
  · intro f hf
    refine le_of_position_lt m ?_
    rcases List.mem_append.1 hf with hf | hf
    · exact (h.position_inside hf).1
    · rw [List.mem_singleton.1 hf]
      exact ht
  · refine List.pairwise_append.2 ⟨pairwise_sorted, List.pairwise_singleton _ _, ?_⟩
    intro f hf g hg
    rw [List.mem_singleton.1 hg]
    exact le_of_position_lt m (h.position_inside hf).2

/-- The edges in front of the last statement come before those around it. -/
theorem Laminar.le_around (h : Laminar (ss ++ [t])) (he : e ∈ sorted m (ss.filter (inFront t)))
    {f : Edge} (hf : f ∈ around m ss t) : le m e f = true := by
  have ⟨h1, h2⟩ := h.position_front he
  have ht : t.start < t.stop := h.nonempty t (List.mem_append_right _ (List.mem_singleton_self t))
  rcases List.mem_cons.1 hf with rfl | hf
  · rw [le_iff]
    -- where the two stand at one place, `e` closes a call
    rcases Nat.lt_or_ge e.position t.start with hlt | hge
    · exact .inl hlt
    · refine .inr ⟨Nat.le_antisymm h1 hge, .inl ⟨?_, rfl⟩⟩
      cases ho : e.opens with
      | false => rfl
      | true => have := h2 ho; omega
  · refine le_of_position_lt m (Nat.lt_of_le_of_lt h1 ?_)
    rcases List.mem_append.1 hf with hf | hf
    · exact (h.position_inside hf).1
    · rw [List.mem_singleton.1 hf]
      exact ht

/-- The edges are those in front of the last statement and those around it. -/
theorem sorted_concat_perm (ss : List Statement) (t : Statement) :
    (sorted m (ss ++ [t])).Perm (sorted m (ss.filter (inFront t)) ++ around m ss t) := by
  have split := (List.filter_append_perm (inFront t) ss).symm
  have edges := split.flatMap_right both
  rw [List.flatMap_append] at edges
  refine sorted_perm.trans ?_
  rw [List.flatMap_append]
  refine (edges.append_right _).trans ?_
  rw [List.append_assoc]
  refine List.Perm.append sorted_perm.symm ?_
  have close : [t].flatMap both = [⟨t, true⟩] ++ [⟨t, false⟩] := rfl
  rw [close, ← List.append_assoc]
  refine (List.perm_append_comm.append_right _).trans ?_
  rw [List.append_assoc]
  exact (sorted_perm.symm.append_right _).cons _

/-- The order leaves no choice among the ends of such statements. -/
theorem Laminar.eq_of_le (h : Laminar ss) {a b : Edge} (ha : a.statement ∈ ss)
    (hb : b.statement ∈ ss) (hab : le m a b = true) (hba : le m b a = true) : a = b := by
  rw [le_iff] at hab hba
  have hp : a.position = b.position := by omega
  refine h.eq_of_position ha hb ?_ hp
  simp only [hp, Nat.lt_irrefl, true_and, false_or] at hab hba
  cases ha : a.opens <;> cases hb' : b.opens <;> simp_all

/-- The last of some statements takes those inside it between its ends; the others come before. -/
theorem Laminar.sorted_concat (h : Laminar (ss ++ [t])) :
    sorted m (ss ++ [t]) = sorted m (ss.filter (inFront t)) ++ around m ss t := by
  have perm := sorted_concat_perm (m := m) ss t
  refine List.Perm.eq_of_pairwise ?_ pairwise_sorted ?_ perm
  · intro a b ha hb hab hba
    exact h.eq_of_le (mem_sorted.1 ha) (mem_sorted.1 (perm.mem_iff.2 hb)) hab hba
  · exact List.pairwise_append.2
      ⟨pairwise_sorted, h.pairwise_around, fun _ he _ hf => h.le_around he hf⟩

end Concat

/-- The sorted edges of laminar statements are balanced. -/
theorem Laminar.balanced_sorted (h : Laminar ss) : Balanced (sorted m ss) := by
  generalize hn : ss.length = n
  induction n using Nat.strongRecOn generalizing ss with
  | ind n ih =>
    rcases List.eq_nil_or_concat ss with rfl | ⟨init, t, rfl⟩
    · unfold sorted
      rw [List.flatMap_nil, List.mergeSort_nil]
      exact .nil
    · rw [List.concat_eq_append] at h hn ⊢
      rw [List.length_append, List.length_singleton] at hn
      have part : ∀ p : Statement → Bool, Balanced (sorted m (init.filter p)) := fun p =>
        ih _ (by have := List.length_filter_le p init; omega)
          (h.sublist (List.filter_sublist.trans (List.sublist_append_left _ _))) rfl
      rw [h.sorted_concat]
      exact (part _).append (.wrap t (part _) .nil)

end Edge

/-! ## Marks -/

/-- A piece of an instrumented program: a character of the program, or an insertion. -/
inductive Mark where
  | kept (c : Char)
  | inserted (e : Edge)
  deriving DecidableEq, Repr

namespace Mark

/-- The character of the program. -/
def char? : Mark → Option Char
  | .kept c => some c
  | .inserted _ => none

/-- The end of a statement that is inserted. -/
def edge? : Mark → Option Edge
  | .kept _ => none
  | .inserted e => some e

/-- The text of a mark. -/
def text (m : Markers) : Mark → Text
  | .kept c => [c]
  | .inserted e => e.text m

/-- What remains when the insertions are deleted. -/
def source (marks : List Mark) : Text := marks.filterMap char?

/-- The insertions alone, from left to right. -/
def edges (marks : List Mark) : List Edge := marks.filterMap edge?

/-- The text with its insertions. -/
def render (m : Markers) (marks : List Mark) : Text := marks.flatMap (text m)

@[simp] theorem source_append (a b : List Mark) : source (a ++ b) = source a ++ source b :=
  List.filterMap_append ..

/-- The source of characters that are kept is these characters. -/
@[simp] theorem source_kept (t : Text) : source (t.map .kept) = t := by
  unfold source
  rw [List.filterMap_map]
  exact List.filterMap_some

@[simp] theorem source_cons_kept (c : Char) (marks : List Mark) :
    source (.kept c :: marks) = c :: source marks := rfl

@[simp] theorem source_inserted (e : Edge) (marks : List Mark) :
    source (.inserted e :: marks) = source marks := rfl

@[simp] theorem edges_append (a b : List Mark) : edges (a ++ b) = edges a ++ edges b :=
  List.filterMap_append ..

/-- Characters that are kept have no edges. -/
@[simp] theorem edges_kept (t : Text) : edges (t.map .kept) = [] := by
  unfold edges
  rw [List.filterMap_map]
  exact List.filterMap_eq_nil_iff.2 fun _ _ => rfl

@[simp] theorem edges_inserted (e : Edge) (marks : List Mark) :
    edges (.inserted e :: marks) = e :: edges marks := rfl

variable (m : Markers)

@[simp] theorem render_append (a b : List Mark) : render m (a ++ b) = render m a ++ render m b :=
  List.flatMap_append ..

/-- Characters that are kept are rendered as they are. -/
@[simp] theorem render_kept (t : Text) : render m (t.map .kept) = t := by
  unfold render
  rw [List.flatMap_map]
  exact List.flatMap_singleton' t

@[simp] theorem render_cons (x : Mark) (marks : List Mark) :
    render m (x :: marks) = x.text m ++ render m marks := rfl

/-- What follows position `here` of a program, interspersed with insertions. -/
def weave (here : Nat) (rest : Text) : List Edge → List Mark
  | [] => rest.map .kept
  | e :: es =>
    (rest.take (e.position - here)).map .kept ++
      .inserted e :: weave e.position (rest.drop (e.position - here)) es

/-- What is woven is rendered as the spliced text. -/
theorem render_weave (here : Nat) (rest : Text) (es : List Edge) :
    render m (weave here rest es) = splice here rest (es.map (Edge.insertion m)) := by
  induction es generalizing here rest with
  | nil => exact render_kept m rest
  | cons e es ih =>
    unfold weave
    rw [render_append, render_kept, render_cons, ih, ← List.append_assoc]
    rfl

/-- The source of what is woven is the text. -/
theorem source_weave (here : Nat) (rest : Text) (es : List Edge) :
    source (weave here rest es) = rest := by
  induction es generalizing here rest with
  | nil => exact source_kept rest
  | cons e es ih =>
    unfold weave
    rw [source_append, source_kept, source_inserted, ih, List.take_append_drop]

/-- The edges of what is woven are those that were given. -/
theorem edges_weave (here : Nat) (rest : Text) (es : List Edge) :
    edges (weave here rest es) = es := by
  induction es generalizing here rest with
  | nil => exact edges_kept rest
  | cons e es ih =>
    unfold weave
    rw [edges_append, edges_kept, edges_inserted, ih, List.nil_append]

/-- Every insertion of a sorted list stands at its position. -/
theorem position_of_weave {here : Nat} {rest : Text} {es : List Edge} {before after : List Mark}
    {e : Edge} (sorted : es.Pairwise fun a b => a.position ≤ b.position)
    (within : ∀ e ∈ es, here ≤ e.position ∧ e.position ≤ here + rest.length)
    (h : weave here rest es = before ++ .inserted e :: after) :
    here + (source before).length = e.position := by
  induction es generalizing here rest before with
  | nil =>
    have he : e ∈ edges (weave here rest []) := by
      rw [h]
      simp
    rw [edges_weave] at he
    cases he
  | cons f es ih =>
    obtain ⟨hf, hlen⟩ := within f List.mem_cons_self
    unfold weave at h
    have taken : (rest.take (f.position - here)).length = f.position - here := by
      rw [List.length_take]
      omega
    -- the mark in question stands behind the characters before the first edge, or is among them
    rcases List.append_eq_append_iff.1 h with ⟨u, hbefore, htail⟩ | ⟨u, hkept, htail⟩
    · cases u with
      | nil =>
        rw [List.append_nil] at hbefore
        cases htail
        rw [hbefore, source_kept, taken]
        omega
      | cons x u =>
        rw [List.cons_append, List.cons.injEq] at htail
        obtain ⟨rfl, htail⟩ := htail
        have step := ih (List.pairwise_cons.1 sorted).2 (fun g hg => ?_) htail
        · rw [hbefore, source_append, source_kept, source_inserted, List.length_append, taken]
          omega
        · have hfg := (List.pairwise_cons.1 sorted).1 g hg
          have := within g (List.mem_cons_of_mem _ hg)
          rw [List.length_drop]
          omega
    · -- an insertion is not among the kept characters
      cases u with
      | nil =>
        simp only [List.append_nil] at hkept
        rw [List.nil_append, List.cons.injEq] at htail
        obtain ⟨hef, -⟩ := htail
        cases hef
        rw [← hkept, source_kept, taken]
        omega
      | cons x u =>
        rw [List.cons_append, List.cons.injEq] at htail
        have hmem : Mark.inserted e ∈ (rest.take (f.position - here)).map Mark.kept := by
          rw [hkept, htail.1]
          simp
        obtain ⟨c, -, hc⟩ := List.mem_map.1 hmem
        cases hc

/-! ## Lines -/

/-- Where no insertion has a line feed, the lines of the text with insertions are those of the
program, each with its own insertions. -/
theorem lines_render {marks : List Mark} (h : ∀ e ∈ edges marks, '\n' ∉ e.text m) :
    ∃ lines : List (List Mark), (source marks).splitOn '\n' = lines.map source ∧
      (render m marks).splitOn '\n' = lines.map (render m) := by
  induction marks with
  | nil => exact ⟨[[]], rfl, rfl⟩
  | cons x marks ih =>
    cases x with
    | kept c =>
      obtain ⟨lines, hs, hr⟩ := ih h
      rw [source_cons_kept, render_cons]
      change ∃ lines : List (List Mark), (c :: source marks).splitOn '\n' = _ ∧
        (c :: render m marks).splitOn '\n' = _
      -- a line feed that is kept starts a line on both sides, any other mark goes to the first line
      by_cases hc : c = '\n'
      · refine ⟨[] :: lines, ?_, ?_⟩
        · rw [List.splitOn_cons_eq_if_modifyHead, if_pos (beq_iff_eq.2 hc), hs]
          rfl
        · rw [List.splitOn_cons_eq_if_modifyHead, if_pos (beq_iff_eq.2 hc), hr]
          rfl
      · cases lines with
        | nil => exact absurd hs (List.splitOn_ne_nil _ _)
        | cons l lines =>
          refine ⟨(.kept c :: l) :: lines, ?_, ?_⟩
          · rw [List.splitOn_cons_eq_if_modifyHead, if_neg (mt beq_iff_eq.1 hc), hs]
            rfl
          · rw [List.splitOn_cons_eq_if_modifyHead, if_neg (mt beq_iff_eq.1 hc), hr]
            rfl
    | inserted e =>
      have he := h e (by rw [edges_inserted]; exact List.mem_cons_self)
      obtain ⟨lines, hs, hr⟩ := ih fun f hf => h f (by
        rw [edges_inserted]
        exact List.mem_cons_of_mem _ hf)
      cases lines with
      | nil => exact absurd hs (List.splitOn_ne_nil _ _)
      | cons l lines =>
        refine ⟨(.inserted e :: l) :: lines, hs, ?_⟩
        rw [render_cons]
        exact Text.splitOn_append_of_notMem he _ hr

end Mark

end Marginalia
