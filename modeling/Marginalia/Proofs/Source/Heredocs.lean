import Mathlib.Data.List.TakeWhile
import Marginalia.Proofs.Text
import Marginalia.Source.Tokenizer

/-!
# Here-documents and embedded documents

Both are found by going through the lines of a text, and so what is found does not depend on what
follows the line that ends it (`body?_append`, `embeddedDocument?_append`).
-/

namespace Marginalia

namespace Text

theorem length_pieces_le_one {t : Text} (h : '\n' ∉ t) : (pieces t).length ≤ 1 := by
  induction t with
  | nil => exact Nat.zero_le 1
  | cons c t ih =>
    rw [List.mem_cons, not_or] at h
    have tail := ih h.2
    unfold pieces at tail ⊢
    rw [cutAfter, if_neg (Ne.symm h.1)]
    split
    · exact Nat.le_refl 1
    · next hp =>
      rw [hp] at tail
      exact tail

/-- Of the pieces of a text only the last may not be finished. -/
theorem isLine_of_mem_take {t : Text} {k : Nat} (h : k < (pieces t).length ∨ t.Closed) :
    ∀ p ∈ (pieces t).take k, IsLine p := by
  rcases h with h | h
  · obtain ⟨ps, rest, hps, hrest, rfl⟩ := exists_lines t
    rw [pieces_append hps] at h ⊢
    intro p hp
    have one := length_pieces_le_one hrest
    rw [List.length_append] at h
    rw [List.take_append_of_le_length (by omega)] at hp
    exact hps p (List.mem_of_mem_take hp)
  · intro p hp
    exact h.isLine p (List.mem_of_mem_take hp)

/-- Finished lines at the start of a text stay its first pieces, whatever follows them. -/
theorem exists_take_pieces {y s : Text} {k : Nat} (hs : s = [] → y.Closed)
    (hk : ((pieces (y ++ s)).take k).flatten.length ≤ y.length) :
    ∃ z, y = ((pieces (y ++ s)).take k).flatten ++ z ∧
      (∀ p ∈ (pieces (y ++ s)).take k, IsLine p) ∧
      ∀ t, pieces (y ++ t) = (pieces (y ++ s)).take k ++ pieces (z ++ t) := by
  have whole : ((pieces (y ++ s)).take k).flatten ++ ((pieces (y ++ s)).drop k).flatten =
      y ++ s := by
    rw [← List.flatten_append, List.take_append_drop, flatten_pieces]
  obtain ⟨z, hz⟩ := List.prefix_of_prefix_length_le ⟨_, whole⟩ (List.prefix_append y s) hk
  have isLine : ∀ p ∈ (pieces (y ++ s)).take k, IsLine p := by
    by_cases hnil : s = []
    · refine isLine_of_mem_take (.inr ?_)
      rw [hnil, List.append_nil]
      exact hs hnil
    · -- something is left, and it is cut into pieces, too
      refine isLine_of_mem_take (.inl (Classical.byContradiction fun hlt => hnil ?_))
      have length := congrArg List.length whole
      rw [List.drop_of_length_le (Nat.le_of_not_lt hlt), List.flatten_nil, List.append_nil,
        List.length_append] at length
      exact List.length_eq_zero_iff.1 (by omega)
  refine ⟨z, hz.symm, isLine, fun t => ?_⟩
  conv => lhs; rw [← hz]
  rw [List.append_assoc, pieces_append isLine]

end Text

namespace Source

/-- The first element is found in the front of the list that ends with it. -/
theorem findIdx?_take {α : Type} {p : α → Bool} {xs : List α} {k : Nat}
    (h : xs.findIdx? p = some k) : (xs.take (k + 1)).findIdx? p = some k := by
  have hlt := (List.findIdx?_eq_some_iff_findIdx_eq.1 h).1
  rw [← List.take_append_drop (k + 1) xs, List.findIdx?_append] at h
  cases hk : (xs.take (k + 1)).findIdx? p with
  | some j =>
    rw [hk, Option.some_or] at h
    exact h
  | none =>
    rw [hk, Option.none_or] at h
    obtain ⟨j, -, hj⟩ := Option.map_eq_some_iff.1 h
    rw [List.length_take] at hj
    omega

/-! ## Here-documents -/

/-- The body of a here-document ends with the first line that closes it. -/
theorem body?_eq_some {h : Heredoc} {t : Text} {length lines : Nat}
    (hb : h.body? t = some (length, lines)) : ∃ k, (Text.pieces t).findIdx? h.closedBy = some k ∧
      length = ((Text.pieces t).take (k + 1)).flatten.length ∧ lines = k + 1 := by
  obtain ⟨k, hk, heq⟩ := Option.map_eq_some_iff.1 hb
  obtain ⟨rfl, rfl⟩ := Prod.mk.inj heq
  exact ⟨k, hk, rfl, rfl⟩

/-- The body of a here-document does not depend on what follows its closing line. -/
theorem body?_append {h : Heredoc} {y s : Text} {length lines : Nat} (hs : s = [] → y.Closed)
    (hb : h.body? (y ++ s) = some (length, lines)) (hle : length ≤ y.length) (t : Text) :
    h.body? (y ++ t) = some (length, lines) := by
  obtain ⟨k, hk, rfl, rfl⟩ := body?_eq_some hb
  obtain ⟨z, -, -, hcut⟩ := Text.exists_take_pieces hs hle
  have hlt := (List.findIdx?_eq_some_iff_findIdx_eq.1 hk).1
  unfold Heredoc.body?
  dsimp only
  -- the line that closes the body is among the pieces that stay
  rw [hcut t, List.findIdx?_append, findIdx?_take hk, Option.some_or, Option.map_some,
    List.take_left' (by rw [List.length_take]; omega)]

/-- A body that does not reach to the end of the text ends with its closing line. -/
theorem getElem?_body? {h : Heredoc} {t : Text} {length lines : Nat}
    (hb : h.body? t = some (length, lines)) (hlt : length < t.length) :
    0 < length ∧ t[length - 1]? = some '\n' := by
  obtain ⟨k, hk, rfl, rfl⟩ := body?_eq_some hb
  have hk' := (List.findIdx?_eq_some_iff_findIdx_eq.1 hk).1
  have whole : ((Text.pieces t).take (k + 1)).flatten ++
      ((Text.pieces t).drop (k + 1)).flatten = t := by
    rw [← List.flatten_append, List.take_append_drop, Text.flatten_pieces]
  -- the last line of the body is not the last of the text, so that it has its line feed
  have more : k + 1 < (Text.pieces t).length := by
    refine Nat.lt_of_not_le fun hle => ?_
    rw [List.drop_of_length_le hle, List.flatten_nil, List.append_nil] at whole
    rw [whole] at hlt
    exact Nat.lt_irrefl _ hlt
  obtain ⟨u, -, hu⟩ := Text.isLine_of_mem_take (.inl more) (Text.pieces t)[k]
    (List.mem_take_iff_getElem.2 ⟨k, by omega, rfl⟩)
  have front : ((Text.pieces t).take (k + 1)).flatten =
      (((Text.pieces t).take k).flatten ++ u) ++ ['\n'] := by
    rw [List.take_succ_eq_append_getElem hk', List.flatten_append, List.flatten_singleton, hu,
      List.append_assoc]
  rw [front] at whole ⊢
  generalize ((Text.pieces t).take k).flatten ++ u = v at whole
  rw [List.length_append, List.length_singleton, Nat.add_sub_cancel]
  refine ⟨Nat.zero_lt_succ _, ?_⟩
  rw [List.append_assoc] at whole
  have last := congrArg (·[v.length]?) whole
  rw [List.getElem?_append_right (Nat.le_refl _), Nat.sub_self] at last
  exact last.symm

theorem length_body?_le {h : Heredoc} {t : Text} {length lines : Nat}
    (hb : h.body? t = some (length, lines)) :
    length ≤ t.length := by
  obtain ⟨k, -, rfl, -⟩ := body?_eq_some hb
  conv => rhs; rw [← Text.flatten_pieces t, ← List.take_append_drop (k + 1) (Text.pieces t)]
  rw [List.flatten_append, List.length_append]
  exact Nat.le_add_right _ _

/-- A body of finished lines has as many line feeds as lines. Only a body that ends with the program
may have a last line that is not finished. -/
theorem lineFeeds_body? {h : Heredoc} {t : Text} {length lines : Nat}
    (hb : h.body? t = some (length, lines)) (finished : t.Closed ∨ length < t.length) :
    Text.lineFeeds (t.take length) = lines ∧ length ≤ t.length := by
  obtain ⟨k, hk, rfl, rfl⟩ := body?_eq_some hb
  have hlt := (List.findIdx?_eq_some_iff_findIdx_eq.1 hk).1
  have whole : ((Text.pieces t).take (k + 1)).flatten ++
      ((Text.pieces t).drop (k + 1)).flatten = t := by
    rw [← List.flatten_append, List.take_append_drop, Text.flatten_pieces]
  have more : k + 1 < (Text.pieces t).length ∨ t.Closed := by
    refine finished.symm.imp_left fun shorter => Nat.lt_of_not_le fun all => ?_
    rw [List.drop_of_length_le all, List.flatten_nil, List.append_nil] at whole
    rw [whole] at shorter
    exact Nat.lt_irrefl _ shorter
  constructor
  · conv => lhs; arg 1; arg 2; rw [← whole]
    rw [List.take_left, Text.lineFeeds_flatten (Text.isLine_of_mem_take more), List.length_take]
    omega
  · exact (List.IsPrefix.length_le ⟨_, whole⟩)

namespace Tokenizer

/-- The bodies of several here-documents are that of the first and, behind it, those of the
others. -/
theorem readBodies_cons_eq_ok {d : Heredoc} {ds : List Heredoc} {line : Nat} {t : Text}
    {found : List Finding} {length lines : Nat} :
    readBodies (d :: ds) line t = (found, .ok (length, lines)) ↔
      ∃ n k bodies m j, d.body? t = some (n, k) ∧
        readBodies ds (line + k) (t.drop n) = (bodies, .ok (m, j)) ∧
        found = .heredocRead d ⟨line, line + k - 1⟩ :: bodies ∧ length = n + m ∧ lines = k + j := by
  conv => lhs; unfold readBodies
  constructor
  · intro h
    -- the first body is found, and then those of the others
    cases hb : d.body? t with
    | none =>
      rw [hb] at h
      cases h
    | some body =>
      obtain ⟨n, k⟩ := body
      rw [hb] at h
      dsimp only at h
      cases hrest : readBodies ds (line + k) (t.drop n) with
      | mk bodies taken =>
        rw [hrest] at h
        cases taken with
        | error e => cases (Prod.mk.inj h).2
        | ok more =>
          obtain ⟨m, j⟩ := more
          obtain ⟨rfl, htaken⟩ := Prod.mk.inj h
          cases htaken
          exact ⟨n, k, bodies, m, j, rfl, hrest, rfl, rfl, rfl⟩
  · rintro ⟨n, k, bodies, m, j, hb, hrest, rfl, rfl, rfl⟩
    rw [hb]
    dsimp only
    rw [hrest]
    rfl

theorem readBodies_append {hs : List Heredoc} {line : Nat} {y s : Text} {found : List Finding}
    {length lines : Nat} (hs' : s = [] → y.Closed)
    (h : readBodies hs line (y ++ s) = (found, .ok (length, lines))) (hle : length ≤ y.length)
    (t : Text) : readBodies hs line (y ++ t) = (found, .ok (length, lines)) := by
  induction hs generalizing line y found length lines with
  | nil => exact h
  | cons d ds ih =>
    obtain ⟨n, k, bodies, m, j, hb, hrest, rfl, rfl, rfl⟩ := readBodies_cons_eq_ok.1 h
    have hn : n ≤ y.length := by omega
    rw [List.drop_append_of_le_length hn] at hrest
    refine readBodies_cons_eq_ok.2 ⟨n, k, bodies, m, j, body?_append hs' hb hn t, ?_, rfl, rfl, rfl⟩
    rw [List.drop_append_of_le_length hn]
    exact ih (fun h => (hs' h).of_suffix (List.drop_suffix n y)) hrest
      (by rw [List.length_drop]; omega)

/-- If something is left behind the bodies, they end in a line feed. -/
theorem getElem?_readBodies {hs : List Heredoc} {line : Nat} {t : Text} {found : List Finding}
    {length lines : Nat} (h : readBodies hs line t = (found, .ok (length, lines)))
    (hlt : length < t.length) (pos : 0 < length) : t[length - 1]? = some '\n' := by
  induction hs generalizing line t found length lines with
  | nil =>
    cases h
    exact absurd pos (Nat.lt_irrefl 0)
  | cons d ds ih =>
    obtain ⟨n, k, bodies, m, j, hb, hrest, rfl, rfl, rfl⟩ := readBodies_cons_eq_ok.1 h
    -- the last body that takes anything is the last that is taken
    by_cases hm : m = 0
    · subst hm
      exact (getElem?_body? hb hlt).2
    · have last := ih hrest (by rw [List.length_drop]; omega) (by omega)
      rw [List.getElem?_drop] at last
      rw [show n + m - 1 = n + (m - 1) from by omega]
      exact last

theorem length_readBodies_le {hs : List Heredoc} {line : Nat} {t : Text} {found : List Finding}
    {length lines : Nat} (h : readBodies hs line t = (found, .ok (length, lines))) :
    length ≤ t.length := by
  induction hs generalizing line t found length lines with
  | nil =>
    cases h
    exact Nat.zero_le _
  | cons d ds ih =>
    obtain ⟨n, k, bodies, m, j, hb, hrest, rfl, rfl, rfl⟩ := readBodies_cons_eq_ok.1 h
    have first := length_body?_le hb
    have others := ih hrest
    rw [List.length_drop] at others
    omega

/-- The bodies have as many lines as line feeds, if the last line is finished. -/
theorem lineFeeds_readBodies {hs : List Heredoc} {line : Nat} {t : Text} {found : List Finding}
    {length lines : Nat} (h : readBodies hs line t = (found, .ok (length, lines)))
    (finished : t.Closed ∨ length < t.length) :
    Text.lineFeeds (t.take length) = lines ∧ length ≤ t.length := by
  induction hs generalizing line t found length lines with
  | nil =>
    cases h
    exact ⟨rfl, Nat.zero_le _⟩
  | cons d ds ih =>
    obtain ⟨n, k, bodies, m, j, hb, hrest, rfl, rfl, rfl⟩ := readBodies_cons_eq_ok.1 h
    obtain ⟨first, hn⟩ := lineFeeds_body? hb (finished.imp_right (by omega))
    have behind : Text.Closed (t.drop n) ∨ m < (t.drop n).length := by
      rw [List.length_drop]
      exact finished.imp (·.of_suffix (List.drop_suffix n t)) (by omega)
    obtain ⟨others, hm⟩ := ih hrest behind
    rw [List.length_drop] at hm
    rw [List.take_add, Text.lineFeeds_append, first, others]
    exact ⟨rfl, by omega⟩

end Tokenizer

/-! ## Embedded documents -/

/-- An embedded document ends with the text of the first line that closes it. -/
theorem embeddedDocument?_eq_some {t : Text} {length lines : Nat}
    (h : embeddedDocument? t = some (length, lines)) : ∃ p ps k, Text.pieces t = p :: ps ∧
      ps.findIdx? (wordAhead "=end" wordEnds) = some k ∧ lines = k + 1 ∧
      length = (p :: ps.take k).flatten.length +
        ((ps[k]?.getD []).takeWhile (· != '\n')).length := by
  unfold embeddedDocument? at h
  split at h
  · cases h
  · next p ps hp =>
    split at h
    · cases h
    · next k hk =>
      obtain ⟨rfl, rfl⟩ := Prod.mk.inj (Option.some.inj h)
      exact ⟨p, ps, k, hp, hk, rfl, rfl⟩

theorem bne_lineFeed {u : Text} (h : '\n' ∉ u) : ∀ c ∈ u, (c != '\n') = true := fun _ hc =>
  bne_iff_ne.2 fun heq => h (heq ▸ hc)

theorem length_piece_le {t p : Text} (h : p ∈ Text.pieces t) :
    p.length ≤ (p.takeWhile (· != '\n')).length + 1 := by
  rcases Text.notMem_of_mem_pieces h with ⟨u, hu, rfl⟩ | hp
  · rw [List.takeWhile_append_of_pos (bne_lineFeed hu), List.length_append, List.length_append]
    exact Nat.add_le_add_right (Nat.le_add_right _ _) 1
  · have whole : (p ++ []).takeWhile (· != '\n') = p ++ [].takeWhile (· != '\n') :=
      List.takeWhile_append_of_pos (bne_lineFeed hp)
    rw [List.append_nil] at whole
    rw [whole, List.takeWhile_nil, List.append_nil]
    exact Nat.le_add_right _ _

/-- An embedded document does not depend on what follows the line that ends it. -/
theorem embeddedDocument?_append {y s : Text} {length lines : Nat} (hs : s = [] → y.Closed)
    (h : embeddedDocument? (y ++ s) = some (length, lines)) (hlt : length < y.length) (t : Text) :
    embeddedDocument? (y ++ t) = some (length, lines) := by
  obtain ⟨p, ps, k, hpieces, hk, rfl, rfl⟩ := embeddedDocument?_eq_some h
  have hps := (List.findIdx?_eq_some_iff_findIdx_eq.1 hk).1
  have closing := length_piece_le (t := y ++ s) (p := ps[k])
    (by rw [hpieces]; exact List.mem_cons_of_mem p (List.getElem_mem hps))
  have front : (Text.pieces (y ++ s)).take (k + 2) = p :: ps.take (k + 1) := by
    rw [hpieces]
    rfl
  -- all lines of the document are in the first part
  have within : ((Text.pieces (y ++ s)).take (k + 2)).flatten.length ≤ y.length := by
    rw [List.getElem?_eq_getElem hps, Option.getD_some] at hlt
    rw [front, List.take_succ_eq_append_getElem hps, ← List.cons_append, List.flatten_append,
      List.length_append, List.flatten_singleton]
    omega
  obtain ⟨z, -, -, hcut⟩ := Text.exists_take_pieces hs within
  unfold embeddedDocument?
  rw [hcut t, front, List.cons_append]
  dsimp only
  rw [List.findIdx?_append, findIdx?_take hk, Option.some_or]
  dsimp only
  rw [List.take_append_of_le_length (by rw [List.length_take]; omega), List.take_take,
    Nat.min_eq_left (Nat.le_succ k), List.getElem?_append_left (by rw [List.length_take]; omega),
    List.getElem?_take_of_lt (Nat.lt_succ_self k)]

theorem lineFeed_notMem_takeWhile (t : Text) : '\n' ∉ t.takeWhile (· != '\n') := fun h =>
  absurd (List.all_eq_true.1 List.all_takeWhile _ h) (by decide)

/-- An embedded document ends behind as many line feeds as it has lines above its last. -/
theorem lineFeeds_embeddedDocument? {t : Text} {length lines : Nat}
    (h : embeddedDocument? t = some (length, lines)) :
    Text.lineFeeds (t.take length) = lines ∧ (t.Closed → length < t.length) := by
  obtain ⟨p, ps, k, hpieces, hk, rfl, rfl⟩ := embeddedDocument?_eq_some h
  have hps := (List.findIdx?_eq_some_iff_findIdx_eq.1 hk).1
  -- the lines above the last are finished, and of the last the line feed is left
  have above : ∀ q ∈ p :: ps.take k, Text.IsLine q := by
    have taken := Text.isLine_of_mem_take (t := t) (k := k + 1)
      (.inl (by rw [hpieces, List.length_cons]; omega))
    rw [hpieces] at taken
    exact taken
  rw [List.getElem?_eq_getElem hps, Option.getD_some]
  have whole : t = (p :: ps.take k).flatten ++ (ps[k] ++ (ps.drop (k + 1)).flatten) := by
    rw [← List.flatten_cons, List.getElem_cons_drop, ← List.flatten_append, List.cons_append,
      List.take_append_drop, ← hpieces, Text.flatten_pieces]
  constructor
  · have last : ps[k] = ps[k].takeWhile (· != '\n') ++ ps[k].dropWhile (· != '\n') :=
      List.takeWhile_append_dropWhile.symm
    have front : t.take ((p :: ps.take k).flatten.length + (ps[k].takeWhile (· != '\n')).length) =
        (p :: ps.take k).flatten ++ ps[k].takeWhile (· != '\n') := by
      conv => lhs; arg 2; rw [whole, last]
      rw [List.append_assoc, ← List.append_assoc, ← List.length_append, List.take_left]
    rw [front, Text.lineFeeds_append, Text.lineFeeds_flatten above,
      Text.lineFeeds_eq_zero (lineFeed_notMem_takeWhile _), List.length_cons, List.length_take]
    omega
  · intro closed
    obtain ⟨u, hu, hline⟩ := closed.isLine ps[k]
      (by rw [hpieces]; exact List.mem_cons_of_mem p (List.getElem_mem hps))
    have short : (ps[k].takeWhile (· != '\n')).length < ps[k].length := by
      refine Nat.lt_of_le_of_ne (List.takeWhile_sublist _).length_le fun heq => ?_
      have same := (List.takeWhile_prefix (· != '\n')).eq_of_length heq
      apply lineFeed_notMem_takeWhile ps[k]
      rw [same, hline]
      exact List.mem_append_right u (List.mem_singleton_self _)
    have length := congrArg List.length whole
    rw [List.length_append, List.length_append] at length
    omega

/-- An embedded document ends behind a character of its last line, and before the end of that
line. -/
theorem exists_embeddedDocument {t : Text} {length lines : Nat}
    (h : embeddedDocument? t = some (length, lines)) : ∃ v a, t = v ++ a ∧ v.length = length ∧
      (a = [] ∨ ∃ r, a = '\n' :: r) ∧ ∃ c, v.getLast? = some c ∧ c ≠ '\n' := by
  obtain ⟨p, ps, k, hpieces, hk, rfl, rfl⟩ := embeddedDocument?_eq_some h
  obtain ⟨hps, closing, -⟩ := List.findIdx?_eq_some_iff_getElem.1 hk
  rw [List.getElem?_eq_getElem hps, Option.getD_some]
  have whole : t = (p :: ps.take k).flatten ++ ps[k].takeWhile (· != '\n') ++
      (ps[k].dropWhile (· != '\n') ++ (ps.drop (k + 1)).flatten) := by
    rw [List.append_assoc, ← List.append_assoc (ps[k].takeWhile _), List.takeWhile_append_dropWhile,
      ← List.flatten_cons, List.getElem_cons_drop, ← List.flatten_append, List.cons_append,
      List.take_append_drop, ← hpieces, Text.flatten_pieces]
  refine ⟨_, _, whole, by rw [List.length_append], ?_, ?_⟩
  · -- the last line is finished, or nothing follows it
    have finished : Text.IsLine ps[k] ∨ '\n' ∉ ps[k] ∧ ps.drop (k + 1) = [] := by
      by_cases more : k + 1 < ps.length
      · refine .inl (Text.isLine_of_mem_take (t := t) (k := k + 2) (.inl ?_) ps[k] ?_)
        · rw [hpieces, List.length_cons]
          omega
        · rw [hpieces, List.take_succ_cons]
          exact List.mem_cons_of_mem p (List.mem_take_iff_getElem.2 ⟨k, by omega, rfl⟩)
      · refine (Text.notMem_of_mem_pieces (t := t) (p := ps[k]) ?_).imp_right fun last => ⟨last, ?_⟩
        · rw [hpieces]
          exact List.mem_cons_of_mem p (List.getElem_mem hps)
        · exact List.drop_of_length_le (Nat.le_of_not_lt more)
    rcases finished with ⟨u, hu, line⟩ | ⟨last, none⟩
    · right
      rw [line, List.dropWhile_append_of_pos (bne_lineFeed hu)]
      exact ⟨_, rfl⟩
    · left
      rw [none, List.flatten_nil, List.append_nil, List.dropWhile_eq_nil_iff]
      exact bne_lineFeed last
  · -- the last line starts with `=end`, and so its text is not empty
    unfold wordAhead at closing
    rw [Option.any_eq_true] at closing
    obtain ⟨r, hr, -⟩ := closing
    have first : ps[k] = '=' :: ('e' :: 'n' :: 'd' :: r) :=
      (List.append_eq_of_isPrefixOf?_eq_some hr).symm
    cases hlast : (ps[k].takeWhile (· != '\n')).getLast? with
    | none =>
      rw [List.getLast?_eq_none_iff, first] at hlast
      cases hlast
    | some c =>
      refine ⟨c, by rw [List.getLast?_append, hlast]; rfl, fun lineFeed => ?_⟩
      exact lineFeed_notMem_takeWhile ps[k] (lineFeed ▸ List.mem_of_getLast? hlast)

theorem length_embeddedDocument?_le {t : Text} {length lines : Nat}
    (h : embeddedDocument? t = some (length, lines)) : length ≤ t.length := by
  obtain ⟨v, a, rfl, rfl, -⟩ := exists_embeddedDocument h
  rw [List.length_append]
  exact Nat.le_add_right _ _

end Source

end Marginalia
