import Marginalia.Proofs.Source.Heredocs
import Marginalia.Proofs.Source.Hinges
import Marginalia.Proofs.Source.Narrow
import Marginalia.Proofs.Text.Returns

/-!
# Reading before a carriage return

What is read at one place of a program, once every line feed has a carriage return before it. A
lexeme is the same (`Lexeme.read_withReturns`); a literal, the bodies of here-documents and an
embedded document are longer by the returns in them, the embedded document also by the return behind
its last line. A character literal with an escape and the variable `$-` can take the line feed
itself, and so a program must hold neither.
-/

namespace Marginalia.Source

open Text

/-- A program whose line ends are line feeds, none of which a character literal or a variable can
take. -/
structure Plain (source : Text) : Prop where
  noReturn : '\r' ∉ source
  noEscape : ¬ ['?', '\\'] <:+: source
  noDash : ¬ ['$', '-'] <:+: source

/-- The end of a plain source is plain. -/
theorem Plain.of_suffix {source t : Text} (h : Plain source) (suffix : t <:+ source) : Plain t where
  noReturn := fun hm => h.noReturn (suffix.subset hm)
  noEscape := fun within => h.noEscape (within.trans suffix.isInfix)
  noDash := fun within => h.noDash (within.trans suffix.isInfix)

/-! ## Lexemes -/

namespace Lexeme

variable {m : Memory} {spaced : Bool} {c : Char} {r x p q : Text}

/-- A key is known by the characters of its own line. -/
theorem labelColon_lineStops (name y : Text) (hp : LineStops p) (hq : LineStops q) :
    labelColon name (y ++ p) = labelColon name (y ++ q) := by
  obtain ⟨d, a, rfl, hd⟩ := hp
  obtain ⟨e, b, rfl, he⟩ := hq
  cases y with
  | nil => rcases hd with rfl | rfl <;> rcases he with rfl | rfl <;> rfl
  | cons c y =>
    by_cases hc : c = ':'
    · subst hc
      cases y with
      | nil => rcases hd with rfl | rfl <;> rcases he with rfl | rfl <;> rfl
      | cons f y => rfl
    · have other : ∀ u : Text, labelColon name (c :: u) = false := fun u => by
        unfold labelColon
        split
        · next heq => exact absurd (List.cons.inj heq).1 hc
        · rfl
      exact (other _).trans (other _).symm

/-- A word is the same before any two ends of lines. -/
theorem word_lineStops (m : Memory) (c : Char) (x : Text) (hp : LineStops p) (hq : LineStops q) :
    word m c (x ++ p) = word m c (x ++ q) := by
  have within := wordLength_le x
  rw [word_eq, word_eq, wordLength_append x hp.stops, wordLength_append x hq.stops,
    List.take_append_of_le_length within, List.take_append_of_le_length within,
    List.drop_append_of_le_length within, List.drop_append_of_le_length within]
  unfold wordBefore
  rw [labelColon_lineStops _ _ hp hq]

/-- What starts no name is no hinge in a plain program. -/
theorem hinges_eq_false {s : Text} (plain : Plain (c :: (x ++ s))) (name : isNameStart c = false) :
    hinges m (c :: x) = false := by
  rw [hinges_cons, name, if_neg Bool.false_ne_true]
  split
  · next dollar =>
    rw [Bool.eq_false_iff]
    intro dash
    rw [beq_iff_eq.1 dollar, beq_iff_eq.1 dash] at plain
    exact plain.noDash (List.prefix_append ['$', '-'] s).isInfix
  · rw [Bool.eq_false_iff]
    intro char
    rw [Bool.and_eq_true, Bool.and_eq_true, beq_iff_eq] at char
    obtain ⟨⟨rfl, -⟩, escape⟩ := char
    unfold openChar at escape
    split at escape
    · next y => exact plain.noEscape (List.prefix_append ['?', '\\'] (y ++ s)).isInfix
    · cases escape

/-- The same lexeme starts before either end of a line, and it does not reach beyond the line. -/
theorem read_lineStops {s : Text} (code : isAsciiBlank c = false) (uncommented : c ≠ '#')
    (hx : '\n' ∉ x) (unnamed : m.namesMethod = false) (plain : Plain (c :: (x ++ s))) :
    read m spaced c (x ++ '\r' :: '\n' :: p) = read m spaced c (x ++ '\n' :: q) ∧
      (read m spaced c (x ++ '\n' :: q)).more ≤ x.length := by
  have hp : LineStops ('\r' :: '\n' :: p) := ⟨_, _, rfl, .inr rfl⟩
  have hq : LineStops ('\n' :: q) := ⟨_, _, rfl, .inl rfl⟩
  cases name : isNameStart c with
  | true =>
    rw [read_of_nameStart name, read_of_nameStart name]
    exact ⟨word_lineStops m c x hp hq, word_within m c x hq.stops⟩
  | false =>
    -- a here-document takes the rest of the line, all else ends before the return
    cases hopen : opensHeredoc m spaced (c :: x) with
    | true =>
      have left := read_of_opensHeredoc (u := ['\r']) (a := '\n' :: p) hopen hx
        (fun d hd => by rw [List.mem_singleton.1 hd]; decide) (.inr ⟨p, rfl⟩) hp.stops
      have right := read_of_opensHeredoc (u := []) (a := '\n' :: q) hopen hx (by nofun)
        (.inr ⟨q, rfl⟩)
        hq.stops
      rw [List.nil_append] at right
      rw [right]
      exact ⟨left, Nat.zero_le _⟩
    | false =>
      have none : (hinges m (c :: x) || opensHeredoc m spaced (c :: x)) = false := by
        rw [hinges_eq_false plain name, hopen]
        rfl
      have le := read_more_le m spaced c (x ++ [])
      rw [read_append code uncommented hx unnamed ⟨stops_nil, hq.stops, .inl none⟩, List.append_nil]
        at le
      exact ⟨read_append code uncommented hx unnamed ⟨hp.stops, hq.stops, .inl none⟩, le⟩

/-- The same lexeme starts at a place, and it holds no line feed. -/
theorem read_withReturns (code : isAsciiBlank c = false) (uncommented : c ≠ '#')
    (unnamed : m.namesMethod = false) (plain : Plain (c :: r)) :
    read m spaced c (withReturns r) = read m spaced c r ∧
      '\n' ∉ (c :: r).take ((read m spaced c r).more + 1) := by
  have visible : c ≠ '\n' := by
    rintro rfl
    exact absurd code (by decide)
  obtain ⟨x, s, rfl, hx, rfl | ⟨a, rfl⟩⟩ := Tokenizer.exists_line r
  · rw [List.append_nil, withReturns_of_notMem hx]
    refine ⟨rfl, fun hm => ?_⟩
    rcases List.mem_cons.1 (List.mem_of_mem_take hm) with hm | hm
    · exact visible hm.symm
    · exact hx hm
  · rw [withReturns_append, withReturns_lineFeed, withReturns_of_notMem hx]
    obtain ⟨same, within⟩ : read m spaced c (x ++ '\r' :: '\n' :: withReturns a) =
        read m spaced c (x ++ '\n' :: a) ∧ (read m spaced c (x ++ '\n' :: a)).more ≤ x.length :=
      read_lineStops code uncommented hx unnamed plain
    exact ⟨same, Tokenizer.lineFeed_notMem_take visible hx within _⟩

/-- The name of a method is not changed by returns. -/
theorem methodName?_withReturns (c : Char) (r : Text) :
    methodName? c (withReturns r) = methodName? c r := by
  obtain ⟨x, s, rfl, hx, rfl | ⟨a, rfl⟩⟩ := Tokenizer.exists_line r
  · rw [List.append_nil, withReturns_of_notMem hx]
  · rw [withReturns_append, withReturns_lineFeed, withReturns_of_notMem hx]
    have hp : LineStops ('\r' :: '\n' :: withReturns a) := ⟨_, _, rfl, .inr rfl⟩
    have hq : LineStops ('\n' :: a) := ⟨_, _, rfl, .inl rfl⟩
    cases hinge : isNameStart c && openSetter x with
    | true =>
      rw [Bool.and_eq_true] at hinge
      have setter := fun {u : Text} (hu : LineStops u) =>
        (methodName?_of_openSetter (q := [' ']) hinge.1 hinge.2 hu rfl).1
      exact (setter hp).trans (setter hq).symm
    | false => exact methodName?_append ⟨hp.stops, hq.stops, .inl hinge⟩

end Lexeme

/-! ## Literals -/

/-- Neither closer nor opener is a blank. -/
structure Delimiters.Visible (d : Delimiters) : Prop where
  close : isAsciiBlank d.close = false
  opener : ∀ c, d.opener = some c → isAsciiBlank c = false

/-- What is read as a literal has visible delimiters. -/
theorem Lexeme.visible_of_read {m : Memory} {spaced : Bool} {c : Char} {r : Text} {n : Nat}
    {d : Delimiters} {flags : Bool} (h : read m spaced c r = .delimited n d flags) : d.Visible := by
  refine ⟨blank_close_of_read h, ?_⟩
  have yields := yields_read m spaced c r
  rw [h] at yields
  cases yields with
  | quoted => exact nofun
  | percent opening =>
    intro e he
    unfold Delimiters.ofOpening at he
    split at he <;> first | cases he; decide | cases he

/-- Where the reading of a literal stops when returns are added. -/
def LiteralStop.returned (t : Text) : LiteralStop → LiteralStop
  | .closed n => .closed (place t n)
  | .interpolation n depth inClass => .interpolation (place t n) depth inClass
  | .unterminated => .unterminated
  | .split => .split

/-- The stop of a literal is moved by the returns on the way. -/
theorem LiteralStop.returned_after (stop : LiteralStop) (x r : Text) :
    (stop.after x.length).returned (x ++ r) = (stop.returned r).after (withReturns x).length := by
  have moved : ∀ n, place (x ++ r) (x.length + n) = (withReturns x).length + place r n :=
    fun n => by
    rw [place_add, List.drop_left, place, List.take_left, length_withReturns]
  cases stop with
  | closed n => exact congrArg LiteralStop.closed (moved n)
  | interpolation n depth inClass =>
    exact congrArg (LiteralStop.interpolation · depth inClass) (moved n)
  | unterminated => rfl
  | split => rfl

namespace Delimiters

variable {d : Delimiters}

/-- A blank neither closes a literal nor nests in it. -/
theorem next_blank (visible : d.Visible) {c : Char} (blank : isAsciiBlank c) (depth : Nat)
    (inClass brace : Bool) : d.next depth inClass c brace = .inr (depth, inClass) := by
  have hash : (c == '#') = false := solid_beq (by decide) c blank
  have opening : (c == '[') = false := solid_beq (by decide) c blank
  have closing : (c == ']') = false := solid_beq (by decide) c blank
  have opener : (d.opener == some c) = false := by
    rw [beq_eq_false_iff_ne]
    intro h
    rw [visible.opener c h] at blank
    cases blank
  have closes : d.closes c = false := by
    rw [Bool.eq_false_iff]
    intro h
    rw [visible_of_closes visible.close h] at blank
    cases blank
  unfold next
  rw [hash, opening, closing, opener, closes]
  rfl

/-- What stops the reading has been read on one line. -/
theorem next_inl {depth : Nat} {inClass brace : Bool} {c : Char} {stop : LiteralStop}
    (h : d.next depth inClass c brace = .inl stop) :
    stop = .split ∨ stop = .closed 1 ∨ brace ∧ stop = .interpolation 2 depth inClass := by
  unfold next at h
  split at h
  · next hopen =>
    cases h
    rw [Bool.and_eq_true] at hopen
    exact .inr (.inr ⟨hopen.2, rfl⟩)
  split at h
  · cases h
  split at h
  · cases h
  split at h
  · cases h
  split at h
  · split at h
    · cases h
      split
      · exact .inl rfl
      · exact .inr (.inl rfl)
    · cases h
  · cases h

/-- What stops the reading on one line stops it at the same place. -/
theorem returned_of_next {depth : Nat} {inClass : Bool} {c : Char} {r : Text} {stop : LiteralStop}
    (h : d.next depth inClass c (r.head? == some '{') = .inl stop) (line : c ≠ '\n') :
    stop.returned (c :: r) = stop := by
  rcases next_inl h with rfl | rfl | ⟨brace, rfl⟩
  · rfl
  · have one : '\n' ∉ [c] := by
      rw [List.mem_singleton]
      exact Ne.symm line
    exact congrArg LiteralStop.closed (place_of_notMem (t := c :: r) (n := 1) one)
  · obtain ⟨a, rfl⟩ := List.head?_eq_some_iff.1 (beq_iff_eq.1 brace)
    have two : '\n' ∉ [c, '{'] := by
      rw [List.mem_cons, not_or]
      exact ⟨Ne.symm line, by decide⟩
    exact congrArg (LiteralStop.interpolation · depth inClass)
      (place_of_notMem (t := c :: '{' :: a) (n := 2) two)

theorem read_withReturns (visible : d.Visible) (depth : Nat) (inClass : Bool) (t : Text) :
    d.read depth inClass (withReturns t) = (d.read depth inClass t).returned t := by
  -- blanks are passed over, and a line end is one or two of them
  have pass : ∀ {c : Char}, isAsciiBlank c → ∀ depth inClass r,
      d.read depth inClass (c :: r) = (d.read depth inClass r).after 1 := by
    intro c hc depth inClass r
    rw [read_cons (by rintro rfl; exact absurd hc (by decide)), next_blank visible hc]
  induction t using read_induction generalizing depth inClass with
  | nil =>
    rw [withReturns_nil, read_nil]
    rfl
  | lone =>
    show d.read depth inClass ['\\'] = _
    rw [read_lone]
    rfl
  | backslash e r ih =>
    have moved := (d.read depth inClass r).returned_after ['\\', e] r
    rw [read_backslash]
    refine Eq.trans ?_ moved.symm
    by_cases he : e = '\n'
    · subst he
      show d.read depth inClass ('\\' :: '\r' :: '\n' :: withReturns r) = _
      rw [read_backslash, pass (by decide), ih, LiteralStop.after_after]
      rfl
    · rw [withReturns_cons (by decide), withReturns_cons he, read_backslash, ih,
        withReturns_cons (by decide), withReturns_cons he]
      rfl
  | cons c r hc ih =>
    have moved := fun n b => (d.read n b r).returned_after [c] r
    by_cases line : c = '\n'
    · subst line
      rw [withReturns_lineFeed, pass (by decide), pass (by decide), pass (by decide), ih,
        LiteralStop.after_after]
      exact (moved depth inClass).symm
    · have brace : ((withReturns r).head? == some '{') = (r.head? == some '{') :=
        first_withReturns (p := fun u => u.head? == some '{') (fun _ _ _ => rfl) rfl r
      rw [withReturns_cons line, read_cons hc, read_cons hc, brace]
      cases hnext : d.next depth inClass c (r.head? == some '{') with
      | inl stop => exact (returned_of_next hnext line).symm
      | inr go =>
        obtain ⟨n, b⟩ := go
        show (d.read n b (withReturns r)).after 1 = ((d.read n b r).after 1).returned (c :: r)
        rw [ih]
        refine Eq.trans ?_ (moved n b).symm
        rw [withReturns_cons line]
        rfl

end Delimiters

/-! ## Lines that are not code -/

/-- A line closes a here-document just if it does so with a return. -/
theorem closedBy_withReturns (h : Heredoc) {p : Text} (hp : IsLine p ∨ '\n' ∉ p) :
    h.closedBy (withReturns p) = h.closedBy p := by
  unfold Heredoc.closedBy
  rw [lineText_withReturns hp]

/-- The first pieces of a text are what is taken of it. -/
theorem take_pieces (t : Text) (k : Nat) :
    t.take ((pieces t).take k).flatten.length = ((pieces t).take k).flatten := by
  have whole : ((pieces t).take k).flatten ++ ((pieces t).drop k).flatten = t := by
    rw [← List.flatten_append, List.take_append_drop, flatten_pieces]
  conv => lhs; arg 2; rw [← whole]
  exact List.take_left

/-- The body of a here-document has the same lines, with the returns in them. -/
theorem body?_withReturns (h : Heredoc) (t : Text) :
    h.body? (withReturns t) = (h.body? t).map fun (n, k) => (place t n, k) := by
  have found : ((pieces t).map withReturns).findIdx? h.closedBy = (pieces t).findIdx? h.closedBy :=
    findIdx?_map_of_eq fun p hp => closedBy_withReturns h (notMem_of_mem_pieces hp)
  have length : ∀ k, (((pieces t).map withReturns).take k).flatten.length =
      place t ((pieces t).take k).flatten.length := fun k => by
    rw [← List.map_take, ← withReturns_flatten, length_withReturns, place, take_pieces]
  unfold Heredoc.body?
  dsimp only
  rw [pieces_withReturns, found, Option.map_map]
  congr 1
  funext k
  exact congrArg (·, k + 1) (length (k + 1))

/-- The bodies of here-documents have the same lines, with the returns in them. -/
theorem readBodies_withReturns (hs : List Heredoc) (line : Nat) (t : Text) :
    Tokenizer.readBodies hs line (withReturns t) = ((Tokenizer.readBodies hs line t).1,
      (Tokenizer.readBodies hs line t).2.map fun (n, k) => (place t n, k)) := by
  induction hs generalizing line t with
  | nil => rfl
  | cons h hs ih =>
    unfold Tokenizer.readBodies
    rw [body?_withReturns]
    cases h.body? t with
    | none => rfl
    | some body =>
      obtain ⟨n, k⟩ := body
      dsimp only [Option.map_some]
      rw [drop_place, ih]
      cases (Tokenizer.readBodies hs (line + k) (t.drop n)).2 with
      | error d => rfl
      | ok more =>
        refine Prod.ext rfl (congrArg Except.ok (congrArg (·, k + more.2) ?_))
        exact (place_add t n more.1).symm

/-- A word that is ahead is ahead with returns, too. -/
theorem wordAhead_withReturns {w : String} {ends : Text → Bool} (line : '\n' ∉ w.toList)
    (noReturn : '\r' ∉ w.toList) (h : ∀ u, ends (withReturns u) = ends u) (t : Text) :
    wordAhead w ends (withReturns t) = wordAhead w ends t := by
  unfold wordAhead
  rw [isPrefixOf?_withReturns line noReturn, Option.any_map]
  congr 1
  funext u
  exact h u

/-- A word has ended just if it has with returns. -/
theorem wordEnds_withReturns (t : Text) : wordEnds (withReturns t) = wordEnds t :=
  first_withReturns Tokenizer.wordEnds_cons rfl t

/-- A line has ended just if it has with returns. -/
theorem lineEnds_withReturns (t : Text) : lineEnds (withReturns t) = lineEnds t :=
  first_withReturns Tokenizer.lineEnds_cons rfl t

/-- How many returns come to stand directly before a text. -/
def returnAhead (t : Text) : Nat := if t.head? = some '\n' then 1 else 0

/-- What reaches to the end of a line takes the return there. -/
theorem run_withReturns (t : Text) : run (· != '\n') (withReturns t) =
    run (· != '\n') t + returnAhead (t.drop (run (· != '\n') t)) := by
  induction t with
  | nil => rfl
  | cons c t ih =>
    by_cases hc : c = '\n'
    · rw [hc]
      rfl
    · have more : ∀ u : Text, run (· != '\n') (c :: u) = run (· != '\n') u + 1 := fun u => by
        rw [run, List.takeWhile_cons, if_pos (bne_iff_ne.2 hc)]
        rfl
      rw [withReturns_cons hc, more, more, ih, List.drop_succ_cons]
      omega

/-- A piece ends in the line feed of its line, or nothing is left behind it. -/
theorem returnAhead_piece {t q : Text} {above below : List Text}
    (h : pieces t = above ++ q :: below) :
    returnAhead (q.drop (run (· != '\n') q) ++ below.flatten) =
      returnAhead (q.drop (run (· != '\n') q)) := by
  cases hdrop : q.drop (run (· != '\n') q) with
  | cons c r => rfl
  | nil =>
    have unfinished : ¬ IsLine q := by
      rintro ⟨u, hu, rfl⟩
      rw [run, Tokenizer.takeWhile_line hu, List.drop_left] at hdrop
      cases hdrop
    have last : ¬ above.length + 1 < (pieces t).length := fun more => by
      refine unfinished (isLine_of_mem_take (.inl more) q ?_)
      rw [h, List.take_append, List.take_of_length_le (Nat.le_succ _), Nat.add_sub_cancel_left]
      exact List.mem_append_right above (List.mem_singleton_self q)
    rw [h, List.length_append, List.length_cons] at last
    rw [List.eq_nil_of_length_eq_zero (l := below) (by omega)]
    rfl

/-- An embedded document takes the return behind its last line. -/
theorem embeddedDocument?_withReturns (t : Text) : embeddedDocument? (withReturns t) =
    (embeddedDocument? t).map fun (n, k) => (place t n + returnAhead (t.drop n), k) := by
  unfold embeddedDocument?
  rw [pieces_withReturns]
  cases hpieces : pieces t with
  | nil => rfl
  | cons p ps =>
    have found : (ps.map withReturns).findIdx? (wordAhead "=end" wordEnds) =
        ps.findIdx? (wordAhead "=end" wordEnds) := findIdx?_map_of_eq fun q _ =>
      wordAhead_withReturns (by decide) (by decide) wordEnds_withReturns q
    rw [List.map_cons]
    dsimp only
    rw [found]
    cases hk : ps.findIdx? (wordAhead "=end" wordEnds) with
    | none => rfl
    | some k =>
      have hlt := (List.findIdx?_eq_some_iff_findIdx_eq.1 hk).1
      have cut : pieces t = (p :: ps.take k) ++ ps[k] :: ps.drop (k + 1) := by
        rw [List.getElem_cons_drop, List.cons_append, List.take_append_drop, hpieces]
      dsimp only [Option.map_some]
      rw [List.getElem?_map, List.getElem?_eq_getElem hlt, Option.map_some, Option.getD_some,
        Option.getD_some]
      generalize ps[k] = q at cut
      refine congrArg some (congrArg (·, k + 1) ?_)
      show _ + run (· != '\n') (withReturns q) =
        place t (_ + run (· != '\n') q) + returnAhead (t.drop (_ + run (· != '\n') q))
      -- the lines above the last are longer by their returns, and the last by the one that is ahead
      have whole : t = (p :: ps.take k).flatten ++ (q ++ (ps.drop (k + 1)).flatten) := by
        rw [← List.flatten_cons, ← List.flatten_append, ← cut, flatten_pieces]
      have above : (withReturns p :: (ps.map withReturns).take k).flatten.length =
          (withReturns (p :: ps.take k).flatten).length := by
        rw [withReturns_flatten, List.map_cons, List.map_take]
      have within := run_le (· != '\n') q
      have line : place (q ++ (ps.drop (k + 1)).flatten) (run (· != '\n') q) =
          run (· != '\n') q := by
        refine place_of_notMem ?_
        rw [List.take_append_of_le_length within, Lexeme.take_run]
        exact lineFeed_notMem_takeWhile q
      rw [above, run_withReturns q, place_add, ← List.drop_drop, whole, List.drop_left, line,
        List.drop_append_of_le_length within, returnAhead_piece cut, length_withReturns, place,
        List.take_left, Nat.add_assoc, Nat.add_assoc, Nat.add_assoc]

end Marginalia.Source
