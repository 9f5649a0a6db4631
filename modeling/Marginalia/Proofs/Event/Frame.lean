import Marginalia.Event.Stream
import Marginalia.Proofs.Json.RoundTrip
import Marginalia.Proofs.Text.Utf8

/-!
# Frames of events

An event in range is read back from its frame, and its frame is one line. Whatever its texts hold,
the value that is written fits what the reader takes: its numbers are in range, and it is three
levels deep at most.
-/

namespace Marginalia.Event

open JsonValue (Fits)

/-! ## Values -/

/-- The value of an event in range can be read. -/
theorem fits_toJson {e : Event} (h : e.InRange) : Fits JsonValue.maxDepth e.toJson := by
  have number {n : Nat} (hn : n < UInt64.size) : Fits 126 (.integer n) := by
    apply Fits.integer
    · omega
    · exact Int.ofNat_lt.2 hn
  have texts (ts : List Text) : Fits 126 (.array (ts.map .string)) := by
    apply @Fits.array 125
    intro v hv
    obtain ⟨t, -, rfl⟩ := List.mem_map.1 hv
    exact .string t
  -- the record is the outermost of the levels that the reader takes
  apply @Fits.object 126
  rw [List.map_cons, List.forall_mem_cons]
  refine ⟨.string _, ?_⟩
  cases e with
  | value line text =>
    simp only [fields, List.map_cons, List.map_nil, List.forall_mem_cons]
    exact ⟨number h, .string _, nofun⟩
  | exception line className message backtrace =>
    simp only [fields, List.map_cons, List.map_nil, List.forall_mem_cons]
    exact ⟨number h, .string _, .string _, texts backtrace, nofun⟩
  | stdout text =>
    simp only [fields, List.map_cons, List.map_nil, List.forall_mem_cons]
    exact ⟨.string _, nofun⟩
  | finished status =>
    simp only [fields, List.map_cons, List.map_nil, List.forall_mem_cons]
    refine ⟨.integer ?_ ?_, nofun⟩
    · have := h.1
      omega
    · have : status < 0x80000000 := h.2
      show status < 0x10000000000000000
      omega
  | debug text =>
    simp only [fields, List.map_cons, List.map_nil, List.forall_mem_cons]
    exact ⟨.string _, nofun⟩

/-- Texts are read back from strings. -/
theorem mapM_text? (ts : List Text) :
    (ts.map JsonValue.string).mapM (fun v => text? (some v)) = some ts := by
  induction ts with
  | nil => rfl
  | cons t ts ih =>
    rw [List.map_cons, List.mapM_cons, ih]
    rfl

/-- A backtrace is read back. -/
theorem backtrace?_map (ts : List Text) : backtrace? (some (.array (ts.map .string))) = some ts :=
  mapM_text? ts

/-- Strings are told apart by their characters. -/
theorem toList_beq (s t : String) : (s.toList == t.toList) = (s == t) := by
  rw [Bool.eq_iff_iff, beq_iff_eq, beq_iff_eq, String.toList_inj]

/-- The members of an object whose keys are given as names. -/
def named (fields : List (String × JsonValue)) : List (Text × JsonValue) :=
  fields.map fun m => (m.1.toList, m.2)

/-- A field is found by its name. -/
theorem filter_named {fields : List (String × JsonValue)} (h : (fields.map Prod.fst).Nodup)
    (key : String) :
    (named fields).filter (fun m => m.1 == key.toList) =
      (fields.lookup key).toList.map fun v => (key.toList, v) := by
  induction fields with
  | nil => rfl
  | cons m fields ih =>
    obtain ⟨name, v⟩ := m
    obtain ⟨absent, rest⟩ := List.nodup_cons.1 h
    have found := ih rest
    have step : named ((name, v) :: fields) = (name.toList, v) :: named fields := rfl
    rw [step, List.filter_cons, toList_beq, found]
    -- a name that is found does not come again
    by_cases hname : name = key
    · have none : fields.lookup key = none := by
        rw [List.lookup_eq_none_iff]
        intro m hm
        rw [bne_iff_ne]
        intro same
        exact absent (List.mem_map.2 ⟨m, hm, by rw [← same, hname]⟩)
      rw [none, hname, List.lookup_cons_self]
      simp
    · rw [List.lookup_cons, beq_eq_false_iff_ne.2 hname, beq_eq_false_iff_ne.2 (Ne.symm hname)]
      rfl

/-- A member is found by its name if no name occurs twice. -/
theorem member?_named {fields : List (String × JsonValue)}
    (h : (fields.map Prod.fst).Nodup) (key : String) :
    member? (named fields) key = some (fields.lookup key) := by
  rw [member?, filter_named h]
  cases fields.lookup key
  · rfl
  · rfl

theorem toJson_eq (e : Event) :
    e.toJson = .object (named (("event", .string e.kind.toList) :: e.fields)) := rfl

/-- The fields of an event have different names. -/
theorem nodup_names (e : Event) :
    ((("event", JsonValue.string e.kind.toList) :: e.fields).map Prod.fst).Nodup := by
  cases e
  all_goals
    simp only [fields, List.map_cons, List.map_nil]
    decide

/-- The kind of an event is read back. -/
theorem tag?_toJson (e : Event) : tag? e.toJson = some e.kind.toList := by
  have found := member?_named e.nodup_names "event"
  rw [List.lookup_cons_self] at found
  rw [toJson_eq, tag?]
  simp only [found]

/-- The fields of an event are read back by their names. -/
theorem arguments?_toJson (e : Event) (names : List String) :
    arguments? names e.toJson =
      some (names.map fun name =>
        List.lookup name (("event", .string e.kind.toList) :: e.fields)) := by
  rw [toJson_eq, arguments?]
  induction names with
  | nil => rfl
  | cons name names ih =>
    rw [List.mapM_cons, member?_named e.nodup_names, ih]
    rfl

/-- An event in range is read back from its value. -/
theorem ofJson?_toJson {e : Event} (h : e.InRange) : ofJson? e.toJson = some e := by
  -- what is looked up are literal names in a literal record
  simp only [ofJson?, tag?_toJson, arguments?_toJson, Option.bind_eq_bind, Option.bind_some,
    toList_beq]
  cases e with
  | value line text =>
    simp only [kind, fields, String.reduceBEq, reduceIte, List.map_cons, List.map_nil,
      List.lookup_cons, List.lookup_nil]
    rfl
  | exception line className message backtrace =>
    simp only [kind, fields, String.reduceBEq, Bool.false_eq_true, reduceIte, List.map_cons,
      List.map_nil, List.lookup_cons, List.lookup_nil, backtrace?_map]
    rfl
  | stdout text =>
    simp only [kind, fields, String.reduceBEq, Bool.false_eq_true, reduceIte, List.map_cons,
      List.map_nil, List.lookup_cons, List.lookup_nil]
    rfl
  | finished status =>
    have read : status? (some (.integer status)) = some status := if_pos h
    simp only [kind, fields, String.reduceBEq, Bool.false_eq_true, reduceIte, List.map_cons,
      List.map_nil, List.lookup_cons, List.lookup_nil, read]
    rfl
  | debug text =>
    simp only [kind, fields, String.reduceBEq, Bool.false_eq_true, reduceIte, List.map_cons,
      List.map_nil, List.lookup_cons, List.lookup_nil]
    rfl

/-! ## Frames -/

/-- The bytes of a frame without its end. -/
def content (e : Event) : Utf8.Bytes := Utf8.encode e.toJson.compact

/-- A frame is its content and a line feed. -/
theorem frame_eq (e : Event) : e.frame = e.content ++ [Stream.lineFeed] :=
  Utf8.encode_append e.toJson.compact ['\n']

theorem lineFeed_notMem_content {e : Event} (h : e.InRange) : Stream.lineFeed ∉ e.content :=
  Utf8.notMem_encode (by decide) rfl (fits_toJson h).lineFeed_notMem

/-- An event is read back from its frame. -/
theorem ofFrame?_content {e : Event} (h : e.InRange) : ofFrame? e.content = some e := by
  have parsed := @JsonValue.parse?_compact _ (fits_toJson h) [] rfl
  rw [List.append_nil] at parsed
  rw [ofFrame?, content, Utf8.decode?_encode, Option.bind_eq_bind, Option.bind_some,
    parsed]
  exact ofJson?_toJson h

/-- A frame is also read with the line feed that ends it. -/
theorem ofFrame?_frame {e : Event} (h : e.InRange) : ofFrame? e.frame = some e := by
  rw [ofFrame?, frame, Utf8.decode?_encode, Option.bind_eq_bind, Option.bind_some, frameText,
    JsonValue.parse?_compact (fits_toJson h) rfl]
  exact ofJson?_toJson h

/-- A frame ends in a brace, so there is no carriage return before its line feed. -/
theorem getLast?_content (e : Event) : e.content.getLast? = some 0x7D := by
  have written : e.toJson.compact = '{' ::
      JsonValue.compactMembers (named (("event", .string e.kind.toList) :: e.fields)) ++ ['}'] :=
        rfl
  rw [content, written, Utf8.encode_append, List.getLast?_append]
  rfl

end Marginalia.Event
