import Marginalia.Command
import Marginalia.Proofs.Engine.Session
import Marginalia.Proofs.Settings
import Marginalia.Proofs.Text

/-!
# What the command line overrides

A setting counts where the command line says nothing about it (`Command.Overrides`). Whether the
command comes to options at all is told by `Command.Usable`, in which no setting occurs for which a
flag is given, and by one more condition that no flag can lift: what the settings say about where
annotations start has to be the name of an alignment (`Settings.KnowsAlignment`). These two say all
(`Command.options_overridden`).
-/

namespace Marginalia

variable {ε α β : Type}

/-- A computation with two parts succeeds if both do. -/
theorem bind_eq_ok {x : Except ε α} {f : α → Except ε β} {b : β} :
    x.bind f = .ok b ↔ ∃ a, x = .ok a ∧ f a = .ok b := by
  cases x with
  | error e => exact ⟨fun h => (nomatch h), fun ⟨_, h, _⟩ => (nomatch h)⟩
  | ok a => exact ⟨fun h => ⟨a, rfl, h⟩, fun ⟨_, h, hf⟩ => Except.ok.inj h ▸ hf⟩

/-- A change of errors changes no answer. -/
theorem mapError_eq_ok {ε' : Type} {x : Except ε α} {f : ε → ε'} {a : α} :
    x.mapError f = .ok a ↔ x = .ok a := by
  cases x with
  | error e => exact ⟨fun h => (nomatch h), fun h => (nomatch h)⟩
  | ok b => exact ⟨fun h => congrArg _ (Except.ok.inj h), fun h => congrArg _ (Except.ok.inj h)⟩

/-! ## Settings -/

namespace Settings

variable {s : Settings}

/-- What the settings say about where annotations start, if they say anything, is the name of an
alignment. -/
def KnowsAlignment (s : Settings) : Prop :=
  ∀ name, s.get? "LINEWISE_ALIGNMENT".toList = some name → (Alignment.ofName? name).isSome

/-- The name of the alignment that the settings ask for. -/
def alignmentName (s : Settings) : Text :=
  (s.get? "LINEWISE_ALIGNMENT".toList).getD (Alignment.name .chunk)

/-- The options for annotating are those that the settings ask for. -/
theorem annotateOptions_eq_ok_iff {a : AnnotateOptions} : s.annotateOptions = .ok a ↔
    Alignment.ofName? s.alignmentName = some a.alignment ∧
      a.maxLength = s.count? "LINEWISE_RESULT_LENGTH".toList ∧ a.markers = {} := by
  obtain ⟨alignment, maxLength, markers⟩ := a
  unfold annotateOptions
  dsimp only
  split
  · next place known =>
    rw [show Alignment.ofName? s.alignmentName = some place from known]
    simp [eq_comm]
  · next unknown =>
    rw [show Alignment.ofName? s.alignmentName = none from unknown]
    simp

/-- The settings give options for annotating if they name an alignment, or none. -/
theorem knowsAlignment_iff : s.KnowsAlignment ↔ ∃ a, s.annotateOptions = .ok a := by
  have known : s.KnowsAlignment ↔ (Alignment.ofName? s.alignmentName).isSome := by
    unfold KnowsAlignment alignmentName
    cases s.get? "LINEWISE_ALIGNMENT".toList with
    | none => exact ⟨fun _ => by decide, fun _ _ h => absurd h.symm (Option.some_ne_none _)⟩
    | some name => exact ⟨fun h => h name rfl, fun h _ same => Option.some.inj same ▸ h⟩
  rw [known, Option.isSome_iff_exists]
  constructor
  · rintro ⟨alignment, h⟩
    exact ⟨{ alignment, maxLength := s.count? _ }, annotateOptions_eq_ok_iff.2 ⟨h, rfl, rfl⟩⟩
  · rintro ⟨a, h⟩
    exact ⟨a.alignment, (annotateOptions_eq_ok_iff.1 h).1⟩

/-- An alignment with another name is refused. -/
theorem annotateOptions_of_unknown {name : Text}
    (h : s.get? "LINEWISE_ALIGNMENT".toList = some name) (unknown : Alignment.ofName? name = none) :
    s.annotateOptions = .error (.invalidOption (.unknownAlignment name)) := by
  unfold annotateOptions
  rw [h]
  dsimp only [Option.getD_some]
  rw [unknown]

/-- A list of the settings has no entry that holds only blanks. -/
theorem not_blank_of_mem_list {name entry : Text} (h : entry ∈ s.list name) :
    Text.isBlankText entry = false := by
  unfold list at h
  split at h
  · obtain ⟨mem, nonempty⟩ := List.mem_filter.1 h
    obtain ⟨piece, -, rfl⟩ := List.mem_map.1 mem
    rw [Text.trim, Text.isBlankText_trimEnd]
    cases hstart : Text.trimStart piece with
    | nil =>
      rw [Text.trim, hstart] at nonempty
      cases nonempty
    | cons c r =>
      -- what is left behind blanks starts with no blank
      have first := List.head?_dropWhile_not Text.isBlank piece
      rw [show piece.dropWhile Text.isBlank = c :: r from hstart] at first
      simp_all [Text.isBlankText]
  · cases h

end Settings

namespace EvalOptions

/-- What is asked of options. -/
theorem validate_eq_ok_iff {o : EvalOptions} : o.validate = .ok () ↔
    Text.isBlankText o.interpreter = false ∧ (Path.fileName? o.fileName).isSome ∧
      o.encoding.any Text.isBlankText = false ∧ o.requireFiles.any Text.isBlankText = false := by
  have accepted : o.validate = .ok () ↔ o.fault? = none := by
    unfold validate
    cases o.fault? <;> simp
  rw [accepted, fault?]
  split
  · simp_all
  split
  · simp_all
  split
  · simp_all
  split
  · simp_all
  · simp_all [Option.isSome_iff_ne_none]

end EvalOptions

/-! ## Options -/

namespace Command

/-- The options for an evaluation and for annotating, of which each has the value of its flag, or
else the configured one; the entries of a list that the flags give come behind the configured
ones. -/
structure Overrides (c : CommandLine) (configured : Settings) (o : EvalOptions)
    (a : AnnotateOptions) :
    Prop where
  timeout : ∀ seconds, c.timeout = some seconds → seconds.toNanos = .ok o.timeout
  configuredTimeout : c.timeout = none → o.timeout = (EvalOptions.ofSettings configured).timeout
  maxLineCaptures : o.maxLineCaptures =
    c.maxLineCaptures.or (EvalOptions.ofSettings configured).maxLineCaptures
  encoding : o.encoding = c.encoding.or (EvalOptions.ofSettings configured).encoding
  port : o.port = c.port.getD (EvalOptions.ofSettings configured).port
  interpreter : o.interpreter = c.interpreter.getD (EvalOptions.ofSettings configured).interpreter
  alignment : ∀ name, c.alignment = some name → Alignment.ofName? name = some a.alignment
  configuredAlignment : c.alignment = none →
    Alignment.ofName? configured.alignmentName = some a.alignment
  maxLength : a.maxLength = c.resultLength.or (configured.count? "LINEWISE_RESULT_LENGTH".toList)
  requireFiles : o.requireFiles = (EvalOptions.ofSettings configured).requireFiles ++ c.requireFiles
  loadPathDirs : o.loadPathDirs = (EvalOptions.ofSettings configured).loadPathDirs ++ c.loadPathDirs
  debug : o.debug = ((EvalOptions.ofSettings configured).debug || c.debug)

/-- The flags have values that can be used, and so have the settings that count beside them. -/
structure Usable (c : CommandLine) (s : Surroundings) (configured : Settings) : Prop where
  timeout : ∀ seconds, c.timeout = some seconds → ∃ n, seconds.toNanos = .ok n
  programStdin : ∀ path, c.programStdin = some path →
    ∃ t, readText s "reading program stdin".toList path = .ok t
  alignment : ∀ name, c.alignment = some name → (Alignment.ofName? name).isSome
  interpreter : Text.isBlankText
    (c.interpreter.getD (EvalOptions.ofSettings configured).interpreter) = false
  encoding : ∀ name, c.encoding.or (EvalOptions.ofSettings configured).encoding = some name →
    Text.isBlankText name = false
  requireFiles : ∀ name ∈ c.requireFiles, Text.isBlankText name = false

/-- The options of some settings with those of a command line over them, given those that may be
refused. -/
def merge (c : CommandLine) (o : EvalOptions) (timeout : Nat) (stdin : Text) : EvalOptions :=
  { o with
    requireFiles := o.requireFiles ++ c.requireFiles
    loadPathDirs := o.loadPathDirs ++ c.loadPathDirs
    timeout := timeout
    maxLineCaptures := c.maxLineCaptures.or o.maxLineCaptures
    port := c.port.getD o.port
    encoding := c.encoding.or o.encoding
    stdin := stdin
    interpreter := c.interpreter.getD o.interpreter
    debug := o.debug || c.debug }

variable {c : CommandLine} {s s' : Surroundings} {configured configured' : Settings}

/-- The parts of the options that may be refused, in their order. -/
theorem options_eq (configured : Settings) (c : CommandLine) (s : Surroundings) :
    options configured c s =
    (orComplain configured.annotateOptions).bind fun a =>
    (timeout c (EvalOptions.ofSettings configured).timeout).bind fun limit =>
    (programStdin c s (EvalOptions.ofSettings configured).stdin).bind fun stdin =>
    (alignment c a.alignment).bind fun place =>
    (orComplain (merge c (EvalOptions.ofSettings configured) limit stdin).validate).bind fun _ =>
    .ok (merge c (EvalOptions.ofSettings configured) limit stdin,
      { a with alignment := place, maxLength := c.resultLength.or a.maxLength }) := rfl

/-- The limit is that of the flag, or else the one that was set. -/
theorem timeout_eq_ok_iff {configured n : Nat} : timeout c configured = .ok n ↔
    (∀ seconds, c.timeout = some seconds → seconds.toNanos = .ok n) ∧
      (c.timeout = none → n = configured) := by
  unfold timeout
  cases c.timeout with
  | none => simp [eq_comm]
  | some seconds => simp [mapError_eq_ok]

/-- The alignment is that of the flag, or else the one that was set. -/
theorem alignment_eq_ok_iff {configured a : Alignment} : alignment c configured = .ok a ↔
    (∀ name, c.alignment = some name → Alignment.ofName? name = some a) ∧
      (c.alignment = none → a = configured) := by
  unfold alignment
  cases c.alignment with
  | none => simp [eq_comm]
  | some name =>
    cases h : Alignment.ofName? name with
    | none => simp [h]
    | some known => simp [h]

/-- The input of the program is there if the file that was asked for can be read. -/
theorem programStdin_eq_ok_iff {configured : Text} : (∃ t, programStdin c s configured = .ok t) ↔
    ∀ path, c.programStdin = some path → ∃ t, readText s "reading program stdin".toList path =
      .ok t := by
  unfold programStdin
  cases c.programStdin with
  | none => simp
  | some path => simp

/-- Whether merged options are accepted does not depend on the settings that are overridden, nor on
the entries that are configured. -/
theorem validate_merge_eq_ok_iff {configured : Settings} {limit : Nat} {stdin : Text} :
    (merge c (.ofSettings configured) limit stdin).validate = .ok () ↔
      Text.isBlankText (c.interpreter.getD (EvalOptions.ofSettings configured).interpreter) =
        false ∧ (∀ name, c.encoding.or (EvalOptions.ofSettings configured).encoding = some name →
        Text.isBlankText name = false) ∧
      ∀ name ∈ c.requireFiles, Text.isBlankText name = false := by
  have configuredOnes :
      (EvalOptions.ofSettings configured).requireFiles.any Text.isBlankText = false := by
    rw [List.any_eq_false]
    intro name hname
    rw [Settings.not_blank_of_mem_list hname]
    exact Bool.false_ne_true
  have named : (Path.fileName? (EvalOptions.ofSettings configured).fileName).isSome := by
    show (Path.fileName? "program.rb".toList).isSome
    decide
  rw [EvalOptions.validate_eq_ok_iff]
  dsimp only [merge]
  rw [List.any_append, configuredOnes, Bool.false_or, Option.any_eq_false, List.any_eq_false]
  simp only [named, true_and, Bool.not_eq_true]

/-- The options that the command comes to, and what is asked of its flags and of the settings for
that. -/
theorem options_eq_ok_iff {o : EvalOptions} {a : AnnotateOptions} :
    options configured c s = .ok (o, a) ↔
      ∃ asked limit stdin place, configured.annotateOptions = .ok asked ∧
        timeout c (EvalOptions.ofSettings configured).timeout = .ok limit ∧
        programStdin c s (EvalOptions.ofSettings configured).stdin = .ok stdin ∧
        alignment c asked.alignment = .ok place ∧
        (merge c (.ofSettings configured) limit stdin).validate = .ok () ∧
        o = merge c (.ofSettings configured) limit stdin ∧
        a = { asked with alignment := place, maxLength := c.resultLength.or asked.maxLength } := by
  rw [options_eq]
  simp only [bind_eq_ok, orComplain, mapError_eq_ok, Except.ok.injEq, Prod.mk.injEq]
  constructor
  · rintro ⟨asked, known, limit, hlimit, stdin, hstdin, place, hplace, ⟨⟩, valid, rfl, rfl⟩
    exact ⟨asked, limit, stdin, place, known, hlimit, hstdin, hplace, valid, rfl, rfl⟩
  · rintro ⟨asked, limit, stdin, place, known, hlimit, hstdin, hplace, valid, rfl, rfl⟩
    exact ⟨asked, known, limit, hlimit, stdin, hstdin, place, hplace, (), valid, rfl, rfl⟩

/-- There are options if the settings name an alignment, whatever the flags are, and all else can be
used. -/
theorem exists_options_iff : (∃ used, options configured c s = .ok used) ↔
    configured.KnowsAlignment ∧ Usable c s configured := by
  constructor
  · rintro ⟨⟨o, a⟩, h⟩
    obtain ⟨asked, limit, stdin, place, known, hlimit, hstdin, hplace, valid, -⟩ :=
      options_eq_ok_iff.1 h
    obtain ⟨interpreter, encoding, requireFiles⟩ := validate_merge_eq_ok_iff.1 valid
    refine ⟨Settings.knowsAlignment_iff.2 ⟨asked, known⟩, ?_, ?_, ?_, interpreter, encoding,
      requireFiles⟩
    · exact fun seconds given => ⟨limit, (timeout_eq_ok_iff.1 hlimit).1 seconds given⟩
    · exact programStdin_eq_ok_iff.1 ⟨stdin, hstdin⟩
    · intro name given
      rw [(alignment_eq_ok_iff.1 hplace).1 name given]
      rfl
  · rintro ⟨known, usable⟩
    obtain ⟨asked, hasked⟩ := Settings.knowsAlignment_iff.1 known
    -- an option without a flag is the configured one, which needs no parsing
    have limited : ∃ limit, timeout c (EvalOptions.ofSettings configured).timeout = .ok limit := by
      cases given : c.timeout with
      | none => exact ⟨_, timeout_eq_ok_iff.2 ⟨by simp [given], fun _ => rfl⟩⟩
      | some seconds =>
        obtain ⟨n, hn⟩ := usable.timeout seconds given
        exact ⟨n, timeout_eq_ok_iff.2 ⟨by simpa [given] using hn, by simp [given]⟩⟩
    have placed : ∃ place, alignment c asked.alignment = .ok place := by
      cases given : c.alignment with
      | none => exact ⟨_, alignment_eq_ok_iff.2 ⟨by simp [given], fun _ => rfl⟩⟩
      | some name =>
        obtain ⟨place, hplace⟩ := Option.isSome_iff_exists.1 (usable.alignment name given)
        exact ⟨place, alignment_eq_ok_iff.2 ⟨by simpa [given] using hplace, by simp [given]⟩⟩
    obtain ⟨limit, hlimit⟩ := limited
    obtain ⟨place, hplace⟩ := placed
    obtain ⟨stdin, hstdin⟩ := programStdin_eq_ok_iff.2 usable.programStdin
    exact ⟨_, options_eq_ok_iff.2 ⟨asked, limit, stdin, place, hasked, hlimit, hstdin, hplace,
      validate_merge_eq_ok_iff.2 ⟨usable.interpreter, usable.encoding, usable.requireFiles⟩,
        rfl, rfl⟩⟩

/-- The options that are used are those of the flags, and for the rest those that were set. -/
theorem overrides_of_options {o : EvalOptions} {a : AnnotateOptions}
    (h : options configured c s = .ok (o, a)) :
    Overrides c configured o a := by
  obtain ⟨asked, limit, stdin, place, known, hlimit, -, hplace, -, rfl, rfl⟩ :=
    options_eq_ok_iff.1 h
  obtain ⟨name, maxLength, -⟩ := Settings.annotateOptions_eq_ok_iff.1 known
  obtain ⟨limit, configuredLimit⟩ := timeout_eq_ok_iff.1 hlimit
  obtain ⟨place, configuredPlace⟩ := alignment_eq_ok_iff.1 hplace
  exact {
    timeout := limit
    configuredTimeout := configuredLimit
    maxLineCaptures := rfl
    encoding := rfl
    port := rfl
    interpreter := rfl
    alignment := place
    configuredAlignment := fun none => by rw [name, configuredPlace none]
    maxLength := by rw [← maxLength]
    requireFiles := rfl
    loadPathDirs := rfl
    debug := rfl }

/-! ## Settings that do not matter -/

/-- The setting in whose place the value of a flag counts. -/
def settingOf : Flag → Option String
  | .timeout => some "LINEWISE_TIMEOUT"
  | .maxLineCaptures => some "LINEWISE_MAX_LINE_CAPTURES"
  | .encoding => some "LINEWISE_ENCODING"
  | .port => some "LINEWISE_PORT"
  | .interpreter => some "LINEWISE_INTERPRETER"
  | .alignment => some "LINEWISE_ALIGNMENT"
  | .resultLength => some "LINEWISE_RESULT_LENGTH"
  | _ => none

/-- Whether a flag is given whose value counts in the place of a setting. -/
def gives (c : CommandLine) : Flag → Bool
  | .timeout => c.timeout.isSome
  | .maxLineCaptures => c.maxLineCaptures.isSome
  | .encoding => c.encoding.isSome
  | .port => c.port.isSome
  | .interpreter => c.interpreter.isSome
  | .alignment => c.alignment.isSome
  | .resultLength => c.resultLength.isSome
  | _ => false

/-- Settings that say the same where no flag is given in their place. -/
def Agree (c : CommandLine) (s s' : Settings) : Prop :=
  ∀ name : String, (∀ f, settingOf f = some name → gives c f = false) →
    s'.get? name.toList = s.get? name.toList

/-- No two flags count in the place of one setting. -/
theorem settingOf_inj {f g : Flag} {name : String} (hf : settingOf f = some name)
    (hg : settingOf g = some name) : f = g := by
  have same := hf.trans hg.symm
  have set : settingOf f ≠ none := by rw [hf]; nofun
  clear hf hg
  cases f <;> cases g <;> simp_all [settingOf]

/-- Settings that agree have the same value for each flag that is not given. -/
theorem Agree.get?_eq {x y : Settings} (agree : Agree c x y) {f : Flag} {name : String}
    (hf : settingOf f = some name) (absent : gives c f = false) :
    y.get? name.toList = x.get? name.toList :=
  agree name fun _ hg => settingOf_inj hf hg ▸ absent

/-- Settings that agree have the same value for what no flag sets. -/
theorem Agree.get?_free {x y : Settings} (agree : Agree c x y) {name : String}
    (free : ∀ f, settingOf f ≠ some name) : y.get? name.toList = x.get? name.toList :=
  agree name fun f hf => absurd hf (free f)

/-- Merged options hold nothing of a setting in whose place a flag is given. -/
theorem Agree.merge_eq {x y : Settings} (agree : Agree c x y) (limit : Nat) (stdin : Text) :
    merge c (.ofSettings y) limit stdin = merge c (.ofSettings x) limit stdin := by
  have requires : y.get? "LINEWISE_REQUIRE".toList = x.get? "LINEWISE_REQUIRE".toList :=
    agree.get?_free fun f => by cases f <;> simp [settingOf]
  have paths : y.get? "LINEWISE_LOAD_PATH".toList = x.get? "LINEWISE_LOAD_PATH".toList :=
    agree.get?_free fun f => by cases f <;> simp [settingOf]
  have debug : y.get? "LINEWISE_DEBUG".toList = x.get? "LINEWISE_DEBUG".toList :=
    agree.get?_free fun f => by cases f <;> simp [settingOf]
  -- what a flag sets is taken from the flag, or else it is the same in both settings
  have captures : c.maxLineCaptures.or (EvalOptions.ofSettings y).maxLineCaptures =
      c.maxLineCaptures.or (EvalOptions.ofSettings x).maxLineCaptures := by
    cases given : c.maxLineCaptures with
    | some n => rfl
    | none =>
      have same := agree.get?_eq (f := .maxLineCaptures) rfl (by rw [gives, given]; rfl)
      simp only [EvalOptions.ofSettings, Settings.count?, same]
  have encoding : c.encoding.or (EvalOptions.ofSettings y).encoding =
      c.encoding.or (EvalOptions.ofSettings x).encoding := by
    cases given : c.encoding with
    | some n => rfl
    | none =>
      have same := agree.get?_eq (f := .encoding) rfl (by rw [gives, given]; rfl)
      simp only [EvalOptions.ofSettings, same]
  have port : c.port.getD (EvalOptions.ofSettings y).port =
      c.port.getD (EvalOptions.ofSettings x).port := by
    cases given : c.port with
    | some n => rfl
    | none =>
      have same := agree.get?_eq (f := .port) rfl (by rw [gives, given]; rfl)
      simp only [EvalOptions.ofSettings, same]
  have interpreter : c.interpreter.getD (EvalOptions.ofSettings y).interpreter =
      c.interpreter.getD (EvalOptions.ofSettings x).interpreter := by
    cases given : c.interpreter with
    | some n => rfl
    | none =>
      have same := agree.get?_eq (f := .interpreter) rfl (by rw [gives, given]; rfl)
      simp only [EvalOptions.ofSettings, same]
  unfold merge
  rw [captures, encoding, port, interpreter]
  simp only [EvalOptions.ofSettings, Settings.list, Settings.paths, Settings.isOn, requires,
    paths, debug]

/-- The options do not depend on a setting in whose place a flag is given, as long as the settings
name an alignment. -/
theorem options_of_agree (files : s'.contentOf = s.contentOf)
    (agree : Agree c configured configured') (known : configured.KnowsAlignment)
    (known' : configured'.KnowsAlignment) : options configured' c s' = options configured c s := by
  obtain ⟨a, ha⟩ := Settings.knowsAlignment_iff.1 known
  obtain ⟨b, hb⟩ := Settings.knowsAlignment_iff.1 known'
  obtain ⟨place, maxLength, markers⟩ := Settings.annotateOptions_eq_ok_iff.1 ha
  obtain ⟨place', maxLength', markers'⟩ := Settings.annotateOptions_eq_ok_iff.1 hb
  -- each option is taken from its flag, or else from settings that agree on it
  have limit : timeout c (EvalOptions.ofSettings configured').timeout =
      timeout c (EvalOptions.ofSettings configured).timeout := by
    unfold timeout
    cases given : c.timeout with
    | some seconds => rfl
    | none =>
      have same := agree.get?_eq (f := .timeout) rfl (by rw [gives, given]; rfl)
      simp only [EvalOptions.ofSettings, Settings.duration?, same]
  have stdin : ∀ t, programStdin c s' t = programStdin c s t := fun t => by
    unfold programStdin readText
    rw [files]
  have places : alignment c b.alignment = alignment c a.alignment := by
    unfold alignment
    cases given : c.alignment with
    | some name => rfl
    | none =>
      have same := agree.get?_eq (f := .alignment) rfl (by rw [gives, given]; rfl)
      rw [Settings.alignmentName, same, ← Settings.alignmentName, place] at place'
      rw [Option.some.inj place']
  have lengths : c.resultLength.or b.maxLength = c.resultLength.or a.maxLength := by
    cases given : c.resultLength with
    | some n => rfl
    | none =>
      have same := agree.get?_eq (f := .resultLength) rfl (by rw [gives, given]; rfl)
      rw [maxLength, maxLength', Settings.count?, same, Settings.count?]
  rw [options_eq, options_eq, ha, hb]
  dsimp only [orComplain, Except.mapError, Except.bind]
  rw [limit, places, lengths, markers, markers']
  simp only [stdin, agree.merge_eq]
  rfl

/-! ## The command -/

/-- An engine is made of the options and the program. -/
theorem engine_eq_ok {e : Engine} (h : engine configured c s = .ok (.ok e)) :
    ∃ p o a, options configured c s = .ok (o, a) ∧ program c s = .ok p ∧
      Engine.ofProgram p o a = .ok e := by
  have parts : engine configured c s = (options configured c s).bind fun used =>
      (program c s).bind fun p => .ok (Engine.ofProgram p used.1 used.2) := rfl
  rw [parts, bind_eq_ok] at h
  obtain ⟨⟨o, a⟩, hoptions, h⟩ := h
  obtain ⟨p, hprogram, h⟩ := bind_eq_ok.1 h
  exact ⟨p, o, a, hoptions, hprogram, Except.ok.inj h⟩

/-- A program that the command reads says nothing about how it is to run but its name. -/
theorem program_eq_ok {p : Program} (h : program c s = .ok p) :
    p.encoding = none ∧ p.stdin = [] := by
  have plain : ∀ source, (Program.ofSource source).encoding = none ∧
      (Program.ofSource source).stdin = [] := by
    intro source
    unfold Program.ofSource
    split <;> exact ⟨rfl, rfl⟩
  unfold program at h
  split at h
  · obtain ⟨source, -, h⟩ := bind_eq_ok.1 h
    cases h
    exact plain source
  · cases h
  · split at h
    · cases h
      exact plain _
    · cases h

/-- An engine has the options that are used, and the name of its program. -/
theorem options_of_engine {e : Engine} (h : engine configured c s = .ok (.ok e)) :
    ∃ o, options configured c s = .ok (o, e.annotateOptions) ∧
      ∃ fileName, e.options = { o with fileName := fileName } := by
  obtain ⟨p, o, a, hoptions, hprogram, made⟩ := engine_eq_ok h
  obtain ⟨prepared, -, made⟩ := bind_eq_ok.1 made
  obtain ⟨answer, -, made⟩ := bind_eq_ok.1 made
  cases made
  obtain ⟨encoding, stdin⟩ := program_eq_ok hprogram
  refine ⟨o, hoptions, p.fileName.getD o.fileName, ?_⟩
  show Engine.optionsFor p o = _
  unfold Engine.optionsFor
  rw [encoding, stdin]
  rfl

/-- An alignment that is not known to the settings is refused, whatever the flags are. -/
theorem run_of_unknown (loaded : settings s = .ok configured) {name : Text}
    (h : configured.get? "LINEWISE_ALIGNMENT".toList = some name)
    (unknown : Alignment.ofName? name = none) (c : CommandLine) :
    run c s = .ok (complain (.failure (.invalidOption (.unknownAlignment name)))) := by
  have refused :
      engine configured c s = .error (.failure (.invalidOption (.unknownAlignment name))) := by
    have parts : engine configured c s = (options configured c s).bind fun used =>
        (program c s).bind fun p => .ok (Engine.ofProgram p used.1 used.2) := rfl
    rw [parts, options_eq, Settings.annotateOptions_of_unknown h unknown]
    rfl
  unfold run
  rw [loaded]
  dsimp only
  rw [refused]

/-- If the settings cannot be read, nothing is run. -/
theorem run_of_fault {fault : Settings.Fault} (h : settings s = .error fault) (c : CommandLine) :
    run c s = .error (.settings fault) := by
  unfold run
  rw [h]

/-- A run goes with the value of each flag that is given, and with the configured values where none
is; the lists of the flags come behind the configured ones. The command comes to this if all flags
have values that can be used, and what is configured beside them too, and what is configured as the
alignment is the name of one. Nothing else that is configured for a setting counts where a flag is
given; but an alignment that is not known is refused even if a flag gives another one. Where the
environment leaves no settings, the command breaks off, whatever the flags are. -/
theorem options_overridden (c : CommandLine) (s : Surroundings) :
    (∀ fault, settings s = .error fault → run c s = .error (.settings fault)) ∧
    ∀ configured, settings s = .ok configured →
      (∀ e, engine configured c s = .ok (.ok e) →
        Overrides c configured e.options e.annotateOptions) ∧
      ((∃ used, options configured c s = .ok used) ↔
        configured.KnowsAlignment ∧ Usable c s configured) ∧
      (∀ s' configured', settings s' = .ok configured' → s'.contentOf = s.contentOf →
        Agree c configured configured' → configured.KnowsAlignment → configured'.KnowsAlignment →
          options configured' c s' = options configured c s) ∧
      ∀ name, configured.get? "LINEWISE_ALIGNMENT".toList = some name →
        Alignment.ofName? name = none →
          run c s = .ok (complain (.failure (.invalidOption (.unknownAlignment name)))) := by
  refine ⟨fun fault h => run_of_fault h c, fun configured loaded =>
    ⟨fun e h => ?_, exists_options_iff, fun s' configured' _ files agree known known' =>
    ?_, fun name h unknown => ?_⟩⟩
  · obtain ⟨o, hoptions, fileName, same⟩ := options_of_engine h
    have overrides := overrides_of_options hoptions
    rw [same]
    exact { overrides with }
  · exact options_of_agree files agree known known'
  · exact run_of_unknown loaded h unknown c

/-- Flags over settings of which none but the list can be used. -/
theorem options_overridden_unusable :
    let pairs := [("LINEWISE_TIMEOUT".toList, "never".toList),
      ("LINEWISE_PORT".toList, "99999".toList), ("LINEWISE_ENCODING".toList, " ".toList),
      ("LINEWISE_INTERPRETER".toList, " ".toList), ("LINEWISE_REQUIRE".toList, "set, json".toList)]
    let s : Surroundings :=
      ⟨none, pairs.map Settings.inBytes, none, fun _ => .error .notFound, .unavailable⟩
    let configured : Settings := .ofPairs pairs
    let c : CommandLine := {
      timeout := Binary64.parse? "1.5".toList, port := some 8, encoding := some "UTF-8".toList
      interpreter := some "ruby".toList, alignment := some "line".toList, requireFiles :=
        ["yaml".toList] }
    CommandLine.ofWords ["-t1.5".toList, "--port".toList, "8".toList, "-E".toList, "UTF-8".toList,
      "--interpreter=ruby".toList, "-a".toList, "line".toList, "-r".toList, "yaml".toList] = .ok c ∧
    settings s = .ok configured ∧ configured.KnowsAlignment ∧ Usable c s configured ∧
    ∃ o a, options configured c s = .ok (o, a) ∧
      o.timeout = 1500000000 ∧ o.port = 8 ∧ o.encoding = some "UTF-8".toList ∧
      o.interpreter = "ruby".toList ∧ a.alignment = .line ∧
      o.requireFiles = ["set".toList, "json".toList, "yaml".toList] := by
  intro pairs s configured c
  have words : CommandLine.ofWords ["-t1.5".toList, "--port".toList, "8".toList, "-E".toList,
      "UTF-8".toList, "--interpreter=ruby".toList, "-a".toList, "line".toList, "-r".toList,
      "yaml".toList] = .ok c := eq_ok_of_toOption (by decide +kernel)
  have loaded : settings s = .ok configured := Settings.load_inBytes none pairs
  have used : ∃ used, options configured c s = .ok used ∧ used.1.timeout = 1500000000 ∧
      used.1.port = 8 ∧ used.1.encoding = some "UTF-8".toList ∧
      used.1.interpreter = "ruby".toList ∧ used.2.alignment = .line ∧
      used.1.requireFiles = ["set".toList, "json".toList, "yaml".toList] := by
    have evaluated : (options configured c s).toOption.any fun used =>
        used.1.timeout == 1500000000 && used.1.port == 8 && used.1.encoding ==
          some "UTF-8".toList &&
        used.1.interpreter == "ruby".toList && used.2.alignment == .line &&
        used.1.requireFiles == ["set".toList, "json".toList, "yaml".toList] := by decide +kernel
    obtain ⟨used, hused, values⟩ := (Option.any_eq_true ..).1 evaluated
    simp only [Bool.and_eq_true, beq_iff_eq, and_assoc] at values
    exact ⟨used, eq_ok_of_toOption hused, values⟩
  obtain ⟨⟨o, a⟩, hoptions, values⟩ := used
  obtain ⟨-, overridden⟩ := options_overridden c s
  obtain ⟨known, usable⟩ := (overridden configured loaded).2.1.1 ⟨(o, a), hoptions⟩
  exact ⟨words, loaded, known, usable, o, a, hoptions, values⟩

/-- A flag that names an alignment does not help where the settings have a name that no alignment
has. -/
theorem run_alignment_refused :
    let pairs := [("LINEWISE_ALIGNMENT".toList, "diagonal".toList)]
    let s : Surroundings := ⟨none, pairs.map Settings.inBytes, some (Utf8.encode "a = 1\n".toList),
      fun _ => .error .notFound, .unavailable⟩
    let configured : Settings := .ofPairs pairs
    let c : CommandLine := { clean := true, alignment := some "line".toList }
    CommandLine.ofWords ["-c".toList, "-a".toList, "line".toList] = .ok c ∧
    settings s = .ok configured ∧ Alignment.ofName? "line".toList = some .line ∧
    (∀ used, options configured c s ≠ .ok used) ∧
      run c s = .ok { status := 2, stderr :=
        "linewise: invalid option: unknown alignment 'diagonal' (expected line, chunk or file)\n"
          |>.toList } := by
  intro pairs s configured c
  have loaded : settings s = .ok configured := Settings.load_inBytes none pairs
  have given : configured.get? "LINEWISE_ALIGNMENT".toList = some "diagonal".toList := by
    decide +kernel
  have unknown : Alignment.ofName? "diagonal".toList = none := by decide +kernel
  refine ⟨eq_ok_of_toOption (by decide +kernel), loaded, by decide +kernel, fun used h => ?_, ?_⟩
  · have known := (exists_options_iff.1 ⟨used, h⟩).1 _ given
    rw [unknown] at known
    cases known
  · rw [run_of_unknown loaded given unknown]
    exact congrArg Except.ok (by decide +kernel)

end Command

end Marginalia
