/-
  DelegateSchema.Proofs.Generation — what a generation does to the world, call by call.

  A generation is one program for every host, so it can be run on a host that writes down each call,
  with the world before and after it.  The report of such a run tells what the plain run does and in
  which order.  There are four courses that it can take, and they differ in how far it gets: to the
  output path, to the compiled schema, to the written file, to the end.

  Main results:
    * `watches_generate` — writing calls down changes nothing else,
    * `course_report` — every generation takes one of the four courses,
    * `generation_all_or_nothing` — so nothing is touched before the whole file can be written, and
      a formatter can only change what is written already.
-/
import DelegateSchema.Generate
import DelegateSchema.Proofs.Files

namespace DelegateSchema

open Host (FileError treeHost treeHost_faithful)
open Tool (Version)

/-! ## §1. Calls, written down -/

/-- A call of something outside: an operation of the host, or a tool of the generation. -/
inductive Call where
  | read (path : String)
  /-- Creates a folder and those above it. -/
  | folders (path : String)
  | write (path content : String)
  | run (program : String) (args : List String)
  /-- Looks the installed version up. -/
  | version
  | format (path : String)
  deriving DecidableEq

/-- A call with the world it found and the world it left. -/
structure Step (σ : Type) where
  call : Call
  before : σ
  after : σ
  failed : Bool

/-- A world with the calls that led to it. -/
abbrev Watched (σ : Type) := σ × List (Step σ)

section Watching

variable {σ α β : Type}

/-- Does what `x` does, and writes the call down. -/
def watch (call : Call) (failed : α → Bool) (x : StateM σ α) : StateM (Watched σ) α :=
  fun s => ((x s.1).1, (x s.1).2, s.2 ++ [⟨call, s.1, (x s.1).2, failed (x s.1).1⟩])

/-- A host all of whose calls are written down. -/
def Host.watched (host : Host (StateM σ)) : Host (StateM (Watched σ)) where
  readBytes path := watch (.read path) (!·.isOk) (host.readBytes path)
  createFolders path := watch (.folders path) (!·.isOk) (host.createFolders path)
  writeText path content := watch (.write path content) (!·.isOk) (host.writeText path content)
  run program args limit := watch (.run program args) (· != .exited 0) (host.run program args limit)

/-- Tools all of whose calls are written down. -/
def Tools.watched (tools : Tools (StateM σ)) : Tools (StateM (Watched σ)) where
  version := watch .version (fun _ => false) tools.version
  format path := watch (.format path) (!·.isOk) (tools.format path)

/-- The program `x` does what `y` does, apart from writing down. -/
def Watches (x : StateM (Watched σ) α) (y : StateM σ α) : Prop :=
  ∀ s, (x s).1 = (y s.1).1 ∧ (x s).2.1 = (y s.1).2

theorem watches_pure (a : α) : Watches (pure a : StateM (Watched σ) α) (pure a) :=
  fun _ => ⟨rfl, rfl⟩

theorem watches_watch (call : Call) (failed : α → Bool) (x : StateM σ α) :
    Watches (watch call failed x) x :=
  fun _ => ⟨rfl, rfl⟩

theorem Watches.bind {x : StateM (Watched σ) α} {y : StateM σ α} {f : α → StateM (Watched σ) β}
    {g : α → StateM σ β} (h : Watches x y) (next : ∀ a, Watches (f a) (g a)) :
    Watches (x >>= f) (y >>= g) := by
  intro s
  obtain ⟨result, world⟩ := h s
  rw [stateM_bind, stateM_bind, ← result, ← world]
  exact next _ _

theorem watches_writeFile (host : Host (StateM σ)) (path content : String) :
    Watches (writeFile host.watched path content) (writeFile host path content) := by
  unfold writeFile
  cases Host.Path.parent? path with
  | none =>
    show Watches (host.watched.writeText path content) (host.writeText path content)
    exact watches_watch _ _ _
  | some folder =>
    refine Watches.bind (watches_watch _ _ _) fun prepared => ?_
    cases prepared with
    | error cause => exact watches_pure _
    | ok _ => exact watches_watch _ _ _

/-- **Writing calls down changes nothing else.** -/
theorem watches_generate (host : Host (StateM σ)) (tools : Tools (StateM σ)) (settings : Settings)
    (schema : Schema) :
    Watches (generate host.watched tools.watched settings schema)
      (generate host tools settings schema) := by
  unfold generate
  cases settings.output with
  | none => exact watches_pure _
  | some output =>
    refine Watches.bind (watches_watch _ _ _) fun version => ?_
    cases settings.build schema version with
    | error cause => exact watches_pure _
    | ok target =>
      refine Watches.bind (watches_writeFile host _ _) fun written => ?_
      cases written with
      | error cause => exact watches_pure _
      | ok _ =>
        dsimp only
        split
        next =>
          refine Watches.bind (watches_watch _ _ _) fun formatted => ?_
          cases formatted with
          | error cause => exact watches_pure _
          | ok _ => exact watches_pure _
        next => exact watches_pure _

end Watching

/-! ## §2. The course of a generation -/

/-- What a generation leaves: its result, the world, and the calls it made. -/
structure Report (σ : Type) where
  result : Except GenerateError Outcome
  world : σ
  calls : List (Step σ)

section Course

variable {σ : Type} (host : Host (StateM σ)) (tools : Tools (StateM σ)) (settings : Settings)
  (schema : Schema)

/-- The report of a generation. -/
def report (w : σ) : Report σ where
  result := (generate host.watched tools.watched settings schema (w, [])).1
  world := (generate host.watched tools.watched settings schema (w, [])).2.1
  calls := (generate host.watched tools.watched settings schema (w, [])).2.2

/-- How writing a file can go, and the calls that are made for it. -/
inductive Writing (path content : String) : Except FileError Unit → σ → List (Step σ) → Prop where
  /-- A folder cannot be made, or the file cannot be written. -/
  | refused (cause : FileError) (after : σ) (steps : List (Step σ))
    (onFiles : ∀ step ∈ steps, (∃ folder, step.call = .folders folder) ∨
      step.call = .write path content)
    (failed : ∃ step ∈ steps, step.failed = true) : Writing path content (.error cause) after steps
  /-- The folders are there, and the last call has written the file. -/
  | done (before after : σ) (folders : List (Step σ))
    (prepared : ∀ step ∈ folders, (∃ folder, step.call = .folders folder) ∧ step.failed = false)
    (written : host.writeText path content before = (.ok (), after)) :
    Writing path content (.ok ()) after (folders ++ [⟨.write path content, before, after, false⟩])

/-- The last call, from the world that the folders have left. -/
theorem writing_writeText (path content : String) (before : σ) (folders : List (Step σ))
    (prepared : ∀ step ∈ folders, (∃ folder, step.call = .folders folder) ∧ step.failed = false) :
    Writing host path content (host.writeText path content before).1
      (host.writeText path content before).2
      (folders ++ [⟨.write path content, before, (host.writeText path content before).2,
        !(host.writeText path content before).1.isOk⟩]) := by
  cases wrote : host.writeText path content before with
  | mk result after =>
    cases result with
    | error cause =>
      refine .refused cause after _ ?_ ⟨_, List.mem_append_right _ (List.mem_singleton.2 rfl), rfl⟩
      intro step member
      rcases List.mem_append.1 member with member | member
      · exact .inl (prepared step member).1
      · cases List.mem_singleton.1 member
        exact .inr rfl
    | ok _ => exact .done before after folders prepared wrote

theorem writing_writeFile (path content : String) (s : Watched σ) :
    ∃ steps, (writeFile host.watched path content s).2.2 = s.2 ++ steps ∧
      Writing host path content (writeFile host.watched path content s).1
        (writeFile host.watched path content s).2.1 steps := by
  unfold writeFile
  cases Host.Path.parent? path with
  | none => exact ⟨_, rfl, writing_writeText host path content s.1 [] (by simp)⟩
  | some folder =>
    dsimp only
    rw [stateM_bind]
    cases created : host.createFolders folder s.1 with
    | mk result before =>
      have made : host.watched.createFolders folder s =
          (result, before, s.2 ++ [⟨.folders folder, s.1, before, !result.isOk⟩]) := by
        simp only [Host.watched, watch, created]
      rw [made]
      cases result with
      | error cause =>
        refine ⟨_, rfl, .refused cause before _ ?_ ⟨_, List.mem_singleton.2 rfl, rfl⟩⟩
        intro step member
        cases List.mem_singleton.1 member
        exact .inl ⟨folder, rfl⟩
      | ok _ =>
        refine ⟨_, List.append_assoc _ _ _, writing_writeText host path content before _ ?_⟩
        intro step member
        cases List.mem_singleton.1 member
        exact ⟨⟨folder, rfl⟩, rfl⟩

/-- How formatting a written file can go, and the calls that are made for it. -/
inductive Formatting (output : String) (written : σ) : σ → List (Step σ) → Prop where
  | skipped (off : settings.format = false) : Formatting output written written []
  | called (result : Except Tool.FormatError Unit) (after : σ) (on : settings.format = true)
    (formatted : tools.format output written = (result, after)) :
    Formatting output written after [⟨.format output, written, after, !result.isOk⟩]

/-- The warning about the formatter. -/
def formatWarnings (formats : List (Step σ)) : List String :=
  if formats.any (·.failed) then [formatWarning] else []

/-- How a generation can go. -/
inductive Course (w : σ) : Report σ → Prop where
  /-- No one says where the file goes, so nothing is called at all. -/
  | noOutput (none : settings.output = none) : Course w ⟨.error .missingOutput, w, []⟩
  /-- The schema does not compile; only the version was looked up. -/
  | notCompiled (output : String) (cause : CompileError) (given : settings.output = some output)
    (refused : settings.build schema (tools.version w).1 = .error cause) :
    Course w ⟨.error (.compile cause), (tools.version w).2,
      [⟨.version, w, (tools.version w).2, false⟩]⟩
  /-- The schema compiles, but its file cannot be written. -/
  | notWritten (output : String) (target : Target.Schema) (cause : FileError) (after : σ)
    (steps : List (Step σ)) (given : settings.output = some output)
    (built : settings.build schema (tools.version w).1 = .ok target)
    (refused : Writing host output target.fileText (.error cause) after steps) :
    Course w ⟨.error (.writeFailed output cause), after,
      ⟨.version, w, (tools.version w).2, false⟩ :: steps⟩
  /-- The file is written, and perhaps formatted. -/
  | done (output : String) (target : Target.Schema) (written after : σ)
    (steps formats : List (Step σ)) (given : settings.output = some output)
    (built : settings.build schema (tools.version w).1 = .ok target)
    (wrote : Writing host output target.fileText (.ok ()) written steps)
    (formatted : Formatting tools settings output written after formats) :
    Course w ⟨.ok ⟨output, ((tools.version w).1.bind Version.warning?).toList ++
        formatWarnings formats⟩,
      after, ⟨.version, w, (tools.version w).2, false⟩ :: steps ++ formats⟩

/-- **Every generation takes one of these courses.** -/
theorem course_report (w : σ) :
    Course host tools settings schema w (report host tools settings schema w) := by
  unfold report generate
  cases given : settings.output with
  | none => exact .noOutput given
  | some output =>
    have looked : tools.watched.version (w, []) = ((tools.version w).1, (tools.version w).2,
        [⟨.version, w, (tools.version w).2, false⟩]) := rfl
    simp only [stateM_bind, looked]
    cases built : settings.build schema (tools.version w).1 with
    | error cause => exact .notCompiled output cause given built
    | ok target =>
      simp only [stateM_bind]
      obtain ⟨steps, log, writing⟩ := writing_writeFile host output target.fileText
        ((tools.version w).2, [⟨.version, w, (tools.version w).2, false⟩])
      -- from here on only the log and the course of the writing matter, not how they came about
      generalize writeFile host.watched output target.fileText _ = wrote at log writing ⊢
      obtain ⟨result, written, calls⟩ := wrote
      cases log
      cases result with
      | error cause => exact .notWritten output target cause written steps given built writing
      | ok _ =>
        dsimp only
        split
        next on =>
          simp only [stateM_bind]
          cases formatted : tools.format output written with
          | mk result after =>
            have called : ∀ calls, tools.watched.format output (written, calls) =
                (result, after, calls ++ [⟨.format output, written, after, !result.isOk⟩]) := by
              intro calls
              simp only [Tools.watched, watch, formatted]
            rw [called]
            -- a formatter that fails costs a warning, and the course is the same
            have done := Course.done output target written after steps _ given built writing
              (.called result after on formatted)
            cases result with
            | error cause => exact done
            | ok _ => simpa [stateM_pure, formatWarnings, Except.isOk, Except.toBool] using done
        next off =>
          have done := Course.done output target written written steps _ given built writing
            (.skipped (by simpa using off))
          simpa [stateM_pure, formatWarnings] using done

end Course

/-! ## §3. Versions that are too old -/

namespace Tool.Version

/-- The text is a version that comes before the oldest supported one. -/
def Outdated (installed : String) : Prop :=
  ∃ v, parse installed = .ok v ∧ v.compare oldest = .lt

/-- The warning about an outdated version. -/
def outdatedWarning (installed : String) : String :=
  "Prisma version \"5.0.0\" or higher is required. " ++ "Detected version is \"" ++ installed ++
    "\"."

theorem outdated_iff {installed : String} :
    Outdated installed ↔ (parse installed).toOption.any (·.compare oldest = .lt) = true := by
  unfold Outdated
  cases parse installed with
  | error cause => simp [Except.toOption]
  | ok v => simp [Except.toOption]

instance : DecidablePred Outdated := fun _ => decidable_of_iff _ outdated_iff.symm

theorem warning?_eq (installed : String) :
    warning? installed = if Outdated installed then some (outdatedWarning installed) else none := by
  have wording : "Prisma version \"" ++ oldest.text ++ "\" or higher is required. " ++
      "Detected version is \"" = "Prisma version \"5.0.0\" or higher is required. " ++
      "Detected version is \"" := by decide
  unfold warning? outdatedWarning
  rw [wording]
  cases parsed : parse installed with
  | error cause =>
    have notOld : ¬Outdated installed := by
      rintro ⟨v, ok, _⟩
      cases parsed.symm.trans ok
    rw [if_neg notOld]
  | ok v =>
    by_cases old : v.compare oldest = .lt
    · have isOld : Outdated installed := ⟨v, parsed, old⟩
      rw [if_pos isOld]
      exact if_pos old
    · have notOld : ¬Outdated installed := by
        rintro ⟨v', ok, old'⟩
        cases parsed.symm.trans ok
        exact old old'
      rw [if_neg notOld]
      exact if_neg old

theorem toList_warning? (version : Option String) :
    (version.bind warning?).toList = (version.filter (Outdated ·)).toList.map outdatedWarning := by
  cases version with
  | none => rfl
  | some installed =>
    by_cases old : Outdated installed
    · simp [warning?_eq, old, Option.filter]
    · simp [warning?_eq, old, Option.filter]

end Tool.Version

/-! ## §4. All or nothing -/

section AllOrNothing

variable {σ : Type} {host : Host (StateM σ)} {tools : Tools (StateM σ)} {settings : Settings}
  {schema : Schema} {w : σ} {r : Report σ}

/-- What a generation that succeeds has done: it looked the version up, prepared the folders, wrote
    the file, and called the formatter if the settings ask for it. -/
structure Delivery (host : Host (StateM σ)) (tools : Tools (StateM σ)) (settings : Settings)
    (schema : Schema) (w : σ) (r : Report σ) (outcome : Outcome) where
  target : Target.Schema
  folders : List (Step σ)
  written : Step σ
  formats : List (Step σ)
  output : settings.output = some outcome.output
  built : settings.build schema (tools.version w).1 = .ok target
  calls : r.calls = ⟨.version, w, w, false⟩ :: folders ++ written :: formats
  call_folders : ∀ step ∈ folders, ∃ folder, step.call = .folders folder
  call_written : written.call = .write outcome.output (Target.banner ++ target.text ++ "\n")
  /-- Before any formatting, the file holds the whole text. -/
  held : (host.readBytes outcome.output written.after).1 =
    .ok (Target.banner ++ target.text ++ "\n").toUTF8
  call_formats : formats.map (·.call) = if settings.format then [.format outcome.output] else []
  before_formats : ∀ step ∈ formats, step.before = written.after
  failed_formats : ∀ step ∈ formats,
    step.failed = !(tools.format outcome.output written.after).1.isOk
  world : settings.format = false → r.world = written.after
  warnings : outcome.warnings =
    ((tools.version w).1.filter (Version.Outdated ·)).toList.map Version.outdatedWarning ++
      if formats.any (·.failed) then [formatWarning] else []

variable {path content output : String} {result : Except FileError Unit} {written after : σ}
  {steps formats : List (Step σ)}

theorem Writing.ne_format (h : Writing host path content result after steps) :
    ∀ step ∈ steps, ∀ p, step.call ≠ .format p := by
  intro step member p isFormat
  cases h with
  | refused _ _ _ onFiles =>
    rcases onFiles step member with ⟨folder, call⟩ | call
    · cases isFormat.symm.trans call
    · cases isFormat.symm.trans call
  | done _ _ folders prepared =>
    rcases List.mem_append.1 member with member | member
    · obtain ⟨⟨folder, call⟩, _⟩ := prepared step member
      cases isFormat.symm.trans call
    · cases List.mem_singleton.1 member
      cases isFormat

theorem Writing.exists_failed {cause : FileError}
    (h : Writing host path content (.error cause) after steps) :
    ∃ step ∈ steps, step.failed = true := by
  cases h with
  | refused _ _ _ _ failed => exact failed

theorem Writing.not_failed (h : Writing host path content (.ok ()) after steps) :
    ∀ step ∈ steps, step.failed = false := by
  intro step member
  cases h with
  | done _ _ folders prepared =>
    rcases List.mem_append.1 member with member | member
    · exact (prepared step member).2
    · cases List.mem_singleton.1 member
      rfl

/-- The formatter is called once or, when it is turned off, not at all. -/
theorem Formatting.map_call (h : Formatting tools settings output written after formats) :
    formats.map (·.call) = if settings.format then [.format output] else [] := by
  cases h with
  | skipped off => simp [off]
  | called _ _ on _ => simp [on]

theorem Formatting.failed (h : Formatting tools settings output written after formats) :
    ∀ step ∈ formats, step.failed = !(tools.format output written).1.isOk := by
  intro step member
  cases h with
  | skipped => cases member
  | called _ _ _ formatted =>
    cases List.mem_singleton.1 member
    rw [formatted]

theorem Formatting.before (h : Formatting tools settings output written after formats) :
    ∀ step ∈ formats, step.before = written := by
  cases h with
  | skipped => simp
  | called => simp

theorem Formatting.world (h : Formatting tools settings output written after formats)
    (off : settings.format = false) : after = written := by
  cases h with
  | skipped => rfl
  | called _ _ on _ => cases on.symm.trans off

namespace Course

/-- An error before the write leaves everything as it was. -/
theorem untouched (course : Course host tools settings schema w r)
    (looks : ∀ w, (tools.version w).2 = w) {e : GenerateError} (failed : r.result = .error e)
    (early : ∀ path cause, e ≠ .writeFailed path cause) :
    r.world = w ∧ ∀ step ∈ r.calls, step.call = .version := by
  cases course with
  | noOutput => simp
  | notCompiled => simp [looks w]
  | notWritten output target cause =>
    cases failed
    exact absurd rfl (early output cause)
  | done => cases failed

theorem succeeds_iff (course : Course host tools settings schema w r) :
    (∃ outcome, r.result = .ok outcome) ↔ (∃ output, settings.output = some output) ∧
      (∃ target, settings.build schema (tools.version w).1 = .ok target) ∧
      ∀ step ∈ r.calls, step.failed = true → ∃ path, step.call = .format path := by
  cases course with
  | noOutput none => simp [none]
  | notCompiled _ _ _ refused => simp [refused]
  | notWritten output target cause after steps _ _ refused =>
    constructor
    · intro ⟨_, ok⟩
      cases ok
    · intro ⟨_, _, onlyFormats⟩
      -- the call that failed was one on files
      obtain ⟨step, member, failed⟩ := refused.exists_failed
      obtain ⟨path, call⟩ := onlyFormats step (List.mem_cons_of_mem _ member) failed
      exact absurd call (refused.ne_format step member path)
  | done output target written after steps formats given built wrote formatted =>
    refine ⟨fun _ => ⟨⟨output, given⟩, ⟨target, built⟩, ?_⟩, fun _ => ⟨_, rfl⟩⟩
    intro step member failed
    rcases List.mem_append.1 member with member | member
    · rcases List.mem_cons.1 member with rfl | member
      · cases failed
      · cases (wrote.not_failed step member).symm.trans failed
    · have call : step.call ∈ formats.map (·.call) := List.mem_map_of_mem member
      rw [formatted.map_call] at call
      split at call
      next => exact ⟨output, List.mem_singleton.1 call⟩
      next => cases call

theorem succeeds_of_format (course : Course host tools settings schema w r) {step : Step σ}
    (member : step ∈ r.calls) {path : String} (call : step.call = .format path) :
    ∃ outcome, r.result = .ok outcome := by
  cases course with
  | noOutput => cases member
  | notCompiled =>
    cases List.mem_singleton.1 member
    cases call
  | notWritten _ _ _ _ _ _ _ refused =>
    rcases List.mem_cons.1 member with rfl | member
    · cases call
    · exact absurd call (refused.ne_format step member path)
  | done => exact ⟨_, rfl⟩

theorem delivery (course : Course host tools settings schema w r) (faithful : host.Faithful)
    (looks : ∀ w, (tools.version w).2 = w) {outcome : Outcome} (ok : r.result = .ok outcome) :
    Nonempty (Delivery host tools settings schema w r outcome) := by
  cases course with
  | noOutput => cases ok
  | notCompiled => cases ok
  | notWritten => cases ok
  | done output target written after steps formats given built wrote formatted =>
    cases ok
    cases wrote with
    | done before _ folders prepared wrote =>
      refine ⟨{
        target
        folders
        written := ⟨.write output target.fileText, before, written, false⟩
        formats
        output := given
        built
        calls := by simp [looks w]
        call_folders := fun step member => (prepared step member).1
        call_written := rfl
        held := faithful.readBytes_written _ _ _ _ wrote
        call_formats := formatted.map_call
        before_formats := formatted.before
        failed_formats := formatted.failed
        world := formatted.world
        warnings := ?_ }⟩
      rw [Version.toList_warning?]
      rfl

end Course

/-- **A generation does all or nothing, up to the write.**  Let a host keep to its laws, and let
    the look-up of the version change nothing.  Then:
    an error other than a failed write leaves the world as it was, and nothing was called but the
    look-up of the version, neither a file operation nor the formatter;
    the generation succeeds exactly when there is an output path, the schema compiles, and no call
    fails but that of the formatter, so that the formatter cannot turn success into an error;
    and when it succeeds, the calls, the file and the warnings are as `Delivery` says. -/
theorem generation_all_or_nothing (faithful : host.Faithful)
    (looks : ∀ w, (tools.version w).2 = w) (settings : Settings) (schema : Schema) (w : σ) :
    let r := report host tools settings schema w
    generate host tools settings schema w = (r.result, r.world) ∧
    (∀ e, r.result = .error e → (∀ path cause, e ≠ .writeFailed path cause) →
      r.world = w ∧ ∀ step ∈ r.calls, step.call = .version) ∧
    ((∃ outcome, r.result = .ok outcome) ↔ (∃ output, settings.output = some output) ∧
      (∃ target, settings.build schema (tools.version w).1 = .ok target) ∧
      ∀ step ∈ r.calls, step.failed = true → ∃ path, step.call = .format path) ∧
    (∀ step ∈ r.calls, ∀ path, step.call = .format path → ∃ outcome, r.result = .ok outcome) ∧
    ∀ outcome, r.result = .ok outcome →
      Nonempty (Delivery host tools settings schema w r outcome) := by
  intro r
  have course : Course host tools settings schema w r := course_report host tools settings schema w
  refine ⟨?_, fun e => course.untouched looks, course.succeeds_iff,
    fun step member path => course.succeeds_of_format member,
    fun outcome => course.delivery faithful looks⟩
  obtain ⟨result, world⟩ := watches_generate host tools settings schema (w, [])
  exact Prod.ext result.symm world.symm

end AllOrNothing

/-- A schema of one enum. -/
def badges : Schema := ⟨[.enum { name := "Badge", fields := [{ name := "GOLD" }] }]⟩

/-- Settings with a formatter that always fails. -/
def badgeSettings : Settings := { output := some "out/schema.prisma", formatter := "false" }

/-- A project with an old release of the target tool, and without a folder for the output. -/
def badgeTree : Host.FileTree where
  home := ["app"]
  entries := [
    (["app"], .folder),
    (["app", "node_modules"], .folder),
    (["app", "node_modules", "prisma"], .folder),
    (["app", "node_modules", "prisma", "package.json"],
      .file "\x7b\"version\": \"4.16.2\"\x7d".toUTF8)]

/-- A host that knows no program but that formatter. -/
def badgeHost : Host (StateM Host.FileTree) :=
  treeHost [("false", fun _ t => { status := 1, tree := t })]

/-- The tools that these settings name. -/
def badgeTools : Tools (StateM Host.FileTree) := .ofSettings badgeHost badgeSettings

/-- The badges are written in spite of both warnings, and the formatter finds the whole file. -/
theorem badges_delivered :
    badgeHost.Faithful ∧ (∀ t, (badgeTools.version t).2 = t) ∧ ∃ outcome,
      (generate badgeHost badgeTools badgeSettings badges badgeTree).1 = .ok outcome ∧
      outcome.warnings = [Version.outdatedWarning "4.16.2", formatWarning] ∧
      Nonempty (Delivery badgeHost badgeTools badgeSettings badges badgeTree
        (report badgeHost badgeTools badgeSettings badges badgeTree) outcome) := by
  have faithful : badgeHost.Faithful := treeHost_faithful _
  have looks : ∀ t, (badgeTools.version t).2 = t := Tool.installedVersion_keeps faithful _
  -- for every schema and tree first, so that no run is unfolded while terms are compared
  have delivers : ∀ schema tree outcome,
      (generate badgeHost badgeTools badgeSettings schema tree).1 = .ok outcome →
      Nonempty (Delivery badgeHost badgeTools badgeSettings schema tree
        (report badgeHost badgeTools badgeSettings schema tree) outcome) := by
    intro schema tree outcome ok
    obtain ⟨same, _, _, _, delivered⟩ :=
      generation_all_or_nothing faithful looks badgeSettings schema tree
    exact delivered outcome ((congrArg Prod.fst same).symm.trans ok)
  have succeeds : (generate badgeHost badgeTools badgeSettings badges badgeTree).1.toOption.any
      (·.warnings == [Version.outdatedWarning "4.16.2", formatWarning]) = true := by
    decide +kernel
  obtain ⟨outcome, found, warnings⟩ := (Option.any_eq_true _ _).1 succeeds
  have ok := eq_ok_of_toOption found
  exact ⟨faithful, looks, outcome, ok, by simpa using warnings,
    delivers badges badgeTree outcome ok⟩

end DelegateSchema
