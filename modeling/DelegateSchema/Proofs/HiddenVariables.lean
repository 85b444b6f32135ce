/-
  DelegateSchema.Proofs.HiddenVariables — when the command line hides an environment variable.

  The environment gives settings, the command line replaces some of them, and only what is left is
  checked for its range.  So a variable whose setting is replaced should not matter.  It does not,
  as long as it can be read: variables are read before anything is replaced, in a fixed order, and
  the first one that is refused ends the reading.

  Main results:
    * `Environment.faultOf?_overrides` — reading the variables fails with the first fault,
    * `Settings.value?_override` — what is replaced, setting by setting,
    * `variables_hidden_iff` — a hidden variable shows exactly through such a fault,
    * `replaced_mode_shows` — a variable that is replaced and refused.
-/
import DelegateSchema.Settings.Source
import DelegateSchema.Proofs.Identifiers

namespace DelegateSchema

/-! ## §1. Settings by name -/

/-- The settings, in the order in which their variables are read. -/
inductive Setting where
  | output
  | mode
  | format
  | clientOutput
  | formatter
  | formatterTimeout
  | identifierLength
  | projectRoot
  deriving DecidableEq

namespace Setting

/-- What a setting holds. -/
abbrev Value : Setting → Type
  | .output | .clientOutput | .formatter | .projectRoot => String
  | .mode => Mode
  | .format => Bool
  | .formatterTimeout | .identifierLength => Nat

/-- The environment variable of a setting. -/
def variableName : Setting → String
  | .output => "POLYSCHEMA_OUTPUT"
  | .mode => "POLYSCHEMA_MODE"
  | .format => "POLYSCHEMA_FORMAT"
  | .clientOutput => "POLYSCHEMA_CLIENT_OUTPUT"
  | .formatter => "POLYSCHEMA_FORMATTER"
  | .formatterTimeout => "POLYSCHEMA_FORMATTER_TIMEOUT"
  | .identifierLength => "POLYSCHEMA_IDENTIFIER_MAX_LENGTH"
  | .projectRoot => "POLYSCHEMA_PROJECT_ROOT"

/-- The value of a variable as a setting; any text will do for a setting that holds one. -/
def parse : (k : Setting) → String → Except VariableError k.Value
  | .output | .clientOutput | .formatter | .projectRoot => .ok
  | .mode => Environment.parseMode
  | .format => Environment.parseBool
  | .formatterTimeout | .identifierLength => Environment.parseNatural

/-- All settings, in order. -/
def all : List Setting :=
  [.output, .mode, .format, .clientOutput, .formatter, .formatterTimeout, .identifierLength,
    .projectRoot]

theorem mem_all (k : Setting) : k ∈ all := by
  cases k <;> decide

theorem find?_variableName (k : Setting) :
    all.find? (·.variableName = k.variableName) = some k := by
  cases k <;> rfl

theorem variableName_injective {k k' : Setting} (h : k.variableName = k'.variableName) :
    k = k' := by
  have found := find?_variableName k
  rw [h, find?_variableName k'] at found
  exact (Option.some.inj found).symm

end Setting

/-! ## §2. Replacing -/

/-- What overrides give for a setting. -/
def Overrides.value? (o : Overrides) : (k : Setting) → Option k.Value
  | .output => o.output
  | .mode => o.mode
  | .format => o.format
  | .clientOutput => o.clientOutput
  | .formatter => o.formatter
  | .formatterTimeout => o.formatterTimeout
  | .identifierLength => o.identifierLength
  | .projectRoot => o.projectRoot

/-- Whether overrides replace a setting. -/
def Overrides.gives (o : Overrides) (k : Setting) : Bool :=
  (o.value? k).isSome

namespace Settings

/-- The value of a setting, if it has one. -/
def value? (s : Settings) : (k : Setting) → Option k.Value
  | .output => s.output
  | .mode => some s.mode
  | .format => some s.format
  | .clientOutput => s.clientOutput
  | .formatter => some s.formatter
  | .formatterTimeout => s.formatterTimeout
  | .identifierLength => some s.identifierLength
  | .projectRoot => some s.projectRoot

theorem ext_value? {s s' : Settings} (same : ∀ k, s.value? k = s'.value? k) : s = s' := by
  cases s
  cases s'
  congr
  · exact same .output
  · exact Option.some.inj (same .mode)
  · exact Option.some.inj (same .format)
  · exact same .clientOutput
  · exact Option.some.inj (same .formatter)
  · exact same .formatterTimeout
  · exact Option.some.inj (same .identifierLength)
  · exact Option.some.inj (same .projectRoot)

/-- **What is given replaces, and the rest stays.** -/
theorem value?_override (s : Settings) (o : Overrides) (k : Setting) :
    (s.override o).value? k = (o.value? k).or (s.value? k) := by
  cases k with
  | output | clientOutput | formatterTimeout => exact Option.orElse_eq_or
  | mode => exact (Option.or_some ..).symm
  | format => exact (Option.or_some ..).symm
  | formatter => exact (Option.or_some ..).symm
  | identifierLength => exact (Option.or_some ..).symm
  | projectRoot => exact (Option.or_some ..).symm

/-- Overrides make settings equal that differ only in what is replaced. -/
theorem override_congr {s s' : Settings} {o : Overrides}
    (same : ∀ k, o.gives k = false → s.value? k = s'.value? k) : s.override o = s'.override o := by
  refine ext_value? fun k => ?_
  rw [value?_override, value?_override]
  cases given : o.value? k with
  | some value => rfl
  | none => exact same k (by rw [Overrides.gives, given]; rfl)

end Settings

/-! ## §3. Reading -/

/-- What a computation fails with. -/
def faultOf? {ε α : Type} : Except ε α → Option ε
  | .ok _ => none
  | .error e => some e

theorem faultOf?_eq_some_iff {ε α : Type} {x : Except ε α} {e : ε} :
    faultOf? x = some e ↔ x = .error e := by
  cases x <;> simp [faultOf?]

theorem faultOf?_eq_none_iff {ε α : Type} {x : Except ε α} :
    faultOf? x = none ↔ ∃ a, x = .ok a := by
  cases x <;> simp [faultOf?]

namespace Environment

variable {env env' : Environment} {o : Overrides} {k : Setting} {e : SettingsError}

/-- Reads the variable of a setting. -/
def setting? (env : Environment) (k : Setting) : Except SettingsError (Option k.Value) :=
  env.read? k.variableName k.parse

/-- Why the variable of a setting is refused, if it is. -/
def fault? (env : Environment) (k : Setting) : Option SettingsError :=
  faultOf? (env.setting? k)

/-- The first of some settings whose variable is refused. -/
def firstRefused? (env : Environment) (ks : List Setting) : Option Setting :=
  ks.find? fun k => (env.fault? k).isSome

/-- The first fault of some settings. -/
def firstFault? (env : Environment) (ks : List Setting) : Option SettingsError :=
  (env.firstRefused? ks).bind env.fault?

/-- The first fault of some settings, where overrides replace the setting that has it. -/
def hiddenFault? (env : Environment) (o : Overrides) (ks : List Setting) : Option SettingsError :=
  ((env.firstRefused? ks).filter o.gives).bind env.fault?

/-- Two environments give the same value to every variable whose setting overrides leave alone. -/
def AgreeBeyond (o : Overrides) (env env' : Environment) : Prop :=
  ∀ k, o.gives k = false → env.get? k.variableName = env'.get? k.variableName

instance : Decidable (AgreeBeyond o env env') :=
  decidable_of_iff
    (∀ k ∈ Setting.all, o.gives k = false → env.get? k.variableName = env'.get? k.variableName)
    ⟨fun agree k => agree k k.mem_all, fun agree k _ => agree k⟩

theorem AgreeBeyond.setting?_eq (agree : AgreeBeyond o env env') (left : o.gives k = false) :
    env.setting? k = env'.setting? k := by
  unfold setting? read?
  rw [agree k left]

/-- A fault names the variable. -/
theorem exists_variable_of_fault? (refused : env.fault? k = some e) :
    ∃ value cause, e = .variable k.variableName value cause := by
  have failed := faultOf?_eq_some_iff.1 refused
  unfold setting? read? at failed
  split at failed
  next => cases failed
  next value _ =>
    cases parsed : k.parse value with
    | ok a => rw [parsed] at failed; cases failed
    | error cause =>
      rw [parsed] at failed
      exact ⟨value, cause, (Except.error.inj failed).symm⟩

theorem setting?_text (env : Environment) (name : String) :
    env.read? name Except.ok = .ok (env.get? name) := by
  unfold read?
  cases env.get? name <;> rfl

/-- All variables are read one after the other. -/
theorem overrides_eq (env : Environment) :
    env.overrides = (do
      return {
        output := ← env.setting? .output
        mode := ← env.setting? .mode
        format := ← env.setting? .format
        clientOutput := ← env.setting? .clientOutput
        formatter := ← env.setting? .formatter
        formatterTimeout := ← env.setting? .formatterTimeout
        identifierLength := ← env.setting? .identifierLength
        projectRoot := ← env.setting? .projectRoot }) := by
  simp only [setting?, Setting.parse, setting?_text]
  rfl

/-- The overrides hold what each variable is read as. -/
theorem setting?_of_overrides {given : Overrides} (ok : env.overrides = .ok given) (k : Setting) :
    env.setting? k = .ok (given.value? k) := by
  rw [overrides_eq] at ok
  simp only [bind_ok_iff, pure_ok_iff] at ok
  obtain ⟨_, h₁, _, h₂, _, h₃, _, h₄, _, h₅, _, h₆, _, h₇, _, h₈, rfl⟩ := ok
  cases k <;> assumption

/-! ## §4. The first fault -/

theorem firstRefused?_cons_of_fault {ks : List Setting} (refused : env.fault? k = some e) :
    env.firstRefused? (k :: ks) = some k :=
  List.find?_cons_of_pos (by rw [refused]; rfl)

theorem firstRefused?_cons_of_none {ks : List Setting} (accepted : env.fault? k = none) :
    env.firstRefused? (k :: ks) = env.firstRefused? ks :=
  List.find?_cons_of_neg (by rw [accepted]; exact Bool.false_ne_true)

theorem firstFault?_cons_of_fault {ks : List Setting} (refused : env.fault? k = some e) :
    env.firstFault? (k :: ks) = some e := by
  rw [firstFault?, firstRefused?_cons_of_fault refused]
  exact refused

theorem firstFault?_cons_of_none {ks : List Setting} (accepted : env.fault? k = none) :
    env.firstFault? (k :: ks) = env.firstFault? ks := by
  rw [firstFault?, firstRefused?_cons_of_none accepted]
  rfl

/-- What is read first fails first. -/
theorem faultOf?_bind {ks : List Setting} {α : Type} {f : Option k.Value → Except SettingsError α}
    (rest : ∀ value, faultOf? (f value) = env.firstFault? ks) :
    faultOf? (env.setting? k >>= f) = env.firstFault? (k :: ks) := by
  cases read : env.setting? k with
  | ok value =>
    have accepted : env.fault? k = none := faultOf?_eq_none_iff.2 ⟨value, read⟩
    rw [firstFault?_cons_of_none accepted]
    exact rest value
  | error e =>
    have refused : env.fault? k = some e := faultOf?_eq_some_iff.2 read
    rw [firstFault?_cons_of_fault refused]
    rfl

/-- **Reading the variables fails with the first fault**, and only with that. -/
theorem faultOf?_overrides (env : Environment) :
    faultOf? env.overrides = env.firstFault? Setting.all := by
  rw [overrides_eq]
  iterate 8 refine faultOf?_bind fun _ => ?_
  rfl

theorem firstFault?_eq_some_iff {ks : List Setting} :
    env.firstFault? ks = some e ↔ ∃ k, env.firstRefused? ks = some k ∧ env.fault? k = some e :=
  Option.bind_eq_some_iff

theorem hiddenFault?_eq_some_iff {ks : List Setting} :
    env.hiddenFault? o ks = some e ↔
      ∃ k, env.firstRefused? ks = some k ∧ o.gives k = true ∧ env.fault? k = some e := by
  simp only [hiddenFault?, Option.bind_eq_some_iff, Option.filter_eq_some_iff, and_assoc]

theorem hiddenFault?_eq_none {ks : List Setting}
    (accepted : ∀ k, o.gives k = true → env.fault? k = none) : env.hiddenFault? o ks = none := by
  refine Option.eq_none_iff_forall_ne_some.2 fun e hidden => ?_
  obtain ⟨k, _, given, refused⟩ := hiddenFault?_eq_some_iff.1 hidden
  rw [accepted k given] at refused
  cases refused

/-- A fault that is not hidden is the first one of the settings that are left alone. -/
theorem firstFault?_of_hiddenFault?_eq_none {ks : List Setting}
    (nothing : env.hiddenFault? o ks = none) :
    env.firstFault? ks = env.firstFault? (ks.filter fun k => !o.gives k) := by
  induction ks with
  | nil => rfl
  | cons k ks ih =>
    cases refused : env.fault? k with
    | some e =>
      -- the fault is here, so it is not hidden and its setting is kept
      have first : env.firstRefused? (k :: ks) = some k := firstRefused?_cons_of_fault refused
      have left : o.gives k = false := by
        by_contra given
        rw [hiddenFault?_eq_some_iff.2 ⟨k, first, by simpa using given, refused⟩] at nothing
        cases nothing
      rw [List.filter_cons_of_pos (by rw [left]; rfl), firstFault?_cons_of_fault refused,
        firstFault?_cons_of_fault refused]
    | none =>
      -- the fault comes later, and whether the setting is kept does not matter
      rw [hiddenFault?, firstRefused?_cons_of_none refused] at nothing
      rw [firstFault?_cons_of_none refused, ih nothing]
      by_cases given : o.gives k = true
      · rw [List.filter_cons_of_neg (by simp [given])]
      · rw [List.filter_cons_of_pos (by simp [given]), firstFault?_cons_of_none refused]

theorem firstFault?_congr {ks : List Setting} (same : ∀ k ∈ ks, env.fault? k = env'.fault? k) :
    env.firstFault? ks = env'.firstFault? ks := by
  induction ks with
  | nil => rfl
  | cons k ks ih =>
    have here := same k List.mem_cons_self
    have rest := ih fun k' hk' => same k' (List.mem_cons_of_mem k hk')
    cases refused : env.fault? k with
    | some e =>
      rw [firstFault?_cons_of_fault refused, firstFault?_cons_of_fault (here ▸ refused)]
    | none =>
      rw [firstFault?_cons_of_none refused, firstFault?_cons_of_none (here ▸ refused), rest]

/-- Without hidden faults, agreeing environments have the same first fault. -/
theorem AgreeBeyond.firstFault?_eq (agree : AgreeBeyond o env env') {ks : List Setting}
    (nothing : env.hiddenFault? o ks = none) (nothing' : env'.hiddenFault? o ks = none) :
    env.firstFault? ks = env'.firstFault? ks := by
  rw [firstFault?_of_hiddenFault?_eq_none nothing, firstFault?_of_hiddenFault?_eq_none nothing']
  refine firstFault?_congr fun k hk => ?_
  have left : o.gives k = false := by simpa using (List.mem_filter.1 hk).2
  rw [fault?, fault?, agree.setting?_eq left]

/-- A hidden fault names its variable, so an environment that fails with it hides it as well. -/
theorem hiddenFault?_of_firstFault? {ks : List Setting} (hidden : env.hiddenFault? o ks = some e)
    (fails : env'.firstFault? ks = some e) : env'.hiddenFault? o ks = some e := by
  obtain ⟨k, _, given, refused⟩ := hiddenFault?_eq_some_iff.1 hidden
  obtain ⟨k', first, refused'⟩ := firstFault?_eq_some_iff.1 fails
  obtain ⟨_, _, named⟩ := exists_variable_of_fault? refused
  obtain ⟨_, _, named'⟩ := exists_variable_of_fault? refused'
  have names := (SettingsError.variable.inj (named.symm.trans named')).1
  have same : k = k' := Setting.variableName_injective names
  exact hiddenFault?_eq_some_iff.2 ⟨k', first, same ▸ given, refused'⟩

end Environment

/-! ## §5. Both sources -/

namespace Settings

open Environment (AgreeBeyond)

variable {env env' : Environment} {o : Overrides} {e : SettingsError}

theorem ofBoth_of_firstFault? (fails : env.firstFault? Setting.all = some e) :
    ofBoth env o = .error e := by
  have failed := faultOf?_eq_some_iff.1 (env.faultOf?_overrides.trans fails)
  rw [ofBoth, failed]
  rfl

/-- A fault of a variable is the first fault of the environment. -/
theorem firstFault?_of_ofBoth {name value : String} {cause : VariableError}
    (failed : ofBoth env o = .error (.variable name value cause)) :
    env.firstFault? Setting.all = some (.variable name value cause) := by
  rw [← env.faultOf?_overrides, faultOf?_eq_some_iff]
  rcases bind_error failed with reading | ⟨given, _, checking⟩
  · exact reading
  · -- the check of the ranges has a fault of its own
    unfold validate at checking
    split at checking <;> cases checking

/-- Without hidden faults, agreeing environments give the same settings or the same fault. -/
theorem ofBoth_congr (agree : AgreeBeyond o env env')
    (nothing : env.hiddenFault? o Setting.all = none)
    (nothing' : env'.hiddenFault? o Setting.all = none) : ofBoth env o = ofBoth env' o := by
  have same := agree.firstFault?_eq nothing nothing'
  cases fails : env.firstFault? Setting.all with
  | some e => rw [ofBoth_of_firstFault? fails, ofBoth_of_firstFault? (same ▸ fails)]
  | none =>
    -- both environments are read, and where their overrides differ the command line replaces them
    obtain ⟨given, read⟩ := faultOf?_eq_none_iff.1 (env.faultOf?_overrides.trans fails)
    obtain ⟨given', read'⟩ :=
      faultOf?_eq_none_iff.1 (env'.faultOf?_overrides.trans (same ▸ fails))
    rw [ofBoth, ofBoth, read, read']
    refine congrArg validate (override_congr fun k left => ?_)
    have values : given.value? k = given'.value? k := by
      have settings := agree.setting?_eq left
      rw [Environment.setting?_of_overrides read, Environment.setting?_of_overrides read']
        at settings
      exact Except.ok.inj settings
    rw [value?_override, value?_override, values]

/-- A hidden fault ends everything. -/
theorem ofBoth_of_hiddenFault? (hidden : env.hiddenFault? o Setting.all = some e) :
    ofBoth env o = .error e := by
  obtain ⟨k, first, _, refused⟩ := Environment.hiddenFault?_eq_some_iff.1 hidden
  exact ofBoth_of_firstFault? (Environment.firstFault?_eq_some_iff.2 ⟨k, first, refused⟩)

/-- A hidden fault shows in the result. -/
theorem hiddenFault?_of_ofBoth_eq (same : ofBoth env o = ofBoth env' o)
    (hidden : env.hiddenFault? o Setting.all = some e) :
    env'.hiddenFault? o Setting.all = some e := by
  obtain ⟨k, _, _, refused⟩ := Environment.hiddenFault?_eq_some_iff.1 hidden
  obtain ⟨value, cause, rfl⟩ := Environment.exists_variable_of_fault? refused
  have fails := firstFault?_of_ofBoth (same.symm.trans (ofBoth_of_hiddenFault? hidden))
  exact Environment.hiddenFault?_of_firstFault? hidden fails

/-- **A setting of the command line hides its variable, unless that is the first one that cannot be
    read.**  Two environments that agree on the variables of all other settings give the same
    settings or the same fault exactly if they have the same hidden fault.  Neither has one where
    all hidden variables can be read, whatever their values are.  A hidden fault is what the
    environment then fails with. -/
theorem variables_hidden_iff (agree : AgreeBeyond o env env') :
    (ofBoth env o = ofBoth env' o ↔
      env.hiddenFault? o Setting.all = env'.hiddenFault? o Setting.all) ∧
    ((∀ k, o.gives k = true → env.fault? k = none ∧ env'.fault? k = none) →
      ofBoth env o = ofBoth env' o) ∧
    ∀ e, env.hiddenFault? o Setting.all = some e → ofBoth env o = .error e := by
  refine ⟨⟨fun same => ?_, fun same => ?_⟩, fun accepted => ?_, fun e => ofBoth_of_hiddenFault?⟩
  · -- a hidden fault on one side shows in the result, and so it is there on the other
    exact Option.ext fun e =>
      ⟨hiddenFault?_of_ofBoth_eq same, hiddenFault?_of_ofBoth_eq same.symm⟩
  · cases hidden : env.hiddenFault? o Setting.all with
    | some e => rw [ofBoth_of_hiddenFault? hidden, ofBoth_of_hiddenFault? (same ▸ hidden)]
    | none => exact ofBoth_congr agree hidden (same ▸ hidden)
  · exact ofBoth_congr agree
      (Environment.hiddenFault?_eq_none fun k given => (accepted k given).1)
      (Environment.hiddenFault?_eq_none fun k given => (accepted k given).2)

/-- The environment of an unformatted schema whose identifiers have some length. -/
def unformatted (length : String) : Environment :=
  [("POLYSCHEMA_IDENTIFIER_MAX_LENGTH", length), ("POLYSCHEMA_FORMAT", "false")]

/-- Lengths out of their range are hidden by one that is not. -/
theorem replaced_length_hidden :
    AgreeBeyond { identifierLength := some 64 } (unformatted "8") (unformatted "300") ∧
    ofBoth (unformatted "8") { identifierLength := some 64 } =
      ofBoth (unformatted "300") { identifierLength := some 64 } ∧
    ofBoth (unformatted "300") { identifierLength := some 64 } =
      .ok { format := false, identifierLength := 64 } := by
  have agree :
      AgreeBeyond { identifierLength := some 64 } (unformatted "8") (unformatted "300") := by
    decide +kernel
  refine ⟨agree, (variables_hidden_iff agree).1.2 ?_, ?_⟩
  · decide +kernel
  · decide +kernel

/-- **A variable can show although its setting is replaced**: the command line gives the mode, but
    the variable holds something that is no mode, and that is a fault. -/
theorem replaced_mode_shows :
    AgreeBeyond { mode := some .logical } [("POLYSCHEMA_MODE", "both")] [] ∧
    ofBoth [("POLYSCHEMA_MODE", "both")] { mode := some .logical } =
      .error (.variable "POLYSCHEMA_MODE" "both" (.mode ⟨"both"⟩)) ∧
    ofBoth [] { mode := some .logical } = .ok { mode := .logical } := by
  decide +kernel

end Settings

end DelegateSchema
