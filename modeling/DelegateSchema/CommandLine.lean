/-
  DelegateSchema.CommandLine — the arguments of the program, and a whole run of it.

  Options are long or short, and a value follows as the next argument or after an equals sign;
  after a short option it may also follow directly.  No option may be given twice, and there are
  no other arguments.  Arguments are taken in order, so that of two faults, or of a fault and a
  request for help, the first one counts.
-/
import DelegateSchema.Document.File
import DelegateSchema.Generate
import DelegateSchema.Settings.DotEnv

namespace DelegateSchema.CommandLine

/-! ## §1. Options -/

/-- The options. -/
inductive Opt where
  | input
  | output
  | mode
  | noFormat
  | clientOutput
  | formatter
  | formatterTimeout
  | identifierLength
  | projectRoot
  | help
  | version
  deriving DecidableEq

/-- All options, with their long names. -/
def longNames : List (String × Opt) :=
  [("input", .input), ("output", .output), ("mode", .mode), ("no-format", .noFormat),
   ("client-output", .clientOutput), ("formatter", .formatter),
   ("formatter-timeout", .formatterTimeout), ("identifier-max-length", .identifierLength),
   ("project-root", .projectRoot), ("help", .help), ("version", .version)]

/-- The options with a short name. -/
def shortNames : List (Char × Opt) :=
  [('i', .input), ('o', .output), ('h', .help), ('V', .version)]

/-- Why arguments are refused. -/
inductive UsageError where
  | unexpected (arg : String)
  | missingValue (option : Opt)
  | surplusValue (option : Opt)
  | badValue (option : Opt) (value : String)
  | repeated (option : Opt)
  | missingInput
  deriving DecidableEq

/-- The long name of an option. -/
def Opt.name (option : Opt) : String :=
  "--" ++ ((longNames.find? (·.2 == option)).map (·.1)).getD ""

/-- The wording of a refusal. -/
def UsageError.message : UsageError → String
  | .unexpected arg => "unexpected argument '" ++ arg ++ "' found"
  | .missingValue option => "a value is required for '" ++ option.name ++ "' but none was supplied"
  | .surplusValue option => "unexpected value for '" ++ option.name ++ "' found"
  | .badValue option value => "invalid value '" ++ value ++ "' for '" ++ option.name ++ "'"
  | .repeated option => "the argument '" ++ option.name ++ "' cannot be used multiple times"
  | .missingInput => "the required argument '--input' was not provided"

/-! ## §2. Settings -/

/-- What the arguments say. -/
structure Invocation where
  input : Option String := none
  overrides : Overrides := {}

/-- What the arguments come to. -/
inductive Request where
  /-- Compile the document at a path. -/
  | compile (input : String) (overrides : Overrides)
  | help
  | version
  | refuse (cause : UsageError)

/-- Fills a slot that must still be empty. -/
def fillOnce {α : Type} (option : Opt) (held : Option α) (value : α) :
    Except UsageError (Option α) :=
  if held.isSome then .error (.repeated option) else .ok (some value)

/-- A path, which must not be empty. -/
def readPath (option : Opt) (value : String) : Except UsageError String :=
  if value.isEmpty then .error (.badValue option value) else .ok value

/-- A number of 64 bits. -/
def readNumber (option : Opt) (value : String) : Except UsageError Nat :=
  (Text.readNatural Text.wordLimit value.toList).mapError fun _ => .badValue option value

/-- A mode, exactly as it is written. -/
def readMode (option : Opt) (value : String) : Except UsageError Mode :=
  match Mode.ofText? value with
  | some mode => .ok mode
  | none => .error (.badValue option value)

/-- Takes an option with its value. -/
def Invocation.put (i : Invocation) (option : Opt) (value : String) :
    Except UsageError Invocation :=
  let o := i.overrides
  match option with
  | .input => do return { i with input := ← fillOnce option i.input (← readPath option value) }
  | .output => do
    return { i with
      overrides := { o with output := ← fillOnce option o.output (← readPath option value) } }
  | .mode => do
    return { i with
      overrides := { o with mode := ← fillOnce option o.mode (← readMode option value) } }
  | .noFormat => do
    return { i with overrides := { o with format := ← fillOnce option o.format false } }
  | .clientOutput => do
    return { i with
      overrides := { o with clientOutput := ← fillOnce option o.clientOutput value } }
  | .formatter => do
    return { i with overrides := { o with formatter := ← fillOnce option o.formatter value } }
  | .formatterTimeout => do
    let value ← readNumber option value
    return { i with
      overrides := { o with formatterTimeout := ← fillOnce option o.formatterTimeout value } }
  | .identifierLength => do
    let value ← readNumber option value
    return { i with
      overrides := { o with identifierLength := ← fillOnce option o.identifierLength value } }
  | .projectRoot => do
    let value ← readPath option value
    return { i with
      overrides := { o with projectRoot := ← fillOnce option o.projectRoot value } }
  | .help | .version => .ok i

/-! ## §3. Arguments -/

/-- An argument that is an option. -/
structure Given where
  option : Opt
  /-- The value in the same argument. -/
  attached : Option String

/-- Splits off a value after the first equals sign. -/
def splitValue (s : List Char) : List Char × Option (List Char) :=
  match s.dropWhile (· != '=') with
  | _ :: value => (s.takeWhile (· != '='), some value)
  | [] => (s, none)

/-- Reads an argument that starts with a hyphen and goes on. -/
def readOption (arg : String) : Except UsageError Given :=
  match arg.toList with
  | '-' :: '-' :: text =>
    let (name, value) := splitValue text
    match longNames.lookup (String.ofList name) with
    | some option => .ok ⟨option, value.map String.ofList⟩
    | none => .error (.unexpected arg)
  | '-' :: c :: text =>
    match shortNames.lookup c, text with
    | some option, [] => .ok ⟨option, none⟩
    | some option, '=' :: value => .ok ⟨option, some (String.ofList value)⟩
    | some option, value => .ok ⟨option, some (String.ofList value)⟩
    | none, _ => .error (.unexpected arg)
  | _ => .error (.unexpected arg)

/-- Whether an argument can only be an option. -/
def isOption (arg : String) : Bool :=
  match arg.toList with
  | '-' :: _ :: _ => true
  | _ => false

/-- Whether an option of one letter is followed by more of them. -/
def isCluster (arg : String) : Bool :=
  match arg.toList with
  | '-' :: c :: _ => c != '-'
  | _ => false

/-- What all arguments come to. -/
def Invocation.finish (i : Invocation) : Request :=
  match i.input with
  | some input => .compile input i.overrides
  | none => .refuse .missingInput

/-- Reads arguments one after the other; `pending` is an option that still needs its value. -/
def readArgs : (pending : Option Opt) → Invocation → List String → Request
  | some option, _, [] => .refuse (.missingValue option)
  | none, i, [] => i.finish
  | some option, i, arg :: rest =>
    if isOption arg then .refuse (.missingValue option)
    else
      match i.put option arg with
      | .ok i => readArgs none i rest
      | .error e => .refuse e
  | none, i, arg :: rest =>
    if arg = "--" then
      match rest with
      | [] => i.finish
      | arg :: _ => .refuse (.unexpected arg)
    else if !isOption arg then .refuse (.unexpected arg)
    else
      match readOption arg with
      | .error e => .refuse e
      | .ok ⟨.help, attached⟩ =>
        if attached.isSome && !isCluster arg then .refuse (.surplusValue .help) else .help
      | .ok ⟨.version, attached⟩ =>
        if attached.isSome && !isCluster arg then .refuse (.surplusValue .version) else .version
      | .ok ⟨.noFormat, some _⟩ => .refuse (.surplusValue .noFormat)
      | .ok ⟨.noFormat, none⟩ =>
        match i.put .noFormat "" with
        | .ok i => readArgs none i rest
        | .error e => .refuse e
      | .ok ⟨option, none⟩ => readArgs (some option) i rest
      | .ok ⟨option, some value⟩ =>
        match i.put option value with
        | .ok i => readArgs none i rest
        | .error e => .refuse e

/-- What the arguments come to. -/
def parse (args : List String) : Request :=
  readArgs none {} args

/-! ## §4. Runs -/

/-- What a run leaves behind, apart from files. -/
structure Report where
  exit : Nat
  output : String := ""
  errors : String := ""

/-- The text for a request for help. -/
def helpText : String :=
  "Usage: polyschema [OPTIONS] --input <INPUT>\n\n" ++
  "Options:\n" ++
  "  -i, --input <INPUT>                  Model document (YAML, or JSON by extension)\n" ++
  "  -o, --output <OUTPUT>                Schema file to write\n" ++
  "      --mode <MODE>                    physical or logical\n" ++
  "      --no-format                      Leave the written file unformatted\n" ++
  "      --client-output <PATH>           Output of prisma-client-js generators\n" ++
  "      --formatter <COMMAND>            Command line of the formatter\n" ++
  "      --formatter-timeout <SECONDS>    How long the formatter may take\n" ++
  "      --identifier-max-length <LENGTH> Length of generated names\n" ++
  "      --project-root <PATH>            Where the installed Prisma version is looked for\n" ++
  "  -h, --help                           Print help\n" ++
  "  -V, --version                        Print version"

/-- The text for a request for the version. -/
def versionText : String := "polyschema 0.3.0-dev"

/-- A run that fails after the arguments are understood. -/
def Report.failure (message : String) : Report :=
  { exit := 1, errors := "Error: " ++ message }

/-- Compiles the document at a path under the settings of environment and command line. -/
def compile {m : Type → Type} [Monad m] (host : Host m) (env : Environment) (input : String)
    (overrides : Overrides) : m Report := do
  match Settings.ofBoth env overrides with
  | .error e => return .failure ("Configuration error: " ++ e.message ++ ": " ++ e.cause)
  | .ok settings =>
    match ← Schema.load host input with
    | .error e => return .failure ("Failed to load model from " ++ input ++ ": " ++ e.message)
    | .ok schema =>
      match ← generate host (Tools.ofSettings host settings) settings schema with
      | .error e => return .failure e.message
      | .ok _ => return { exit := 0 }

/-- Runs the program: the file `.env` completes the environment, then the arguments are read. -/
def run {m : Type → Type} [Monad m] (host : Host m) (env : Environment) (args : List String) :
    m Report := do
  let env :=
    match ← host.readBytes ".env" with
    | .ok bytes => DotEnv.load env bytes
    | .error _ => env
  match parse args with
  | .help => return { exit := 0, output := helpText }
  | .version => return { exit := 0, output := versionText }
  | .refuse e => return { exit := 2, errors := "error: " ++ e.message }
  | .compile input overrides => compile host env input overrides

end DelegateSchema.CommandLine
