/-
  DelegateSchema.Tool.Version — release versions of the target tool, and which one is installed.

  A version is `major.minor.patch` with an optional tag of a pre-release, as in `5.1.0-dev.3`.
  A pre-release comes before its release.  Tags are compared identifier by identifier: numbers by
  value and before words, words by their characters, and a tag before every longer one that
  starts with it.

  The version that a project has installed stands in a package manifest below `node_modules`.  The
  manifest of the tool itself comes first, that of its client second; one that cannot be read or
  names no version is passed over.
-/
import DelegateSchema.Document.Record
import DelegateSchema.Host.Basic
import DelegateSchema.Host.Path
import DelegateSchema.Json.Reader
import DelegateSchema.Text.Blank
import DelegateSchema.Text.Natural

namespace DelegateSchema.Tool

/-- A release version. -/
structure Version where
  major : Nat
  minor : Nat
  patch : Nat
  /-- The tag of a pre-release. -/
  tag : Option String := none
  deriving DecidableEq

/-- Why a text is not a version. -/
inductive VersionError where
  /-- The text does not have the form of a version. -/
  | malformed (text : String)
  /-- One of the three components is not a number of 64 bits. -/
  | component (text : String) (cause : Text.NaturalError)
  deriving DecidableEq

/-- The wording of a fault. -/
def VersionError.message : VersionError → String
  | .malformed text => "not a version: '" ++ text ++ "'"
  | .component text cause => "bad version component in '" ++ text ++ "': " ++ cause.message

namespace Version

/-! ## §1. Text -/

/-- The text of a version. -/
def text (v : Version) : String :=
  v.major.repr ++ "." ++ v.minor.repr ++ "." ++ v.patch.repr ++
    match v.tag with
    | some tag => "-" ++ tag
    | none => ""

/-- The parts of a text that has the form of a version. -/
structure Parts where
  major : List Char
  minor : List Char
  patch : List Char
  tag : Option (List Char)

/-- The longest beginning whose characters satisfy `p`, and the rest; it must not be empty. -/
def run (p : Char → Bool) (s : List Char) : Option (List Char × List Char) :=
  if (s.takeWhile p).isEmpty then none else some (s.takeWhile p, s.dropWhile p)

/-- The characters of tags. -/
def isTagChar (c : Char) : Bool :=
  Text.isAsciiAlnum c || c == '.' || c == '-'

/-- The tag after `mark`, when `mark` comes next, and the rest. -/
def scanTag (mark : Char) : List Char → Option (Option (List Char) × List Char)
  | [] => some (none, [])
  | c :: rest =>
    if c = mark then (run isTagChar rest).map fun (tag, rest) => (some tag, rest)
    else some (none, c :: rest)

/-- Drops one `v` at the front. -/
def dropV : List Char → List Char
  | 'v' :: rest => rest
  | s => s

/-- Takes a text apart: white space, perhaps a `v`, three numbers in digits of any script, a tag
    after `-`, build data after `+`, white space. -/
def scan (s : List Char) : Option Parts := do
  let (major, s) ← run Text.isAnyDigit (dropV (s.dropWhile Text.isBlank))
  let (minor, s) ← run Text.isAnyDigit (← Text.dropStart? ['.'] s)
  let (patch, s) ← run Text.isAnyDigit (← Text.dropStart? ['.'] s)
  let (tag, s) ← scanTag '-' s
  let (_, s) ← scanTag '+' s
  if s.all Text.isBlank then some { major, minor, patch, tag } else none

/-- Reads a version.  Only ASCII digits make a number. -/
def parse (text : String) : Except VersionError Version :=
  match scan text.toList with
  | none => .error (.malformed text)
  | some parts => do
    let component (digits : List Char) : Except VersionError Nat :=
      (Text.readNatural Text.wordLimit digits).mapError (.component text)
    return {
      major := ← component parts.major
      minor := ← component parts.minor
      patch := ← component parts.patch
      tag := parts.tag.map String.ofList }

/-! ## §2. Order -/

/-- The order of texts by their characters. -/
def compareText : List Char → List Char → Ordering
  | [], [] => .eq
  | [], _ :: _ => .lt
  | _ :: _, [] => .gt
  | a :: as, b :: bs => (compare a.toNat b.toNat).then (compareText as bs)

/-- The order of identifiers: numbers by value and before words.  Numbers of the same value are
    told apart by their text. -/
def compareIdentifier (a b : List Char) : Ordering :=
  match Text.readNatural Text.wordLimit a, Text.readNatural Text.wordLimit b with
  | .ok m, .ok n => (compare m n).then (compareText a b)
  | .ok _, .error _ => .lt
  | .error _, .ok _ => .gt
  | .error _, .error _ => compareText a b

/-- The order of lists of identifiers; a list comes before its extensions. -/
def compareIdentifiers : List (List Char) → List (List Char) → Ordering
  | [], [] => .eq
  | [], _ :: _ => .lt
  | _ :: _, [] => .gt
  | a :: as, b :: bs => (compareIdentifier a b).then (compareIdentifiers as bs)

/-- The order of tags; no tag comes last. -/
def compareTag : Option String → Option String → Ordering
  | none, none => .eq
  | none, some _ => .gt
  | some _, none => .lt
  | some a, some b =>
    compareIdentifiers (a.toList.splitOn '.') (b.toList.splitOn '.')

/-- The order of versions. -/
def compare (a b : Version) : Ordering :=
  (Ord.compare a.major b.major).then <| (Ord.compare a.minor b.minor).then <|
    (Ord.compare a.patch b.patch).then <| compareTag a.tag b.tag

/-! ## §3. The oldest supported release -/

/-- The oldest release that generated schemas are known to work with. -/
def oldest : Version := { major := 5, minor := 0, patch := 0 }

/-- The warning about an installed version; a text that is no version gives none. -/
def warning? (installed : String) : Option String :=
  match parse installed with
  | .error _ => none
  | .ok v =>
    if v.compare oldest = .lt then
      some ("Prisma version \"" ++ oldest.text ++ "\" or higher is required. " ++
        "Detected version is \"" ++ installed ++ "\".")
    else none

end Version

/-! ## §4. The installed version -/

/-- The version that a package manifest names. -/
def manifestVersion (v : Json) : Decoded (Option String) := do
  let version ← v.toRecord ["version"] none fun (version : Option (Option String)) key x _ =>
    if key = "version" then Json.fill key version x.toText? else x.skip version
  return version.getD none

/-- The version in the text of a package manifest, if the text is a manifest and names one. -/
def manifestVersion? (text : String) : Option String :=
  let source := Json.read text
  match manifestVersion source.tree with
  | .ok version => if source.finished then version else none
  | .error _ => none

/-- The manifests of a project, the first one that names a version counts. -/
def manifests (root : String) : List String :=
  ["prisma", "@prisma/client"].map fun package =>
    Host.Path.join root ("node_modules/" ++ package ++ "/package.json")

/-- The first version that the given manifests name. -/
def firstVersion {m : Type → Type} [Monad m] (host : Host m) : List String → m (Option String)
  | [] => pure none
  | path :: rest => do
    match ← host.readText path with
    | .error _ => firstVersion host rest
    | .ok text =>
      match manifestVersion? text with
      | some version => return some version
      | none => firstVersion host rest

/-- The installed version in a project. -/
def installedVersion {m : Type → Type} [Monad m] (host : Host m) (root : String) :
    m (Option String) :=
  firstVersion host (manifests root)

end DelegateSchema.Tool
