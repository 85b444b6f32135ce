/-
  DelegateSchema.Settings.DotEnv — environment variables from a file of `KEY=value` lines.

  A value may be quoted, and a quoted value may go on over several lines.  Outside single quotes
  `$name` and `${name}` stand for the value of a variable and a backslash keeps the next
  character from having a meaning.  A number sign after a blank starts a comment.  Lines are
  taken one by one up to the first malformed one, and a variable that has a value keeps it.
-/
import DelegateSchema.Settings.Source
import DelegateSchema.Text.Blank

namespace DelegateSchema.DotEnv

/-! ## §1. Lines -/

/-- Cuts bytes after every line feed. -/
def cutLines : (held : List UInt8) → List UInt8 → List (List UInt8)
  | held, [] => if held.isEmpty then [] else [held.reverse]
  | held, b :: rest =>
    if b = 10 then (b :: held).reverse :: cutLines [] rest else cutLines (b :: held) rest

/-- Drops a byte order mark. -/
def dropMark : List UInt8 → List UInt8
  | 0xEF :: 0xBB :: 0xBF :: rest => rest
  | bytes => bytes

/-- The lines of a file with their line feeds, up to the first that is not UTF-8. -/
def rawLines (bytes : ByteArray) : List (List Char) :=
  let texts := (cutLines [] (dropMark bytes.toList)).map fun line =>
    (String.fromUTF8? ⟨line.toArray⟩).map String.toList
  (texts.takeWhile Option.isSome).filterMap id

/-- Where in a line a scan stands. -/
inductive Scan where
  /-- Outside quotes. -/
  | outside
  /-- Outside quotes, right after a blank. -/
  | blank
  /-- Outside quotes, right after a backslash. -/
  | escaped
  /-- Inside double quotes. -/
  | double
  | doubleEscaped
  /-- Inside single quotes. -/
  | single
  | singleEscaped
  deriving DecidableEq

/-- What a character outside quotes leads to. -/
def Scan.start (c : Char) (other : Scan) : Scan :=
  if c = '\\' then .escaped
  else if c = '"' then .double
  else if c = '\'' then .single
  else other

/-- One step of a scan. -/
def Scan.step (c : Char) : Scan → Scan
  | .outside =>
    if Text.isBlank c && c != '\n' && c != '\r' then .blank else Scan.start c .outside
  | .blank => Scan.start c .outside
  | .escaped => .outside
  | .double => if c = '\\' then .doubleEscaped else if c = '"' then .outside else .double
  | .doubleEscaped => .double
  | .single => if c = '\\' then .singleEscaped else if c = '\'' then .outside else .single
  | .singleEscaped => .single

/-- Scans a line: where the scan stands at its end, and what comes before a comment, if there is
    one. -/
def scanLine : Scan → (done : List Char) → List Char → Scan × Option (List Char)
  | scan, _, [] => (scan, none)
  | scan, done, c :: rest =>
    if scan = .blank ∧ c = '#' then (scan, some done.reverse)
    else scanLine (scan.step c) (c :: done) rest

/-- Drops the line feed at the end, and a carriage return before it. -/
def dropLineEnd (line : List Char) : List Char :=
  match line.reverse with
  | '\n' :: '\r' :: rest | '\n' :: rest => rest.reverse
  | _ => line

/-- Joins lines that belong together; none marks the place where the text is malformed. -/
def joinLines : Scan → (held : List Char) → List (List Char) → List (Option (List Char))
  | scan, _, [] => if scan = .outside then [] else [none]
  | scan, held, line :: rest =>
    if ((held ++ line).dropWhile Text.isBlank).head? = some '#' then
      some [] :: joinLines .outside [] rest
    else
      match scanLine scan [] line with
      | (_, some kept) => some (held ++ kept) :: joinLines .outside [] rest
      | (.outside, none) => some (dropLineEnd (held ++ line)) :: joinLines .outside [] rest
      | (scan, none) => joinLines scan (held ++ line) rest

/-! ## §2. Values -/

/-- Where in a value a reader stands; `quoted` tells whether it is inside double quotes. -/
inductive Reading where
  | plain (quoted : Bool)
  | single
  | escaped (quoted : Bool)
  /-- In a variable name after a dollar sign. -/
  | named (quoted : Bool) (name : List Char)
  /-- In a variable name inside braces. -/
  | braced (quoted : Bool) (name : List Char)
  /-- After the value. -/
  | ended

/-- The value of a variable, empty if it has none. -/
def variableText (env : Environment) (name : List Char) : List Char :=
  ((env.get? (String.ofList name)).getD "").toList

/-- Reads a value; `done` holds what is read so far. -/
def readValue (env : Environment) : Reading → (done : List Char) → List Char → Option (List Char)
  | .plain quoted, done, [] | .escaped quoted, done, [] => if quoted then none else some done
  | .named quoted name, done, [] => if quoted then none else some (done ++ variableText env name)
  | .ended, done, [] => some done
  | .single, _, [] | .braced _ _, _, [] => none
  | .plain quoted, done, c :: rest =>
    if c = '$' then readValue env (.named quoted []) done rest
    else if c = '\\' then readValue env (.escaped quoted) done rest
    else if c = '"' then readValue env (.plain (!quoted)) done rest
    else if quoted then readValue env (.plain quoted) (done ++ [c]) rest
    else if c = '\'' then readValue env .single done rest
    else if c = ' ' || c = '\t' then readValue env .ended done rest
    else readValue env (.plain quoted) (done ++ [c]) rest
  | .single, done, c :: rest =>
    if c = '\'' then readValue env (.plain false) done rest
    else readValue env .single (done ++ [c]) rest
  | .escaped quoted, done, c :: rest =>
    if c = 'n' then readValue env (.plain quoted) (done ++ ['\n']) rest
    else if ['\\', '\'', '"', '$', ' '].contains c then
      readValue env (.plain quoted) (done ++ [c]) rest
    else none
  | .named quoted name, done, c :: rest =>
    if Text.isAsciiAlnum c then readValue env (.named quoted (name ++ [c])) done rest
    else if c = '\x7b' && name.isEmpty then readValue env (.braced quoted []) done rest
    else
      let done := done ++ variableText env name
      if c = '$' then readValue env (.named quoted []) done rest
      else readValue env (.plain quoted) (done ++ [c]) rest
  | .braced quoted name, done, c :: rest =>
    if c = '\x7d' then readValue env (.plain quoted) (done ++ variableText env name) rest
    else readValue env (.braced quoted (name ++ [c])) done rest
  | .ended, done, c :: rest =>
    if c = ' ' || c = '\t' then readValue env .ended done rest
    else if c = '#' then some done
    else none

/-! ## §3. Entries -/

/-- A key, and what follows it. -/
def readKey (s : List Char) : Option (List Char × List Char) :=
  let isStart (c : Char) : Bool := c.isAlpha || c == '_'
  let isInner (c : Char) : Bool := Text.isAsciiAlnum c || c == '_' || c == '.'
  match s with
  | [] => none
  | c :: _ => if isStart c then some (s.takeWhile isInner, s.dropWhile isInner) else none

/-- What follows an equals sign after white space. -/
def afterEquals? (s : List Char) : Option (List Char) :=
  Text.dropStart? ['='] (s.dropWhile Text.isBlank)

/-- The key of an entry, and what follows the equals sign; the word `export` may come first. -/
def readHead (s : List Char) : Option (List Char × List Char) := do
  let (key, rest) ← readKey s
  match afterEquals? rest with
  | some rest => return (key, rest)
  | none =>
    if key = "export".toList then
      let (key, rest) ← readKey (rest.dropWhile Text.isBlank)
      return (key, ← afterEquals? rest)
    else none

/-- Whether a line holds nothing that counts. -/
def isVoid (s : List Char) : Bool :=
  s.isEmpty || s.head? == some '#'

/-- Reads a line: the environment with one more variable, or with nothing more. -/
def readLine (env : Environment) (line : List Char) : Option Environment :=
  let s := Text.trim line
  if isVoid s then some env
  else do
    let (key, rest) ← readHead s
    let rest := rest.dropWhile Text.isBlank
    let value ← if isVoid rest then some [] else readValue env (.plain false) [] rest
    let key := String.ofList key
    return if (env.get? key).isSome then env else env ++ [(key, String.ofList value)]

/-- Takes lines one by one up to the first malformed one. -/
def readLines (env : Environment) : List (Option (List Char)) → Environment
  | [] | none :: _ => env
  | some line :: rest =>
    match readLine env line with
    | some env => readLines env rest
    | none => env

/-- Adds the variables of a file to an environment. -/
def load (env : Environment) (bytes : ByteArray) : Environment :=
  readLines env (joinLines .outside [] (rawLines bytes))

end DelegateSchema.DotEnv
