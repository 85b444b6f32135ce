/-
  DelegateSchema.Yaml.Reader — YAML trees from text.

  The reader covers block and flow collections, plain and quoted scalars over one or several
  lines, and comments; a JSON text is a YAML text too.  Anchors, tags, block scalars and explicit
  keys are not covered: the tree is cut where one stands.  As with JSON the reader never fails,
  and a tree without `cut` was read to its end.

  Block structure goes by columns.  A collection stands at the column of its first key or dash;
  a token at that column continues it, one further left ends it, one further right is misplaced.
-/
import DelegateSchema.Yaml.Basic

namespace DelegateSchema.Yaml

/-! ## §1. Characters with their places -/

/-- A character and where it stands. -/
structure Cell where
  char : Char
  line : Nat
  col : Nat

/-- The characters of a text with their places; every line break is one newline. -/
def cellsFrom (line col : Nat) : List Char → List Cell
  | [] => []
  | '\r' :: '\n' :: rest => ⟨'\n', line, col⟩ :: cellsFrom (line + 1) 0 rest
  | c :: rest =>
    if c = '\n' ∨ c = '\r' ∨ c.toNat = 0x85 then ⟨'\n', line, col⟩ :: cellsFrom (line + 1) 0 rest
    else ⟨c, line, col⟩ :: cellsFrom line (col + 1) rest

/-- A blank or a tab. -/
def isGap (c : Char) : Bool := c == ' ' || c == '\t'

/-- The text ends here, or a gap or a line break follows. -/
def atGap : List Cell → Bool
  | [] => true
  | cell :: _ => isGap cell.char || cell.char == '\n'

/-- The text or the line ends here. -/
def atLineEnd : List Cell → Bool
  | [] => true
  | cell :: _ => cell.char == '\n'

/-- Drops a comment that starts here. -/
def dropComment (s : List Cell) : List Cell :=
  match s with
  | cell :: _ => if cell.char == '#' then s.dropWhile (·.char != '\n') else s
  | [] => []

/-- Drops gaps and a comment within the line. -/
def dropGap (s : List Cell) : List Cell :=
  dropComment (s.dropWhile (isGap ·.char))

/-- Goes to the next token of a block: over blanks, comments and line breaks.  A tab before a
    token is left standing, where no token can start. -/
def nextToken : (fuel : Nat) → List Cell → List Cell
  | 0, s => s
  | fuel + 1, s =>
    match dropComment (s.dropWhile (·.char == ' ')) with
    | [] => []
    | cell :: rest => if cell.char == '\n' then nextToken fuel rest else cell :: rest

/-- Goes to the next token inside brackets: over gaps, comments and line breaks. -/
def nextInside : (fuel : Nat) → List Cell → List Cell
  | 0, s => s
  | fuel + 1, s =>
    match dropGap s with
    | [] => []
    | cell :: rest => if cell.char == '\n' then nextInside fuel rest else cell :: rest

/-- A marker of three equal characters that starts or ends a document. -/
def isMarker (mark : Char) : List Cell → Bool
  | a :: b :: c :: rest =>
    a.col == 0 && a.char == mark && b.char == mark && c.char == mark && atGap rest
  | _ => false

/-! ## §2. Scalars -/

/-- What joins two parts of a scalar that a run of blanks and line breaks stands between: the
    blanks themselves, one blank for one break, and one break less for several. -/
def joint (run : List Cell) : List Char :=
  match run.countP (·.char == '\n') with
  | 0 => run.map (·.char)
  | 1 => [' ']
  | n + 2 => List.replicate (n + 1) '\n'

/-- A run of blanks, tabs and line breaks. -/
def isSpacing (cell : Cell) : Bool := isGap cell.char || cell.char == '\n'

/-- The indicators that end a plain scalar inside brackets. -/
def isBracketMark (c : Char) : Bool :=
  c == ',' || c == '[' || c == ']' || c == '\x7b' || c == '\x7d'

/-- The unbroken part of a plain scalar, and the text after it.  Inside brackets a colon right
    before an indicator is misplaced. -/
def plainPart (inside : Bool) : List Cell → Option (List Char × List Cell)
  | [] => some ([], [])
  | cell :: rest =>
    let colonBeforeMark :=
      match rest with
      | next :: _ => inside && cell.char == ':' && (isBracketMark next.char || next.char == '?')
      | [] => false
    if colonBeforeMark then none
    else if isSpacing cell || (cell.char == ':' && atGap rest)
        || (inside && isBracketMark cell.char)
    then some ([], cell :: rest)
    else (plainPart inside rest).map fun (text, after) => (cell.char :: text, after)

/-- Continues a plain scalar after `text` over blanks and line breaks.  Outside brackets a
    further line must reach the column `low`. -/
def plainMore (inside : Bool) (low : Nat) : (fuel : Nat) → (text : List Char) → List Cell →
    Option (List Char × List Cell)
  | 0, _, _ => none
  | fuel + 1, text, s =>
    let run := s.takeWhile isSpacing
    let next := s.dropWhile isSpacing
    match next with
    | [] => some (text, s)
    | cell :: _ =>
      let broken := run.any (·.char == '\n')
      if cell.char == '#' || (broken && !inside && cell.col < low) || isMarker '-' next
        || isMarker '.' next
      then some (text, s)
      else
        match plainPart inside next with
        | none => none
        | some ([], _) => some (text, s)
        | some (part, after) => plainMore inside low fuel (text ++ joint run ++ part) after

/-- A plain scalar. -/
def scanPlain (inside : Bool) (low : Nat) (s : List Cell) : Option (List Char × List Cell) :=
  match plainPart inside s with
  | none => none
  | some (part, after) => plainMore inside low (s.length + 1) part after

/-- Whether a plain scalar can start here. -/
def startsPlain (inside : Bool) : List Cell → Bool
  | [] => false
  | cell :: rest =>
    let c := cell.char
    if c == '-' then
      match rest with
      | next :: _ => !isGap next.char
      | [] => true
    else if c == '?' || c == ':' then !inside && !atGap rest
    else
      !(isSpacing cell || isBracketMark c
        || "#&*!|>'\"%@".toList.contains c || c.toNat == 0x60)

/-- A text in single quotes, after the opening one: a quote inside is written twice. -/
def scanSingle : (fuel : Nat) → (text : List Char) → List Cell → Option (List Char × List Cell)
  | 0, _, _ => none
  | _ + 1, _, [] => none
  | fuel + 1, text, cell :: rest =>
    if cell.char == '\'' then
      match rest with
      | next :: after =>
        if next.char == '\'' then scanSingle fuel (text ++ ['\'']) after else some (text, rest)
      | [] => some (text, [])
    else if isSpacing cell then
      let s := cell :: rest
      scanSingle fuel (text ++ joint (s.takeWhile isSpacing)) (s.dropWhile isSpacing)
    else scanSingle fuel (text ++ [cell.char]) rest

/-- The character that one letter after a backslash stands for. -/
def escape? : Char → Option Char
  | '0' => some (Char.ofNat 0)
  | 'a' => some (Char.ofNat 7)
  | 'b' => some (Char.ofNat 8)
  | 't' => some '\t'
  | '\t' => some '\t'
  | 'n' => some '\n'
  | 'v' => some (Char.ofNat 11)
  | 'f' => some (Char.ofNat 12)
  | 'r' => some '\r'
  | 'e' => some (Char.ofNat 27)
  | ' ' => some ' '
  | '"' => some '"'
  | '/' => some '/'
  | '\\' => some '\\'
  | 'N' => some (Char.ofNat 0x85)
  | '_' => some (Char.ofNat 0xA0)
  | 'L' => some (Char.ofNat 0x2028)
  | 'P' => some (Char.ofNat 0x2029)
  | _ => none

/-- The number of hexadecimal digits after the letter of an escape. -/
def escapeLength? : Char → Option Nat
  | 'x' => some 2
  | 'u' => some 4
  | 'U' => some 8
  | _ => none

/-- The character of a code in hexadecimal digits. -/
def ofCode? (digits : List Char) : Option Char :=
  match ofBase? 16 digits with
  | some n => if n.isValidChar then some (Char.ofNat n) else none
  | none => none

/-- A text in double quotes, after the opening one. -/
def scanDouble : (fuel : Nat) → (text : List Char) → List Cell → Option (List Char × List Cell)
  | 0, _, _ => none
  | _ + 1, _, [] => none
  | fuel + 1, text, cell :: rest =>
    if cell.char == '"' then some (text, rest)
    else if cell.char == '\\' then
      match rest with
      | [] => none
      | letter :: rest =>
        if letter.char == '\n' then
          -- the line break is dropped, further ones are kept
          let breaks := (rest.takeWhile isSpacing).countP (·.char == '\n')
          scanDouble fuel (text ++ List.replicate breaks '\n') (rest.dropWhile isSpacing)
        else
          match escapeLength? letter.char with
          | some n =>
            let digits := (rest.take n).map (·.char)
            if digits.length = n then
              match ofCode? digits with
              | some c => scanDouble fuel (text ++ [c]) (rest.drop n)
              | none => none
            else none
          | none =>
            match escape? letter.char with
            | some c => scanDouble fuel (text ++ [c]) rest
            | none => none
    else if isSpacing cell then
      let s := cell :: rest
      scanDouble fuel (text ++ joint (s.takeWhile isSpacing)) (s.dropWhile isSpacing)
    else scanDouble fuel (text ++ [cell.char]) rest

/-! ## §3. Nodes -/

/-- A node, and the text after it unless the text broke off inside the node. -/
abbrev Fragment := Yaml × Option (List Cell)

/-- The text breaks off here. -/
def broken : Fragment := (.cut, none)

/-- Nothing is written here. -/
def empty : Yaml := .plain ""

/-- A scanned scalar, or the break. -/
def ofScan (make : String → Yaml) : Option (List Char × List Cell) → Fragment
  | none => broken
  | some (text, rest) => (make (String.ofList text), some rest)

/-- The text after a colon that makes the node started by `first` a key: on the same line. -/
def afterColon? (inside : Bool) (first : Cell) (s : List Cell) : Option (List Cell) :=
  match s with
  | cell :: rest =>
    if cell.char == ':' && (inside || atGap rest) && cell.line == first.line then some rest
    else none
  | [] => none

/-- A dash that announces an item of a block sequence. -/
def isDash : List Cell → Bool
  | cell :: rest => cell.char == '-' && atGap rest
  | [] => false

mutual

/-- A scalar or a bracketed collection.  `fuel` bounds the depth of the calls; every three of
    them consume a character. -/
def readFlow (inside : Bool) (low : Nat) : (fuel : Nat) → List Cell → Fragment
  | 0, _ => broken
  | _ + 1, [] => broken
  | fuel + 1, cell :: rest =>
    if cell.char == '[' then
      match nextInside (rest.length + 1) rest with
      | next :: after =>
        if next.char == ']' then (.sequence [], some after) else readItems fuel [] (next :: after)
      | [] => (.sequence [.cut], none)
    else if cell.char == '\x7b' then
      match nextInside (rest.length + 1) rest with
      | next :: after =>
        if next.char == '\x7d' then (.mapping [], some after)
        else readEntries fuel [] (next :: after)
      | [] => (.mapping [(.cut, .cut)], none)
    else if cell.char == '"' then ofScan .quoted (scanDouble (rest.length + 1) [] rest)
    else if cell.char == '\'' then ofScan .quoted (scanSingle (rest.length + 1) [] rest)
    else if startsPlain inside (cell :: rest) then
      ofScan .plain (scanPlain inside low (cell :: rest))
    else broken

/-- A node inside brackets and, if it is a key, its value. -/
def readPair : (fuel : Nat) → List Cell → (Yaml × Option Yaml) × Option (List Cell)
  | 0, _ => ((.cut, none), none)
  | fuel + 1, s =>
    match readFlow true 0 fuel s with
    | (key, none) => ((key, none), none)
    | (key, some rest) =>
      let rest := nextInside (rest.length + 1) rest
      match s.head?.bind fun first => afterColon? true first rest with
      | none => ((key, none), some rest)
      | some rest =>
        let rest := nextInside (rest.length + 1) rest
        match rest with
        | next :: _ =>
          if next.char == ',' || next.char == ']' || next.char == '\x7d' then
            ((key, some Yaml.empty), some rest)
          else
            match readFlow true 0 fuel rest with
            | (value, none) => ((key, some value), none)
            | (value, some rest) => ((key, some value), some (nextInside (rest.length + 1) rest))
        | [] => ((key, some .cut), none)

/-- The items of a bracketed sequence; `done` holds the earlier ones, last first.  A pair is an
    item that is a mapping of one entry. -/
def readItems : (fuel : Nat) → (done : List Yaml) → List Cell → Fragment
  | 0, done, _ => (.sequence (.cut :: done).reverse, none)
  | fuel + 1, done, s =>
    let ((key, value), after) := readPair fuel s
    let item :=
      match value with
      | none => key
      | some value => .mapping [(key, value)]
    let done := item :: done
    match after with
    | none => (.sequence done.reverse, none)
    | some [] => (.sequence (.cut :: done).reverse, none)
    | some (mark :: rest) =>
      if mark.char == ']' then (.sequence done.reverse, some rest)
      else if mark.char == ',' then
        match nextInside (rest.length + 1) rest with
        | next :: after =>
          if next.char == ']' then (.sequence done.reverse, some after)
          else readItems fuel done (next :: after)
        | [] => (.sequence (.cut :: done).reverse, none)
      else (.sequence (.cut :: done).reverse, none)

/-- The entries of a bracketed mapping; `done` holds the earlier ones, last first. -/
def readEntries : (fuel : Nat) → (done : List (Yaml × Yaml)) → List Cell → Fragment
  | 0, done, _ => (.mapping ((.cut, .cut) :: done).reverse, none)
  | fuel + 1, done, s =>
    let ((key, value), after) := readPair fuel s
    let done := (key, value.getD Yaml.empty) :: done
    match after with
    | none => (.mapping done.reverse, none)
    | some [] => (.mapping ((.cut, .cut) :: done).reverse, none)
    | some (mark :: rest) =>
      if mark.char == '\x7d' then (.mapping done.reverse, some rest)
      else if mark.char == ',' then
        match nextInside (rest.length + 1) rest with
        | next :: after =>
          if next.char == '\x7d' then (.mapping done.reverse, some after)
          else readEntries fuel done (next :: after)
        | [] => (.mapping ((.cut, .cut) :: done).reverse, none)
      else (.mapping ((.cut, .cut) :: done).reverse, none)

end

/-- A scalar or bracketed collection that must be the last thing on its line. -/
def readLast (low : Nat) (s : List Cell) : Fragment :=
  match readFlow false low (3 * s.length + 3) s with
  | (node, none) => (node, none)
  | (node, some rest) =>
    let rest := dropGap rest
    if atLineEnd rest then (node, some rest) else broken

mutual

/-- The node that starts at a token of a block. -/
def readBlock (low : Nat) : (fuel : Nat) → List Cell → Fragment
  | 0, _ => broken
  | _ + 1, [] => broken
  | fuel + 1, first :: rest =>
    let s := first :: rest
    if isDash s then readDashes first.col false fuel [] s
    else
      match readFlow false low (3 * s.length + 3) s with
      | (node, none) => (node, none)
      | (node, some rest) =>
        let rest := dropGap rest
        match afterColon? false first rest with
        | some rest => readKeys first.col fuel [] node rest
        | none => if atLineEnd rest then (node, some rest) else broken

/-- The items of a block sequence whose dashes stand at the column `col`.  A sequence that stands
    at the column of the keys around it (`loose`) ends at the next key. -/
def readDashes (col : Nat) (loose : Bool) : (fuel : Nat) → (done : List Yaml) → List Cell → Fragment
  | 0, done, _ => (.sequence (.cut :: done).reverse, none)
  | _ + 1, done, [] => (.sequence done.reverse, some [])
  | fuel + 1, done, _ :: rest =>
    let s := nextToken (rest.length + 1) rest
    let (item, after) :=
      match s with
      | [] => (Yaml.empty, some [])
      | token :: _ => if token.col ≤ col then (Yaml.empty, some s) else readBlock (col + 1) fuel s
    let done := item :: done
    match after with
    | none => (.sequence done.reverse, none)
    | some rest =>
      match nextToken (rest.length + 1) rest with
      | [] => (.sequence done.reverse, some [])
      | token :: after =>
        let s := token :: after
        if token.col < col then (.sequence done.reverse, some s)
        else if token.col = col ∧ isDash s then readDashes col loose fuel done s
        else if token.col = col ∧ loose then (.sequence done.reverse, some s)
        else (.sequence (.cut :: done).reverse, none)

/-- The entries of a block mapping whose keys stand at the column `col`, from the text after the
    colon of `key` on. -/
def readKeys (col : Nat) : (fuel : Nat) → (done : List (Yaml × Yaml)) → (key : Yaml) → List Cell →
    Fragment
  | 0, done, key, _ => (.mapping ((key, .cut) :: done).reverse, none)
  | fuel + 1, done, key, s =>
    let inLine := dropGap s
    let (value, after) :=
      if atLineEnd inLine then
        let s := nextToken (inLine.length + 1) inLine
        match s with
        | [] => (Yaml.empty, some [])
        | token :: _ =>
          if token.col = col ∧ isDash s then readDashes col true fuel [] s
          else if token.col ≤ col then (Yaml.empty, some s)
          else readBlock (col + 1) fuel s
      else if isDash inLine then broken
      else readLast (col + 1) inLine
    let done := (key, value) :: done
    match after with
    | none => (.mapping done.reverse, none)
    | some rest =>
      match nextToken (rest.length + 1) rest with
      | [] => (.mapping done.reverse, some [])
      | token :: after =>
        let s := token :: after
        if token.col < col then (.mapping done.reverse, some s)
        else if token.col = col ∧ !isDash s then
          match readFlow false (col + 1) (3 * s.length + 3) s with
          | (key, none) => (.mapping ((key, .cut) :: done).reverse, none)
          | (key, some rest) =>
            match afterColon? false token (dropGap rest) with
            | some rest => readKeys col fuel done key rest
            | none => (.mapping ((.cut, .cut) :: done).reverse, none)
        else (.mapping ((.cut, .cut) :: done).reverse, none)

end

/-! ## §4. Texts -/

/-- What a text holds: a tree, and whether nothing else follows it. -/
structure Source where
  tree : Yaml
  finished : Bool

/-- The characters that may stand in a text. -/
def isPrintable (c : Char) : Bool :=
  let n := c.toNat
  n == 9 || n == 10 || n == 13 || (32 ≤ n && n ≤ 126) || n == 0x85 || (0xA0 ≤ n && n ≤ 0xFFFD) ||
    0x10000 ≤ n

/-- The cells up to the marker that ends the document. -/
def untilEnd : List Cell → List Cell
  | [] => []
  | cell :: rest => if isMarker '.' (cell :: rest) then [] else cell :: untilEnd rest

/-- The cells of a text, without a byte order mark at its beginning. -/
def cellsOf (text : String) : List Cell :=
  let chars :=
    match text.toList with
    | c :: rest => if c.toNat = 0xFEFF then rest else c :: rest
    | [] => []
  untilEnd (cellsFrom 0 0 chars)

/-- Reads a text. -/
def read (text : String) : Source :=
  let cells := cellsOf text
  let start := nextToken (cells.length + 1) cells
  let start :=
    if isMarker '-' start then nextToken (start.length + 1) (start.drop 3) else start
  match start with
  | [] => ⟨Yaml.empty, true⟩
  | _ =>
    if !text.toList.all isPrintable then ⟨.cut, false⟩
    else
      match readBlock 0 (2 * start.length + 2) start with
      | (tree, none) => ⟨tree, false⟩
      | (tree, some rest) =>
        let rest := nextToken (rest.length + 1) rest
        ⟨tree, rest.isEmpty⟩

end DelegateSchema.Yaml
