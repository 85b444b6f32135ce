/-
  DelegateSchema.Text.Blank — white space, and what is cut off or split by it.

  White space is the Unicode property of that name (25 characters), not only the ASCII blanks:
  a no-break space or an ideographic space around a field type or inside a command line counts.
  Texts are lists of characters here, so that every operation is a plain list function.
-/

namespace DelegateSchema.Text

/-! ## §1. The class -/

/-- White space by the Unicode property. -/
def isBlank (c : Char) : Bool :=
  let n := c.toNat
  (9 ≤ n && n ≤ 13) || n == 0x20 || n == 0x85 || n == 0xA0 || n == 0x1680 ||
    (0x2000 ≤ n && n ≤ 0x200A) || n == 0x2028 || n == 0x2029 || n == 0x202F || n == 0x205F ||
    n == 0x3000

/-! ## §2. Trimming -/

/-- Drops the longest ending whose characters satisfy `p`. -/
def dropEndWhile (p : Char → Bool) (s : List Char) : List Char :=
  (s.reverse.dropWhile p).reverse

/-- Drops the longest beginning and the longest ending whose characters satisfy `p`. -/
def trimWhile (p : Char → Bool) (s : List Char) : List Char :=
  dropEndWhile p (s.dropWhile p)

/-- Drops white space at both ends. -/
def trim (s : List Char) : List Char :=
  trimWhile isBlank s

/-! ## §3. Splitting -/

/-- The maximal runs of characters that are not white space, in order. -/
def words (s : List Char) : List (List Char) :=
  go s []
where
  /-- `word` holds the characters of the unfinished run, last one first. -/
  go : List Char → List Char → List (List Char)
    | [], word => close word []
    | c :: rest, word => if isBlank c then close word (go rest []) else go rest (c :: word)
  /-- Adds a finished run, unless it is empty. -/
  close (word : List Char) (others : List (List Char)) : List (List Char) :=
    if word.isEmpty then others else word.reverse :: others

/-- What follows `start` in `s`, when `s` begins with it. -/
def dropStart? : (start s : List Char) → Option (List Char)
  | [], s => some s
  | _ :: _, [] => none
  | a :: start, b :: s => if a = b then dropStart? start s else none

/-- What precedes `ending` in `s`, when `s` ends with it. -/
def dropEnding? (ending s : List Char) : Option (List Char) :=
  (dropStart? ending.reverse s.reverse).map List.reverse

end DelegateSchema.Text
