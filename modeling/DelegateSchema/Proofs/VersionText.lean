/-
  DelegateSchema.Proofs.VersionText — which texts are versions.

  A version is spelled with white space around it, perhaps a `v`, three numbers with dots between
  them, a label after a hyphen and a label after a plus sign.  Reading takes the longest run at each
  place and never goes back.  Nothing is lost by that: no character that may stand behind a run can
  belong to it, since white space holds no digit of any script and no character of a label.

  Main results:
    * `Text.readNatural_eq_ok_iff` — digits are read as the number they denote, below a limit,
    * `parse_eq_ok_iff` — a text is read as a version exactly when it spells the version,
    * `version_texts_exact` — hence the accepted texts, and a version is read back from its text.
-/
import DelegateSchema.Proofs.Shorthand
import DelegateSchema.Proofs.Tokens
import DelegateSchema.Tool.Version

namespace DelegateSchema

/-! ## §1. Characters and numbers -/

namespace Text

variable {c : Char} {limit acc n : Nat} {digits : List Char}

theorem isAsciiDigit_eq (c : Char) : isAsciiDigit c = c.isDigit :=
  rfl

theorem isAsciiAlnum_eq (c : Char) : isAsciiAlnum c = c.isAlphanum := by
  have upper : (decide ('A' ≤ c) && decide (c ≤ 'Z')) = c.isUpper := (Bool.decide_and ..).symm
  unfold isAsciiAlnum
  rw [upper, Bool.or_comm, ← Bool.or_assoc, Bool.or_right_comm]
  rfl

/-- The characters of white space. -/
def blanks : List Char :=
  [9, 10, 11, 12, 13, 0x20, 0x85, 0xA0, 0x1680, 0x2000, 0x2001, 0x2002, 0x2003, 0x2004, 0x2005,
   0x2006, 0x2007, 0x2008, 0x2009, 0x200A, 0x2028, 0x2029, 0x202F, 0x205F, 0x3000].map Char.ofNat

theorem mem_blanks (h : isBlank c = true) : c ∈ blanks := by
  refine List.mem_map.2 ⟨c.toNat, ?_, Char.ofNat_toNat c⟩
  simp only [isBlank, Bool.or_eq_true, Bool.and_eq_true, decide_eq_true_eq, beq_iff_eq] at h
  simp only [List.mem_cons, List.not_mem_nil, or_false]
  omega

theorem isAnyDigit_of_isBlank (h : isBlank c = true) : isAnyDigit c = false := by
  have all : blanks.all (fun c => !isAnyDigit c) = true := by decide
  simpa using List.all_eq_true.1 all c (mem_blanks h)

theorem isAnyDigit_of_isDigit (h : c.isDigit = true) : isAnyDigit c = true := by
  have range := Char.isDigit_iff_toNat.1 h
  rw [isAnyDigit, List.any_eq_true]
  refine ⟨'0'.toNat, by decide, ?_⟩
  rw [Bool.and_eq_true, decide_eq_true_eq, decide_eq_true_eq]
  exact ⟨range.1, Nat.lt_succ_of_le range.2⟩

theorem le_ofDigitChars (digits : List Char) (acc : Nat) :
    acc ≤ Nat.ofDigitChars 10 digits acc := by
  induction digits generalizing acc with
  | nil => exact Nat.le_refl acc
  | cons c digits ih =>
    rw [Nat.ofDigitChars_cons]
    exact Nat.le_trans (by omega) (ih _)

/-- Digits are appended to a number as long as it stays below the limit, which can be seen from
    the last number: on the way they only grow. -/
theorem readDigits_eq_ok_iff (small : acc < limit) :
    readDigits limit acc digits = .ok n ↔
      (∀ c ∈ digits, c.isDigit = true) ∧ Nat.ofDigitChars 10 digits acc = n ∧ n < limit := by
  induction digits generalizing acc with
  | nil =>
    rw [readDigits, Except.ok.injEq, Nat.ofDigitChars_nil]
    simp only [List.not_mem_nil, false_implies, implies_true, true_and]
    exact (and_iff_left_of_imp fun h => h ▸ small).symm
  | cons c digits ih =>
    have next : acc * 10 + digitValue c = 10 * acc + (c.toNat - '0'.toNat) := by
      rw [Nat.mul_comm]
      rfl
    rw [readDigits, isAsciiDigit_eq, Nat.ofDigitChars_cons, ← next, List.forall_mem_cons]
    by_cases digit : c.isDigit = true
    · rw [if_pos digit]
      by_cases fits : acc * 10 + digitValue c < limit
      · simp [fits, ih fits, digit]
      · have grows := le_ofDigitChars digits (acc * 10 + digitValue c)
        simp only [if_neg fits]
        constructor
        · intro h
          cases h
        · rintro ⟨-, rfl, below⟩
          omega
    · simp [digit]

/-- **Digits are read as the number they denote**, where it is below the limit. -/
theorem readNatural_eq_ok_iff (nonempty : digits ≠ []) (unsigned : digits.head? ≠ some '+')
    (positive : 0 < limit) :
    readNatural limit digits = .ok n ↔
      (∀ c ∈ digits, c.isDigit = true) ∧ Nat.ofDigitChars 10 digits 0 = n ∧ n < limit := by
  rw [← readDigits_eq_ok_iff positive]
  unfold readNatural
  split
  · exact absurd rfl nonempty
  · exact absurd rfl unsigned
  · exact absurd rfl unsigned
  · rfl

end Text

namespace Tool.Version

/-! ## §2. Spellings -/

/-- The ASCII digits of a number of 64 bits. -/
structure Numeral where
  digits : List Char
  nonempty : digits ≠ []
  ascii : ∀ c ∈ digits, c.isDigit = true
  small : Nat.ofDigitChars 10 digits 0 < Text.wordLimit

/-- The number that digits denote. -/
def Numeral.value (n : Numeral) : Nat :=
  Nat.ofDigitChars 10 n.digits 0

theorem Numeral.value_lt (n : Numeral) : n.value < Text.wordLimit :=
  n.small

/-- The digits of a number, without zeros in front. -/
def Numeral.ofNat (n : Nat) (small : n < Text.wordLimit) : Numeral where
  digits := Nat.toDigits 10 n
  nonempty := Nat.toDigits_ne_nil
  ascii _ h := Nat.isDigit_of_mem_toDigits (by decide) (by decide) h
  small := by
    rw [Nat.ofDigitChars_ten_toDigits]
    exact small

/-- A run of letters, digits, dots and hyphens. -/
structure Label where
  chars : List Char
  nonempty : chars ≠ []
  plain : ∀ c ∈ chars, c.isAlphanum = true ∨ c = '.' ∨ c = '-'

/-- A label after its mark, or nothing. -/
def labelled (mark : Char) : Option Label → List Char
  | some label => mark :: label.chars
  | none => []

/-- What stands around the numbers of a version. -/
structure Frame where
  before : List Char
  /-- Whether a `v` stands in front of the numbers. -/
  marked : Bool
  tag : Option Label
  build : Option Label
  after : List Char
  blankBefore : ∀ c ∈ before, Text.isBlank c = true
  blankAfter : ∀ c ∈ after, Text.isBlank c = true

/-- What follows the numbers. -/
def Frame.behind (f : Frame) : List Char :=
  labelled '-' f.tag ++ (labelled '+' f.build ++ f.after)

/-- Three numbers in their frame. -/
def Frame.around (f : Frame) (major minor patch : List Char) : List Char :=
  f.before ++ ((if f.marked then ['v'] else []) ++
    (major ++ '.' :: (minor ++ '.' :: (patch ++ f.behind))))

/-- A way to write a version. -/
structure Spelling extends Frame where
  major : Numeral
  minor : Numeral
  patch : Numeral

/-- The text of a spelling. -/
def Spelling.text (w : Spelling) : String :=
  String.ofList (w.around w.major.digits w.minor.digits w.patch.digits)

/-- The version that is spelled: white space, `v`, zeros in front and build data do not count. -/
def Spelling.version (w : Spelling) : Version where
  major := w.major.value
  minor := w.minor.value
  patch := w.patch.value
  tag := w.tag.map fun label => String.ofList label.chars

/-! ## §3. Taking a text apart -/

/-- A run of characters that satisfy `p`. -/
structure IsRun (p : Char → Bool) (xs : List Char) : Prop where
  nonempty : xs ≠ []
  all : ∀ c ∈ xs, p c = true

variable {p : Char → Bool} {s xs rest major minor patch : List Char} {mark : Char}

theorem run_append (h : IsRun p xs) (ends : ∀ c ∈ rest.head?, p c = false) :
    run p (xs ++ rest) = some (xs, rest) := by
  obtain ⟨taken, dropped⟩ := Token.takeWhile_run p h.all ends
  unfold run
  rw [taken, dropped, if_neg (by simp [h.nonempty])]

theorem eq_append_of_run (h : run p s = some (xs, rest)) : s = xs ++ rest ∧ IsRun p xs := by
  unfold run at h
  split at h
  next => cases h
  next some_taken =>
    cases h
    refine ⟨List.takeWhile_append_dropWhile.symm, ?_, fun c => List.mem_takeWhile_imp⟩
    intro none_taken
    exact some_taken (List.isEmpty_iff.2 none_taken)

theorem isTagChar_iff {c : Char} :
    isTagChar c = true ↔ c.isAlphanum = true ∨ c = '.' ∨ c = '-' := by
  unfold isTagChar
  rw [Text.isAsciiAlnum_eq, Bool.or_eq_true, Bool.or_eq_true, beq_iff_eq, beq_iff_eq, or_assoc]

theorem isTagChar_of_isBlank {c : Char} (h : Text.isBlank c = true) : isTagChar c = false := by
  have all : Text.blanks.all (fun c => !isTagChar c) = true := by decide
  simpa using List.all_eq_true.1 all c (Text.mem_blanks h)

theorem scanTag_labelled (label : Option Label)
    (ends : ∀ c ∈ rest.head?, c ≠ mark ∧ isTagChar c = false) :
    scanTag mark (labelled mark label ++ rest) = some (label.map (·.chars), rest) := by
  cases label with
  | none =>
    cases rest with
    | nil => rfl
    | cons c rest => exact if_neg (ends c rfl).1
  | some label =>
    have taken : run isTagChar (label.chars ++ rest) = some (label.chars, rest) :=
      run_append ⟨label.nonempty, fun c h => isTagChar_iff.2 (label.plain c h)⟩
        fun c h => (ends c h).2
    rw [labelled, List.cons_append, scanTag, if_pos rfl, taken]
    rfl

theorem exists_labelled_of_scanTag {tag : Option (List Char)}
    (h : scanTag mark s = some (tag, rest)) :
    ∃ label : Option Label, tag = label.map (·.chars) ∧ s = labelled mark label ++ rest := by
  cases s with
  | nil =>
    cases h
    exact ⟨none, rfl, rfl⟩
  | cons c s =>
    rw [scanTag] at h
    split at h
    next marked =>
      obtain ⟨⟨chars, after⟩, taken, same⟩ := Option.map_eq_some_iff.1 h
      cases same
      obtain ⟨whole, isRun⟩ := eq_append_of_run taken
      refine ⟨some ⟨chars, isRun.nonempty, fun c h => isTagChar_iff.1 (isRun.all c h)⟩, rfl, ?_⟩
      rw [marked, whole]
      rfl
    next =>
      cases h
      exact ⟨none, rfl, rfl⟩

theorem exists_eq_dropV (s : List Char) :
    ∃ marked : Bool, s = (if marked then ['v'] else []) ++ dropV s := by
  unfold dropV
  split
  · exact ⟨true, rfl⟩
  · exact ⟨false, rfl⟩

theorem dropV_append (marked : Bool) (unmarked : ∀ c ∈ s.head?, c ≠ 'v') :
    dropV ((if marked then ['v'] else []) ++ s) = s := by
  cases marked with
  | true => rfl
  | false =>
    cases s with
    | nil => rfl
    | cons c s =>
      show dropV (c :: s) = c :: s
      unfold dropV
      split
      next same =>
        cases same
        exact absurd rfl (unmarked 'v' rfl)
      next => rfl

theorem IsRun.head_append (h : IsRun p xs) : ∀ c ∈ (xs ++ rest).head?, p c = true := by
  intro c first
  rw [List.head?_append_of_ne_nil _ h.nonempty] at first
  exact h.all c (List.mem_of_head? first)

theorem head_labelled_append {label : Option Label} {c : Char}
    (h : c ∈ (labelled mark label ++ rest).head?) : c = mark ∨ c ∈ rest.head? := by
  cases label with
  | none => exact Or.inr h
  | some label => exact Or.inl (Option.some.inj h).symm

namespace Frame

variable (f : Frame) {c : Char}

theorem isBlank_of_head_after (h : c ∈ f.after.head?) : Text.isBlank c = true :=
  f.blankAfter c (List.mem_of_head? h)

theorem ends_build (h : c ∈ f.after.head?) : c ≠ '+' ∧ isTagChar c = false := by
  have blank := f.isBlank_of_head_after h
  refine ⟨?_, isTagChar_of_isBlank blank⟩
  rintro rfl
  exact absurd blank (by decide)

theorem ends_tag (h : c ∈ (labelled '+' f.build ++ f.after).head?) :
    c ≠ '-' ∧ isTagChar c = false := by
  have plain : isTagChar c = false := by
    rcases head_labelled_append h with rfl | h
    · decide
    · exact (f.ends_build h).2
  refine ⟨?_, plain⟩
  rintro rfl
  exact absurd plain (by decide)

theorem ends_patch (h : c ∈ f.behind.head?) : Text.isAnyDigit c = false := by
  rcases head_labelled_append h with rfl | h
  · decide
  · rcases head_labelled_append h with rfl | h
    · decide
    · exact Text.isAnyDigit_of_isBlank (f.isBlank_of_head_after h)

end Frame

theorem dropStart?_dot (s : List Char) : Text.dropStart? ['.'] ('.' :: s) = some s :=
  Text.dropStart?_append ['.'] s

/-- **Numbers in a frame are found again**, whatever script their digits belong to. -/
theorem scan_around (f : Frame) (majorRun : IsRun Text.isAnyDigit major)
    (minorRun : IsRun Text.isAnyDigit minor) (patchRun : IsRun Text.isAnyDigit patch) :
    scan (f.around major minor patch) =
      some { major, minor, patch, tag := f.tag.map (·.chars) } := by
  have dot : ∀ (s : List Char), ∀ c ∈ ('.' :: s).head?, Text.isAnyDigit c = false := by
    rintro s c ⟨⟩
    decide
  have unmarked : ∀ c ∈ (major ++ '.' :: (minor ++ '.' :: (patch ++ f.behind))).head?, c ≠ 'v' := by
    rintro c first rfl
    exact absurd (majorRun.head_append _ first) (by decide)
  have visible : ∀ c ∈ ((if f.marked then ['v'] else []) ++
      (major ++ '.' :: (minor ++ '.' :: (patch ++ f.behind)))).head?, Text.isBlank c = false := by
    intro c first
    cases marked : f.marked with
    | true =>
      rw [marked] at first
      cases first
      decide
    | false =>
      rw [marked] at first
      have digit := majorRun.head_append c first
      by_contra blank
      rw [Text.isAnyDigit_of_isBlank (Bool.eq_true_of_not_eq_false blank)] at digit
      cases digit
  unfold scan Frame.around
  rw [(Token.takeWhile_run Text.isBlank f.blankBefore visible).2, dropV_append _ unmarked,
    run_append majorRun (dot _)]
  simp only [Option.bind_eq_bind, Option.bind_some, dropStart?_dot, run_append minorRun (dot _),
    run_append patchRun fun _ => f.ends_patch]
  rw [Frame.behind, scanTag_labelled _ fun _ => f.ends_tag]
  simp only [Option.bind_some]
  rw [scanTag_labelled _ fun _ => f.ends_build]
  simp only [Option.bind_some]
  rw [if_pos (List.all_eq_true.2 f.blankAfter)]

/-- **What is found are numbers in a frame.** -/
theorem exists_frame_of_scan {parts : Parts} (h : scan s = some parts) :
    ∃ f : Frame, s = f.around parts.major parts.minor parts.patch ∧
      parts.tag = f.tag.map (·.chars) ∧ IsRun Text.isAnyDigit parts.major ∧
      IsRun Text.isAnyDigit parts.minor ∧ IsRun Text.isAnyDigit parts.patch := by
  simp only [scan, Option.bind_eq_bind, Option.bind_eq_some_iff] at h
  obtain ⟨⟨major, s₁⟩, readMajor, s₂, dot, ⟨minor, s₃⟩, readMinor, s₄, dot', ⟨patch, s₅⟩, readPatch,
    ⟨tag, s₆⟩, readTag, ⟨build, after⟩, readBuild, h⟩ := h
  obtain ⟨whole, majorRun⟩ := eq_append_of_run readMajor
  obtain ⟨rfl, minorRun⟩ := eq_append_of_run readMinor
  obtain ⟨rfl, patchRun⟩ := eq_append_of_run readPatch
  obtain ⟨tag, rfl, rfl⟩ := exists_labelled_of_scanTag readTag
  obtain ⟨build, -, rfl⟩ := exists_labelled_of_scanTag readBuild
  obtain ⟨marked, front⟩ := exists_eq_dropV (s.dropWhile Text.isBlank)
  have first : s₁ = '.' :: (minor ++ s₃) := Text.eq_append_of_dropStart? dot
  have second : s₃ = '.' :: (patch ++ _) := Text.eq_append_of_dropStart? dot'
  split at h
  next blankAfter =>
    cases h
    refine ⟨{
        before := s.takeWhile Text.isBlank, marked, tag, build, after
        blankBefore := fun c => List.mem_takeWhile_imp
        blankAfter := List.all_eq_true.1 blankAfter }, ?_, rfl, majorRun, minorRun, patchRun⟩
    calc
      s = s.takeWhile Text.isBlank ++ s.dropWhile Text.isBlank :=
        List.takeWhile_append_dropWhile.symm
      _ = s.takeWhile Text.isBlank ++ ((if marked then ['v'] else []) ++ (major ++ s₁)) := by
        rw [← whole, ← front]
      _ = _ := by
        rw [first, second]
        rfl
  next => cases h

/-! ## §4. Texts that are read -/

theorem parse_iff_scan {text : String} {v : Version} :
    parse text = .ok v ↔ ∃ parts, scan text.toList = some parts ∧
      Text.readNatural Text.wordLimit parts.major = .ok v.major ∧
      Text.readNatural Text.wordLimit parts.minor = .ok v.minor ∧
      Text.readNatural Text.wordLimit parts.patch = .ok v.patch ∧
      parts.tag.map String.ofList = v.tag := by
  unfold parse
  cases scan text.toList with
  | none => simp
  | some parts =>
    simp only [bind_ok_iff, mapError_ok_iff, Option.some.injEq, exists_eq_left']
    constructor
    · rintro ⟨major, readMajor, minor, readMinor, patch, readPatch, same⟩
      rw [pure_ok_iff.1 same]
      exact ⟨readMajor, readMinor, readPatch, rfl⟩
    · rintro ⟨readMajor, readMinor, readPatch, tag⟩
      refine ⟨_, readMajor, _, readMinor, _, readPatch, ?_⟩
      rw [tag]
      rfl

namespace Numeral

theorem isRun (n : Numeral) : IsRun Text.isAnyDigit n.digits where
  nonempty := n.nonempty
  all c h := Text.isAnyDigit_of_isDigit (n.ascii c h)

theorem unsigned {digits : List Char} (h : IsRun Text.isAnyDigit digits) :
    digits.head? ≠ some '+' :=
  fun plus => absurd (h.all '+' (List.mem_of_head? plus)) (by decide)

theorem read_digits (n : Numeral) : Text.readNatural Text.wordLimit n.digits = .ok n.value :=
  (Text.readNatural_eq_ok_iff n.nonempty (unsigned n.isRun) (by decide)).2 ⟨n.ascii, rfl, n.small⟩

/-- Of digits of any script only those of ASCII are read, and they must not be too many. -/
theorem exists_of_read {digits : List Char} {value : Nat} (run : IsRun Text.isAnyDigit digits)
    (h : Text.readNatural Text.wordLimit digits = .ok value) :
    ∃ n : Numeral, n.digits = digits ∧ n.value = value := by
  obtain ⟨ascii, rfl, small⟩ :=
    (Text.readNatural_eq_ok_iff run.nonempty (unsigned run) (by decide)).1 h
  exact ⟨⟨digits, run.nonempty, ascii, small⟩, rfl, rfl⟩

end Numeral

/-- **A text is read as a version exactly when it spells the version.** -/
theorem parse_eq_ok_iff {text : String} {v : Version} :
    parse text = .ok v ↔ ∃ w : Spelling, w.text = text ∧ w.version = v := by
  rw [parse_iff_scan]
  constructor
  · rintro ⟨parts, scanned, readMajor, readMinor, readPatch, sameTag⟩
    obtain ⟨f, whole, tag, majorRun, minorRun, patchRun⟩ := exists_frame_of_scan scanned
    obtain ⟨major, majorDigits, majorValue⟩ := Numeral.exists_of_read majorRun readMajor
    obtain ⟨minor, minorDigits, minorValue⟩ := Numeral.exists_of_read minorRun readMinor
    obtain ⟨patch, patchDigits, patchValue⟩ := Numeral.exists_of_read patchRun readPatch
    refine ⟨{ f with major, minor, patch }, ?_, ?_⟩
    · rw [Spelling.text, majorDigits, minorDigits, patchDigits]
      exact (congrArg String.ofList whole.symm).trans String.ofList_toList
    · rw [tag, Option.map_map] at sameTag
      unfold Spelling.version
      rw [majorValue, minorValue, patchValue]
      exact congrArg (Version.mk v.major v.minor v.patch) sameTag
  · rintro ⟨w, rfl, rfl⟩
    have scanned := scan_around w.toFrame w.major.isRun w.minor.isRun w.patch.isRun
    rw [← String.toList_ofList (l := w.around _ _ _)] at scanned
    exact ⟨_, scanned, w.major.read_digits, w.minor.read_digits, w.patch.read_digits,
      Option.map_map ..⟩

/-- The shortest spelling of the same version. -/
def Spelling.plain (w : Spelling) : Spelling where
  before := []
  marked := false
  major := .ofNat w.major.value w.major.value_lt
  minor := .ofNat w.minor.value w.minor.value_lt
  patch := .ofNat w.patch.value w.patch.value_lt
  tag := w.tag
  build := none
  after := []
  blankBefore := by simp
  blankAfter := by simp

theorem Numeral.value_ofNat {n : Nat} (small : n < Text.wordLimit) :
    (Numeral.ofNat n small).value = n :=
  Nat.ofDigitChars_ten_toDigits

theorem Spelling.version_plain (w : Spelling) : w.plain.version = w.version := by
  unfold version plain
  simp only [Numeral.value_ofNat]

/-- A version is written in its shortest spelling. -/
theorem Spelling.text_plain (w : Spelling) : w.plain.text = w.version.text := by
  rw [← String.toList_inj]
  unfold Spelling.text Version.text
  simp only [String.toList_append, Nat.toList_repr, String.toList_ofList]
  cases h : w.tag with
  | none => simp [Frame.around, Frame.behind, plain, h, version, Numeral.ofNat, labelled]
  | some label => simp [Frame.around, Frame.behind, plain, h, version, Numeral.ofNat, labelled]

/-- **The accepted texts are the spellings of versions.**  Each is read as the version that it
    spells, and a version that was read is read again from its own text. -/
theorem version_texts_exact (text : String) :
    ((∃ v, parse text = .ok v) ↔ ∃ w : Spelling, w.text = text) ∧
      ∀ v, parse text = .ok v →
        (∃ w : Spelling, w.text = text ∧ w.version = v) ∧ parse v.text = .ok v := by
  constructor
  · constructor
    · rintro ⟨v, read⟩
      obtain ⟨w, spelled, _⟩ := parse_eq_ok_iff.1 read
      exact ⟨w, spelled⟩
    · rintro ⟨w, spelled⟩
      exact ⟨w.version, parse_eq_ok_iff.2 ⟨w, spelled, rfl⟩⟩
  · intro v read
    obtain ⟨w, spelled, rfl⟩ := parse_eq_ok_iff.1 read
    exact ⟨⟨w, spelled, rfl⟩, parse_eq_ok_iff.2 ⟨w.plain, w.text_plain, w.version_plain⟩⟩

/-- A no-break space, a `v`, a zero in front, hyphens in the tag, build data and a line break. -/
theorem decorated_version_read_back :
    parse "\u00a0v05.0.12-rc--1.x+build.7\n" = .ok ⟨5, 0, 12, some "rc--1.x"⟩ ∧
      parse "5.0.12-rc--1.x" = .ok ⟨5, 0, 12, some "rc--1.x"⟩ := by
  have read : parse "\u00a0v05.0.12-rc--1.x+build.7\n" = .ok ⟨5, 0, 12, some "rc--1.x"⟩ := by
    decide
  exact ⟨read, ((version_texts_exact _).2 _ read).2⟩

end Tool.Version

end DelegateSchema
