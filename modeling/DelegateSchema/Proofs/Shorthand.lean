/-
  DelegateSchema.Proofs.Shorthand — a field type is read back from its text.

  The shorthand of a type is a name with marks behind it: brackets for a list, and after them a
  question mark for an optional value.  Marks are taken off the end once each and in this order, so
  what is left may hold further marks; they belong to the name then, and are written with it again.
  A type that only the database knows stands in quotes, of which any number is taken off both ends.

  Main results:
    * `parse_of_splits` — the shorthand is read mark by mark,
    * `parse_eq_error_iff` — the four texts that are refused,
    * `shorthand_read_back` — what is read is read again from the text of the type.
-/
import DelegateSchema.Compile.Field
import DelegateSchema.Proofs.Identifiers
import DelegateSchema.Target.Text
import Mathlib.Data.List.DropRight

namespace DelegateSchema

/-! ## §1. Both ends of a text -/

namespace Text

/-- Neither the first nor the last character satisfies `p`. -/
def Bare (p : Char → Bool) (s : List Char) : Prop :=
  (∀ c ∈ s.head?, ¬ p c) ∧ ∀ c ∈ s.getLast?, ¬ p c

variable {p : Char → Bool} {s rest start ending : List Char}

theorem dropWhile_of_head (h : ∀ c ∈ s.head?, ¬ p c) : s.dropWhile p = s := by
  cases s with
  | nil => rfl
  | cons c s => exact List.dropWhile_cons_of_neg (h c rfl)

theorem dropEndWhile_of_last (h : ∀ c ∈ s.getLast?, ¬ p c) : dropEndWhile p s = s :=
  List.rdropWhile_eq_self_iff.2 fun nonempty => h _ (List.getLast?_eq_some_getLast nonempty)

theorem trimWhile_of_bare (h : Bare p s) : trimWhile p s = s := by
  unfold trimWhile
  rw [dropWhile_of_head h.1, dropEndWhile_of_last h.2]

theorem bare_trimWhile (p : Char → Bool) (s : List Char) : Bare p (trimWhile p s) := by
  constructor
  · intro c first
    -- what is left begins where dropping from the start has stopped
    obtain ⟨dropped, whole⟩ := List.rdropWhile_prefix p (s.dropWhile p)
    have stopped : (s.dropWhile p).head? = some c := by
      rw [← whole, List.head?_append, show (List.rdropWhile p _).head? = some c from first]
      rfl
    have not_dropped := List.head?_dropWhile_not p s
    rw [stopped] at not_dropped
    exact Bool.eq_false_iff.1 not_dropped
  · intro c last
    have nonempty : trimWhile p s ≠ [] := by
      intro empty
      rw [empty] at last
      cases last
    rw [List.getLast?_eq_some_getLast nonempty] at last
    cases last
    exact List.rdropWhile_last_not p (s.dropWhile p) nonempty

/-- One character around a text is dropped with nothing else. -/
theorem trimWhile_wrapped {c : Char} (drops : p c) (h : Bare p s) (nonempty : s ≠ []) :
    trimWhile p (c :: s ++ [c]) = s := by
  have first : (s ++ [c]).dropWhile p = s ++ [c] := by
    apply dropWhile_of_head
    rw [List.head?_append_of_ne_nil _ nonempty]
    exact h.1
  unfold trimWhile
  rw [List.cons_append, List.dropWhile_cons_of_pos drops, first]
  exact (List.rdropWhile_concat_pos p s c drops).trans (dropEndWhile_of_last h.2)

theorem dropStart?_append (start rest : List Char) :
    dropStart? start (start ++ rest) = some rest := by
  induction start with
  | nil => rfl
  | cons c start ih => rw [List.cons_append, dropStart?, if_pos rfl, ih]

theorem eq_append_of_dropStart? (h : dropStart? start s = some rest) : s = start ++ rest := by
  fun_induction dropStart? start s with
  | case1 => exact Option.some.inj h
  | case2 => cases h
  | case3 c start s ih => rw [ih h, List.cons_append]
  | case4 => cases h

theorem dropEnding?_eq_some_iff : dropEnding? ending s = some rest ↔ s = rest ++ ending := by
  unfold dropEnding?
  constructor
  · intro h
    obtain ⟨turned, dropped, rfl⟩ := Option.map_eq_some_iff.1 h
    rw [← List.reverse_inj, eq_append_of_dropStart? dropped]
    simp
  · rintro rfl
    rw [List.reverse_append, dropStart?_append]
    simp

end Text

/-! ## §2. Names and marks -/

namespace FieldType

/-- A name with the marks of a list and of an optional value behind it. -/
def marked (name : List Char) (array optional : Bool) : List Char :=
  name ++ (if array then ['[', ']'] else []) ++ (if optional then ['?'] else [])

/-- The text `s` is `name` with its marks; a mark that is not set does not stand at its place. -/
structure Splits (s name : List Char) (array optional : Bool) : Prop where
  written : s = marked name array optional
  noMark : optional = false → ¬ ['?'] <:+ s
  noBrackets : array = false → ¬ ['[', ']'] <:+ name

variable {suffix s name : List Char} {array optional : Bool} {text : String}

theorem takeSuffix_append (suffix s : List Char) : takeSuffix suffix (s ++ suffix) = (true, s) := by
  unfold takeSuffix
  rw [Text.dropEnding?_eq_some_iff.2 rfl]

theorem takeSuffix_of_not (h : ¬ suffix <:+ s) : takeSuffix suffix s = (false, s) := by
  unfold takeSuffix
  cases dropped : Text.dropEnding? suffix s with
  | none => rfl
  | some rest => exact absurd ⟨rest, (Text.dropEnding?_eq_some_iff.1 dropped).symm⟩ h

theorem Splits.takeSuffix_mark (h : Splits s name array optional) :
    takeSuffix ['?'] s = (optional, marked name array false) := by
  cases optional with
  | true =>
    rw [h.written, ← takeSuffix_append ['?'] (marked name array false)]
    simp [marked]
  | false => rw [takeSuffix_of_not (h.noMark rfl), h.written]

theorem Splits.takeSuffix_brackets (h : Splits s name array optional) :
    takeSuffix ['[', ']'] (marked name array false) = (array, name) := by
  cases array with
  | true =>
    rw [← takeSuffix_append ['[', ']'] name]
    simp [marked]
  | false =>
    rw [← takeSuffix_of_not (h.noBrackets rfl)]
    simp [marked]

/-- Every text is a name with marks; the name may be empty. -/
theorem exists_splits (s : List Char) : ∃ name array optional, Splits s name array optional := by
  obtain ⟨front, optional, written, noMark⟩ : ∃ front optional,
      s = front ++ (if optional then ['?'] else []) ∧ (optional = false → ¬ ['?'] <:+ s) := by
    by_cases ends : ['?'] <:+ s
    · obtain ⟨front, whole⟩ := ends
      exact ⟨front, true, whole.symm, by simp⟩
    · exact ⟨s, false, by simp, fun _ => ends⟩
  by_cases ends : ['[', ']'] <:+ front
  · obtain ⟨name, whole⟩ := ends
    exact ⟨name, true, optional, by rw [written, ← whole]; rfl, noMark, by simp⟩
  · exact ⟨front, false, optional, by rw [written]; simp [marked], noMark, fun _ => ends⟩

/-- The type that a name without its marks stands for. -/
def ofName (name : List Char) (array optional : Bool) : FieldType :=
  match unsupported? name with
  | some inner => { unsupported := some (String.ofList inner), array, optional }
  | none =>
    if scalarTypes.contains (String.ofList name) then
      { scalar := some (String.ofList name), array, optional }
    else { reference := some (String.ofList name), array, optional }

/-- **The shorthand is read mark by mark**, and refused when no name is left. -/
theorem parse_of_splits (h : Splits (Text.trim text.toList) name array optional) :
    parse text =
      if name.isEmpty then .error (.empty text) else .ok (ofName name array optional) := by
  unfold parse ofName
  rw [h.takeSuffix_mark]
  simp only [h.takeSuffix_brackets]
  split
  next => rfl
  next =>
    cases unsupported? name with
    | some inner => rfl
    | none => exact (apply_ite Except.ok _ _ _).symm

/-! ## §3. Texts that are refused -/

/-- The texts of marks without a name. -/
def nameless : List String :=
  ["", "?", "[]", "[]?"]

theorem mem_nameless_iff :
    String.ofList s ∈ nameless ↔ ∃ array optional, s = marked [] array optional := by
  constructor
  · intro h
    have given : s = (String.ofList s).toList := String.toList_ofList.symm
    simp only [nameless, List.mem_cons, List.not_mem_nil, or_false] at h
    rcases h with h | h | h | h <;> rw [h] at given
    · exact ⟨false, false, given⟩
    · exact ⟨false, true, given⟩
    · exact ⟨true, false, given⟩
    · exact ⟨true, true, given⟩
  · rintro ⟨array, optional, rfl⟩
    cases array <;> cases optional <;> decide

theorem splits_nil (array optional : Bool) :
    Splits (marked [] array optional) [] array optional where
  written := rfl
  noMark := by cases array <;> cases optional <;> decide
  noBrackets _ := by decide

/-- **A shorthand is refused exactly when only marks are left of it.** -/
theorem parse_eq_error_iff {fault : FieldTypeError} :
    parse text = .error fault ↔
      fault = .empty text ∧ String.ofList (Text.trim text.toList) ∈ nameless := by
  constructor
  · intro h
    obtain ⟨name, array, optional, splits⟩ := exists_splits (Text.trim text.toList)
    rw [parse_of_splits splits] at h
    split at h
    next empty =>
      cases h
      rw [List.isEmpty_iff.1 empty] at splits
      exact ⟨rfl, mem_nameless_iff.2 ⟨array, optional, splits.written⟩⟩
    next => cases h
  · rintro ⟨rfl, only_marks⟩
    obtain ⟨array, optional, written⟩ := mem_nameless_iff.1 only_marks
    exact parse_of_splits (written ▸ splits_nil array optional)

/-! ## §4. Texts that are read back -/

theorem parse_eq_ok_iff (h : Splits (Text.trim text.toList) name array optional) {t : FieldType} :
    parse text = .ok t ↔ name ≠ [] ∧ ofName name array optional = t := by
  rw [parse_of_splits h]
  cases name with
  | nil => simp
  | cons c name => simp

/-- A text that is trimmed already is read as it stands. -/
theorem parse_ofList (bare : Text.Bare Text.isBlank s) (h : Splits s name array optional)
    (nonempty : name ≠ []) : parse (String.ofList s) = .ok (ofName name array optional) := by
  have trimmed : Text.trim (String.ofList s).toList = s := by
    rw [String.toList_ofList]
    exact Text.trimWhile_of_bare bare
  exact (parse_eq_ok_iff (trimmed.symm ▸ h)).2 ⟨nonempty, rfl⟩

theorem text_targetType (name : String) (array optional : Bool) :
    (Target.FieldType.mk name array optional).text =
      String.ofList (marked name.toList array optional) := by
  rw [← String.toList_inj]
  cases array <;> cases optional <;> simp [Target.FieldType.text, marked]

/-- The name under which a type that only the database knows is written. -/
def unsupportedName (inner : List Char) : List Char :=
  "Unsupported(".toList ++ (('"' :: inner ++ ['"']) ++ [')'])

theorem bare_of_unsupported? {inner : List Char} (h : unsupported? name = some inner) :
    Text.Bare (· == '"') inner := by
  unfold unsupported? at h
  obtain ⟨_, _, h⟩ := Option.bind_eq_some_iff.1 h
  obtain ⟨_, _, h⟩ := Option.bind_eq_some_iff.1 h
  cases h
  exact Text.bare_trimWhile _ _

theorem toList_unsupported (text : String) :
    ("Unsupported(\"" ++ text ++ "\")").toList = unsupportedName text.toList := by
  have opening : "Unsupported(\"".toList = "Unsupported(".toList ++ ['"'] := by decide
  have closing : "\")".toList = ['"', ')'] := by decide
  unfold unsupportedName
  rw [String.toList_append, String.toList_append, opening, closing]
  simp only [List.append_assoc, List.cons_append, List.nil_append]

theorem unsupported?_call (inner : List Char) :
    unsupported? ("Unsupported(".toList ++ (inner ++ [')'])) =
      some (Text.trimWhile (· == '"') (Text.trim inner)) := by
  unfold unsupported?
  rw [Text.dropStart?_append, Option.bind_eq_bind, Option.bind_some,
    Text.dropEnding?_eq_some_iff.2 rfl]
  rfl

/-- Between its own quotes the text of an unsupported type is found again. -/
theorem unsupported?_unsupportedName {inner : List Char} (bare : Text.Bare (· == '"') inner)
    (nonempty : inner ≠ []) : unsupported? (unsupportedName inner) = some inner := by
  have trimmed : Text.trim ('"' :: inner ++ ['"']) = '"' :: inner ++ ['"'] := by
    refine Text.trimWhile_of_bare ⟨?_, ?_⟩
    · rintro c ⟨⟩
      decide
    · intro c last
      rw [List.getLast?_concat] at last
      cases last
      decide
  unfold unsupportedName
  rw [unsupported?_call, trimmed, Text.trimWhile_wrapped rfl bare nonempty]

/-- A name whose last character belongs to no mark keeps its marks apart. -/
theorem splits_marked {c : Char} (last : name.getLast? = some c) (noMark : c ≠ '?')
    (noBracket : c ≠ ']') : Splits (marked name array optional) name array optional where
  written := rfl
  noMark unset := by
    rintro ⟨front, whole⟩
    have ends := congrArg List.getLast? whole
    rw [List.getLast?_concat, unset] at ends
    -- without the question mark the text ends with a bracket, or as the name does
    cases array with
    | true => simp [marked] at ends
    | false =>
      simp only [marked, Bool.false_eq_true, if_false, List.append_nil, last,
        Option.some.injEq] at ends
      exact noMark ends.symm
  noBrackets _ := by
    rintro ⟨front, rfl⟩
    rw [List.getLast?_append] at last
    exact noBracket (Option.some.inj last).symm

theorem bare_marked (bare : Text.Bare Text.isBlank name) (nonempty : name ≠ []) :
    Text.Bare Text.isBlank (marked name array optional) := by
  constructor
  · unfold marked
    rw [List.append_assoc, List.head?_append_of_ne_nil _ nonempty]
    exact bare.1
  · intro c last
    cases optional with
    | true =>
      have mark : c = '?' := by simpa [marked, eq_comm] using last
      rw [mark]
      decide
    | false =>
      cases array with
      | true =>
        have bracket : c = ']' := by simpa [marked, eq_comm] using last
        rw [bracket]
        decide
      | false => exact bare.2 c (by simpa [marked] using last)

theorem getLast?_unsupportedName (inner : List Char) :
    (unsupportedName inner).getLast? = some ')' := by
  unfold unsupportedName
  rw [← List.append_assoc, List.getLast?_concat]

theorem bare_unsupportedName (inner : List Char) :
    Text.Bare Text.isBlank (unsupportedName inner) := by
  constructor
  · rintro c ⟨⟩
    decide
  · rw [getLast?_unsupportedName]
    rintro c ⟨⟩
    decide

theorem unsupportedName_ne_nil (inner : List Char) : unsupportedName inner ≠ [] := by
  intro empty
  have last := getLast?_unsupportedName inner
  rw [empty] at last
  cases last

theorem ofName_of_unsupported? {inner : List Char} (h : unsupported? name = some inner) :
    ofName name array optional =
      { unsupported := some (String.ofList inner), array, optional } := by
  unfold ofName
  rw [h]

/-- A type that only the database knows is written between one pair of quotes, and read from
    there. -/
theorem parse_unsupported {inner : List Char} (bare : Text.Bare (· == '"') inner)
    (nonempty : inner ≠ []) :
    parse (Target.FieldType.mk ("Unsupported(\"" ++ String.ofList inner ++ "\")") array
      optional).text = .ok { unsupported := some (String.ofList inner), array, optional } := by
  rw [text_targetType, toList_unsupported, String.toList_ofList,
    ← ofName_of_unsupported? (unsupported?_unsupportedName bare nonempty)]
  exact parse_ofList (bare_marked (bare_unsupportedName inner) (unsupportedName_ne_nil inner))
    (splits_marked (getLast?_unsupportedName inner) (by decide) (by decide))
    (unsupportedName_ne_nil inner)

/-- How many of the three names a type has. -/
def namesGiven (t : FieldType) : Nat :=
  [t.scalar, t.reference, t.unsupported].countP Option.isSome

/-- **The shorthand of a type and its text are inverse.**  A shorthand is refused exactly when
    nothing is left of it besides the marks.  A type that is read has one name; unless this is an
    empty text of an unsupported type, the type has a name in the target language, and from this
    name and the marks behind it the same type is read again. -/
theorem shorthand_read_back (text : String) :
    ((∃ fault, parse text = .error fault) ↔
        String.ofList (Text.trim text.toList) ∈ ["", "?", "[]", "[]?"]) ∧
      ∀ t, parse text = .ok t → t.unsupported ≠ some "" →
        t.namesGiven = 1 ∧ ∃ name, t.targetName? = some name ∧
          parse (Target.FieldType.mk name t.array t.optional).text = .ok t := by
  constructor
  · constructor
    · rintro ⟨fault, refused⟩
      exact (parse_eq_error_iff.1 refused).2
    · intro only_marks
      exact ⟨.empty text, parse_eq_error_iff.2 ⟨rfl, only_marks⟩⟩
  intro t accepted given
  obtain ⟨name, array, optional, splits⟩ := exists_splits (Text.trim text.toList)
  obtain ⟨nonempty, rfl⟩ := (parse_eq_ok_iff splits).1 accepted
  cases isUnsupported : unsupported? name with
  | some inner =>
    -- what was found has no quotes at its ends, and gets one pair again
    rw [ofName_of_unsupported? isUnsupported] at given ⊢
    have inner_nonempty : inner ≠ [] := by
      rintro rfl
      exact given rfl
    exact ⟨rfl, _, by simp [targetName?, inner_nonempty],
      parse_unsupported (bare_of_unsupported? isUnsupported) inner_nonempty⟩
  | none =>
    -- the name of a scalar, a model or an enum is written as it was read
    have again : parse (Target.FieldType.mk (String.ofList name) array optional).text =
        .ok (ofName name array optional) := by
      rw [text_targetType, String.toList_ofList, ← splits.written]
      exact parse_ofList (Text.bare_trimWhile _ _) splits nonempty
    unfold ofName at again ⊢
    rw [isUnsupported] at again ⊢
    dsimp only at again ⊢
    split
    next isScalar => exact ⟨rfl, _, rfl, by rw [again, if_pos isScalar]⟩
    next isReference => exact ⟨rfl, _, rfl, by rw [again, if_neg isReference]⟩

/-- Blanks and quotes around the text of an unsupported type are lost, quotes in it are not, and
    the type is read again from `Unsupported("a" b")[]?`. -/
theorem unsupported_read_back :
    parse " Unsupported( \"\"a\" b\")[]?" =
        .ok { unsupported := some "a\" b", array := true, optional := true } ∧
      ∃ name, FieldType.targetName?
          { unsupported := some "a\" b", array := true, optional := true } = some name ∧
        parse (Target.FieldType.mk name true true).text =
          .ok { unsupported := some "a\" b", array := true, optional := true } := by
  have read : parse " Unsupported( \"\"a\" b\")[]?" =
      .ok { unsupported := some "a\" b", array := true, optional := true } :=
    eq_ok_of_toOption (by decide +kernel)
  exact ⟨read, ((shorthand_read_back _).2 _ read (by decide)).2⟩

end FieldType

end DelegateSchema
