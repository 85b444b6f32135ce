/-
  DelegateSchema.Proofs.VersionOrder — versions are totally ordered.

  The order of versions is built in layers: texts by their characters, identifiers by class, value
  and text, tags identifier by identifier, versions by their components and then by their tags.
  Each layer is a lexicographic order of simpler ones and lawful because they are.  What has to be
  shown is that no layer forgets anything: a tag is determined by its identifiers, and identifiers
  of the same class and value (`1`, `01` and `+1`) are told apart by their text.

  Main results:
    * `compareIdentifier_eq` — the mixed rule for identifiers is one lexicographic order,
    * `compareTag_eq` — so is the order of tags, where the absent tag comes last,
    * `versions_totally_ordered` — the order of versions is total, and equal means the same.
-/
import DelegateSchema.Tool.Version
import Mathlib.Order.Compare

namespace DelegateSchema

open Std (TransCmp LawfulEqCmp OrientedCmp ReflCmp)

namespace Tool.Version

/-! ## §1. Texts and identifiers -/

theorem compareText_eq : compareText = List.compareLex (compareOn Char.toNat) := by
  funext a b
  induction a generalizing b with
  | nil => cases b <;> rfl
  | cons c a ih =>
    cases b with
    | nil => rfl
    | cons d b =>
      rw [compareText, List.compareLex_cons_cons, ih]
      rfl

instance : LawfulEqCmp (compareOn Char.toNat) where
  compare_self := Nat.compare_eq_eq.2 rfl
  eq_of_compare h := Char.toNat_inj.1 (Nat.compare_eq_eq.1 h)

instance : TransCmp compareText :=
  compareText_eq ▸ inferInstance

instance : LawfulEqCmp compareText :=
  compareText_eq ▸ inferInstance

/-- The value of an identifier that is a number of 64 bits. -/
def number? (identifier : List Char) : Option Nat :=
  (Text.readNatural Text.wordLimit identifier).toOption

/-- **The mixed rule for identifiers is one lexicographic order**: numbers before the rest, then by
    value, then by text.  Identifiers that are no numbers count as equal in the second place. -/
theorem compareIdentifier_eq :
    compareIdentifier =
      compareLex (compareOn fun a => (number? a).isNone)
        (compareLex (compareOn fun a => (number? a).getD 0) compareText) := by
  funext a b
  simp only [compareIdentifier, compareLex, compareOn, number?]
  cases Text.readNatural Text.wordLimit a <;> cases Text.readNatural Text.wordLimit b <;> rfl

instance : TransCmp compareIdentifier :=
  compareIdentifier_eq ▸ inferInstance

-- the last of the three orders alone tells any two identifiers apart
instance : LawfulEqCmp compareIdentifier where
  compare_self := by
    rw [compareIdentifier_eq]
    exact ReflCmp.compare_self
  eq_of_compare h := by
    rw [compareIdentifier_eq] at h
    have sameText := (Ordering.then_eq_eq.1 (Ordering.then_eq_eq.1 h).2).2
    exact LawfulEqCmp.eq_of_compare sameText

theorem compareIdentifiers_eq : compareIdentifiers = List.compareLex compareIdentifier := by
  funext as bs
  induction as generalizing bs with
  | nil => cases bs <;> rfl
  | cons a as ih =>
    cases bs with
    | nil => rfl
    | cons b bs => rw [compareIdentifiers, List.compareLex_cons_cons, ih]

instance : TransCmp compareIdentifiers :=
  compareIdentifiers_eq ▸ inferInstance

instance : LawfulEqCmp compareIdentifiers :=
  compareIdentifiers_eq ▸ inferInstance

/-! ## §2. Tags and versions -/

/-- Values are ordered lawfully by anything about them that is. -/
theorem transCmp_view {α β : Type} (cmp : β → β → Ordering) [TransCmp cmp] (view : α → β) :
    TransCmp fun a b => cmp (view a) (view b) where
  eq_swap {_ _} := @OrientedCmp.eq_swap _ cmp _ _ _
  isLE_trans {_ _ _} := @TransCmp.isLE_trans _ cmp _ _ _ _

/-- The identifiers of a tag. -/
def identifiers (tag : Option String) : List (List Char) :=
  tag.elim [] fun tag => tag.toList.splitOn '.'

/-- **An absent tag comes last**, and other tags are ordered by their identifiers. -/
theorem compareTag_eq :
    compareTag =
      compareLex (compareOn Option.isNone)
        fun a b => compareIdentifiers (identifiers a) (identifiers b) := by
  funext a b
  cases a <;> cases b <;> rfl

instance : TransCmp compareTag :=
  have := transCmp_view compareIdentifiers identifiers
  compareTag_eq ▸ inferInstance

instance : LawfulEqCmp compareTag where
  compare_self {tag} := by
    cases tag with
    | none => rfl
    | some tag => exact @ReflCmp.compare_self _ compareIdentifiers _ _
  eq_of_compare {a b} h := by
    cases a with
    | none =>
      cases b with
      | none => rfl
      | some b => cases h
    | some a =>
      cases b with
      | none => cases h
      | some b =>
        have pieces := @LawfulEqCmp.eq_of_compare _ compareIdentifiers _ _ _ h
        have sameText := (List.intercalate_splitOn '.').symm.trans
          ((congrArg _ pieces).trans (List.intercalate_splitOn '.'))
        rw [String.toList_inj.1 sameText]

theorem compare_eq :
    compare =
      compareLex (compareOn major) (compareLex (compareOn minor) (compareLex (compareOn patch)
        fun a b => compareTag a.tag b.tag)) :=
  rfl

instance : TransCmp compare :=
  have := transCmp_view compareTag tag
  compare_eq ▸ inferInstance

instance : LawfulEqCmp compare where
  compare_self := by
    rw [compare_eq]
    simp [compareLex, compareOn]
  eq_of_compare {a b} h := by
    obtain ⟨major, h⟩ := Ordering.then_eq_eq.1 h
    obtain ⟨minor, h⟩ := Ordering.then_eq_eq.1 h
    obtain ⟨patch, tag⟩ := Ordering.then_eq_eq.1 h
    cases a
    cases b
    rw [Version.mk.injEq]
    exact ⟨Nat.compare_eq_eq.1 major, Nat.compare_eq_eq.1 minor, Nat.compare_eq_eq.1 patch,
      LawfulEqCmp.eq_of_compare tag⟩

/-- **The order of versions is total**: only a version itself is equal to it, swapping two versions
    reverses the answer, and answers carry over from one pair to the next.  A pre-release comes
    before its release. -/
theorem versions_totally_ordered (a b c : Version) :
    (a.compare b = .eq ↔ a = b) ∧
      b.compare a = (a.compare b).swap ∧
      ((a.compare b).isLE → (b.compare c).isLE → (a.compare c).isLE) ∧
      (∀ o, a.compare b = o → b.compare c = o → a.compare c = o) ∧
      ∀ tag, { a with tag := some tag }.compare { a with tag := none } = .lt := by
  refine ⟨LawfulEqCmp.compare_eq_iff_eq, OrientedCmp.eq_swap, TransCmp.isLE_trans, ?_, ?_⟩
  · intro o first second
    cases o with
    | lt => exact TransCmp.lt_trans first second
    | eq =>
      rw [LawfulEqCmp.eq_of_compare first]
      exact second
    | gt => exact TransCmp.gt_trans first second
  · intro tag
    simp [compare, compareTag]

/-- A leading zero, and a number that 64 bits cannot hold, which counts as a word. -/
theorem preReleases_in_order :
    { oldest with tag := some "dev.01" }.compare { oldest with tag := some "dev.1" } = .lt ∧
      { oldest with tag := some "dev.1" }.compare
        { oldest with tag := some "dev.18446744073709551616" } = .lt ∧
      { oldest with tag := some "dev.01" }.compare
        { oldest with tag := some "dev.18446744073709551616" } = .lt := by
  have zero : { oldest with tag := some "dev.01" }.compare
      { oldest with tag := some "dev.1" } = .lt := by decide
  have large : { oldest with tag := some "dev.1" }.compare
      { oldest with tag := some "dev.18446744073709551616" } = .lt := by decide
  exact ⟨zero, large, (versions_totally_ordered _ _ _).2.2.2.1 .lt zero large⟩

end Tool.Version

end DelegateSchema
