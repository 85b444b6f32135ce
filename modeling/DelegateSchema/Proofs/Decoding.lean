/-
  DelegateSchema.Proofs.Decoding — documents as they are read.

  A usage has slots for what it stands for, which a document that was read leaves empty: nothing
  in a text can fill them.  The readers put one value after the other into a draft, so what is
  said of a whole record is an invariant of its slots (`toRecord_inv`, `Filled`).

  Main result: `Document.Read.unresolved`.
-/
import DelegateSchema.Document.Source
import DelegateSchema.Proofs.Resolution

namespace DelegateSchema

/-! ## §1. Lists and records -/

namespace Json

variable {α β σ : Type}

theorem refuse_ne_ok (v : Json) (expected : String) (x : α) : v.refuse expected ≠ .ok x := by
  intro h
  unfold refuse at h
  split at h
  next => cases h
  next => cases h
  next => cases h

theorem exists_of_mapMem {xs : List α} {read : (x : α) → x ∈ xs → Decoded β} {ys : List β}
    (h : mapMem xs read = .ok ys) {y : β} (hy : y ∈ ys) : ∃ x hx, read x hx = .ok y := by
  induction xs generalizing ys with
  | nil =>
    cases h
    cases hy
  | cons x xs ih =>
    unfold mapMem at h
    obtain ⟨first, ok, h⟩ := bind_ok_iff.1 h
    obtain ⟨rest, later, h⟩ := bind_ok_iff.1 h
    cases pure_ok_iff.1 h
    rcases List.mem_cons.1 hy with rfl | hy
    · exact ⟨x, _, ok⟩
    · obtain ⟨x', hx', ok'⟩ := ih later hy
      exact ⟨x', _, ok'⟩

theorem exists_of_toList {v : Json} {read : (x : Json) → sizeOf x < sizeOf v → Decoded α}
    {ys : List α} (h : v.toList read = .ok ys) {y : α} (hy : y ∈ ys) :
    ∃ x hx, read x hx = .ok y := by
  unfold toList at h
  split at h
  next items read =>
    obtain ⟨x, hx, ok⟩ := exists_of_mapMem h hy
    exact ⟨x, _, ok⟩
  next => exact absurd h (refuse_ne_ok _ _ _)

theorem foldMem_inv {P : σ → Prop} {xs : List α} {put : σ → (x : α) → x ∈ xs → Decoded σ}
    {s s' : σ} (h : foldMem xs s put = .ok s') (start : P s)
    (step : ∀ s x hx s', P s → put s x hx = .ok s' → P s') : P s' := by
  induction xs generalizing s with
  | nil =>
    cases h
    exact start
  | cons x xs ih =>
    unfold foldMem at h
    obtain ⟨c, first, rest⟩ := bind_ok_iff.1 h
    exact ih rest (step s x _ c start first) fun s x hx s' => step s x _ s'

theorem foldSlots_inv {P : σ → Prop} {slots : List String} {items : List Json}
    {put : σ → String → (x : Json) → x ∈ items → Decoded σ} {s s' : σ}
    (h : foldSlots slots items s put = .ok s') (start : P s)
    (step : ∀ s key x hx s', P s → put s key x hx = .ok s' → P s') : P s' := by
  induction items generalizing slots s with
  | nil =>
    rw [foldSlots] at h
    cases h
    exact start
  | cons x items ih =>
    cases slots with
    | nil => cases h
    | cons slot slots =>
      unfold foldSlots at h
      obtain ⟨c, first, rest⟩ := bind_ok_iff.1 h
      exact ih rest (step s slot x _ c start first) fun s key x hx s' => step s key x _ s'

/-- **What every step of a reader keeps, the record that it reads satisfies.** -/
theorem toRecord_inv {P : σ → Prop} {v : Json} {slots : List String}
    {put : σ → String → (x : Json) → sizeOf x < sizeOf v → Decoded σ} {s s' : σ}
    (h : v.toRecord slots s put = .ok s') (start : P s)
    (step : ∀ s key x hx s', P s → put s key x hx = .ok s' → P s') : P s' := by
  unfold toRecord at h
  split at h
  next entries put => exact foldMem_inv h start fun s e _ s' => step s e.1 e.2 _ s'
  next items put => exact foldSlots_inv h start fun s key x _ s' => step s key x _ s'
  next => exact absurd h (refuse_ne_ok _ _ _)

theorem toObject_inv {P : σ → Prop} {v : Json}
    {put : σ → String → (x : Json) → sizeOf x < sizeOf v → Decoded σ} {s s' : σ}
    (h : v.toObject s put = .ok s') (start : P s)
    (step : ∀ s key x hx s', P s → put s key x hx = .ok s' → P s') : P s' := by
  unfold toObject at h
  split at h
  next entries put => exact foldMem_inv h start fun s e _ s' => step s e.1 e.2 _ s'
  next => exact absurd h (refuse_ne_ok _ _ _)

theorem skip_eq_ok {v : Json} {draft draft' : σ} (h : v.skip draft = .ok draft') :
    draft' = draft := by
  unfold skip at h
  split at h
  next => exact (Except.ok.inj h).symm
  next => cases h

/-! ## §2. Slots -/

/-- A step that reads one value and puts it into a draft. -/
theorem inv_of_put {P : σ → Prop} {value : Decoded α} {put : α → σ} {s : σ}
    (h : (do return put (← value)) = .ok s) (held : ∀ x, value = .ok x → P (put x)) : P s := by
  obtain ⟨x, ok, h⟩ := bind_ok_iff.1 h
  cases pure_ok_iff.1 h
  exact held x ok

/-- All elements of the list in a slot satisfy `Q`, if there is a list in it. -/
def Filled (Q : α → Prop) (slot : Option (List α)) : Prop :=
  ∀ x ∈ slot.getD [], Q x

theorem filled_none (Q : α → Prop) : Filled Q none := by
  intro x hx
  cases hx

theorem filled_fill {Q : α → Prop} {key : String} {held slot : Option (List α)}
    {value : Decoded (List α)} (h : fill key held value = .ok slot)
    (all : ∀ xs, value = .ok xs → ∀ x ∈ xs, Q x) : Filled Q slot := by
  unfold fill at h
  split at h
  next => cases h
  next =>
    cases value with
    | error fault => cases h
    | ok xs =>
      cases h
      exact all xs rfl

end Json

namespace Yaml

variable {α σ : Type}

theorem refuse_ne_ok (v : Yaml) (expected : String) (x : α) : v.refuse expected ≠ .ok x := by
  intro h
  unfold refuse at h
  split at h
  next => cases h
  next => cases h

theorem exists_of_toList {read : Yaml → Decoded α} {v : Yaml} {ys : List α}
    (h : v.toList read = .ok ys) {y : α} (hy : y ∈ ys) : ∃ x, read x = .ok y := by
  unfold toList at h
  split at h
  next items =>
    obtain ⟨x, _, ok⟩ := forall₂_exists_left (mapM_ok_iff.1 h) hy
    exact ⟨x, ok⟩
  next =>
    cases h
    cases hy
  next => exact absurd h (refuse_ne_ok _ _ _)

theorem toRecord_inv {P : σ → Prop} {put : σ → String → Yaml → Decoded σ} {v : Yaml} {s s' : σ}
    (h : v.toRecord s put = .ok s') (start : P s)
    (step : ∀ s key x s', P s → put s key x = .ok s' → P s') : P s' := by
  unfold toRecord at h
  split at h
  next entries =>
    refine foldlM_ok_inv h start ?_
    intro entry _ s s' held ok
    obtain ⟨key, _, ok⟩ := bind_ok_iff.1 ok
    exact step s key entry.2 s' held ok
  next =>
    cases h
    exact start
  next => exact absurd h (refuse_ne_ok _ _ _)

theorem skip_eq_ok {v : Yaml} {draft draft' : σ} (h : v.skip draft = .ok draft') :
    draft' = draft := by
  unfold skip at h
  split at h
  next => exact (Except.ok.inj h).symm
  next => cases h

end Yaml

/-! ## §3. Usages -/

/-- The slots of the usage are empty: it stands for nothing yet, and no argument is bound. -/
structure Attribute.Unresolved (a : Attribute) : Prop where
  resolved : a.resolved = none
  params : ∀ arg ∈ a.args, arg.param = none

/-- No usage on the declaration or its fields is resolved. -/
def Declaration.Unresolved (decl : Declaration) : Prop :=
  ∀ a ∈ decl.usages, a.Unresolved

/-- No usage of the document is resolved. -/
def Document.Unresolved (d : Document) : Prop :=
  ∀ a ∈ d.usages, a.Unresolved

/-- The argument, not yet bound to a parameter. -/
def AttributeArg.cleared (arg : AttributeArg) : AttributeArg :=
  { arg with param := none }

/-- The usage as it was written, its slots empty. -/
def Attribute.cleared (a : Attribute) : Attribute :=
  { a with args := a.args.map AttributeArg.cleared, resolved := none }

theorem Attribute.Unresolved.cleared_eq {a : Attribute} (h : a.Unresolved) : a.cleared = a := by
  have args : a.args.map AttributeArg.cleared = a.args := by
    refine (List.map_congr_left ?_).trans (List.map_id _)
    intro arg harg
    unfold AttributeArg.cleared
    rw [← h.params arg harg]
    rfl
  unfold cleared
  rw [args, ← h.resolved]

open Json

theorem Attribute.unresolved_ofJson {v : Json} {a : Attribute} (h : Attribute.ofJson v = .ok a) :
    a.Unresolved := by
  unfold Attribute.ofJson at h
  obtain ⟨draft, _, h⟩ := bind_ok_iff.1 h
  obtain ⟨name, _, h⟩ := bind_ok_iff.1 h
  cases pure_ok_iff.1 h
  refine ⟨rfl, ?_⟩
  intro arg harg
  obtain ⟨written, _, rfl⟩ := List.mem_map.1 harg
  rfl

theorem unresolved_attributesOfJson {v : Json} {attributes : List Attribute}
    (h : attributesOfJson v = .ok attributes) : ∀ a ∈ attributes, a.Unresolved := by
  intro a ha
  obtain ⟨x, _, ok⟩ := exists_of_toList h ha
  exact Attribute.unresolved_ofJson ok

def EnumField.Draft.Unresolved (d : EnumField.Draft) : Prop :=
  Filled Attribute.Unresolved d.attributes

theorem EnumField.unresolved_ofJson {v : Json} {f : EnumField} (h : EnumField.ofJson v = .ok f) :
    ∀ a ∈ f.attributes, a.Unresolved := by
  unfold EnumField.ofJson at h
  split at h
  next name =>
    cases h
    intro a ha
    cases ha
  next =>
    obtain ⟨draft, read, h⟩ := bind_ok_iff.1 h
    obtain ⟨name, _, h⟩ := bind_ok_iff.1 h
    cases pure_ok_iff.1 h
    refine toObject_inv (P := EnumField.Draft.Unresolved) read (filled_none _) ?_
    intro d key x _ d' held put
    split_ifs at put
    · exact inv_of_put put fun _ _ => held
    · exact inv_of_put put fun _ ok => filled_fill ok fun _ => unresolved_attributesOfJson
    · exact inv_of_put put fun _ _ => held
    · rw [skip_eq_ok put]
      exact held

def Field.Draft.Unresolved (d : Field.Draft) : Prop :=
  Filled Attribute.Unresolved d.attributes

theorem Field.unresolved_ofJson {v : Json} {f : Field} (h : Field.ofJson v = .ok f) :
    ∀ a ∈ f.attributes, a.Unresolved := by
  unfold Field.ofJson at h
  obtain ⟨draft, read, h⟩ := bind_ok_iff.1 h
  obtain ⟨name, _, h⟩ := bind_ok_iff.1 h
  obtain ⟨type, _, h⟩ := bind_ok_iff.1 h
  cases pure_ok_iff.1 h
  refine toRecord_inv (P := Field.Draft.Unresolved) read (filled_none _) ?_
  intro d key x _ d' held put
  split_ifs at put
  · exact inv_of_put put fun _ _ => held
  · exact inv_of_put put fun _ _ => held
  · exact inv_of_put put fun _ ok => filled_fill ok fun _ => unresolved_attributesOfJson
  · exact inv_of_put put fun _ _ => held
  · exact inv_of_put put fun _ _ => held
  · rw [skip_eq_ok put]
    exact held

/-- The two slots of an enum or a model that hold usages. -/
structure UnresolvedSlots {φ : Type} (usagesOf : φ → List Attribute)
    (attributes : Option (List Attribute)) (fields : Option (List φ)) : Prop where
  attributes : Filled Attribute.Unresolved attributes
  fields : Filled (fun f => ∀ a ∈ usagesOf f, a.Unresolved) fields

theorem UnresolvedSlots.none {φ : Type} (usagesOf : φ → List Attribute) :
    UnresolvedSlots usagesOf none none :=
  ⟨filled_none _, filled_none _⟩

theorem UnresolvedSlots.usages {φ : Type} {usagesOf : φ → List Attribute}
    {attributes : Option (List Attribute)} {fields : Option (List φ)}
    (h : UnresolvedSlots usagesOf attributes fields) :
    ∀ a ∈ attributes.getD [] ++ (fields.getD []).flatMap usagesOf, a.Unresolved := by
  intro a ha
  rcases List.mem_append.1 ha with own | onField
  · exact h.attributes a own
  · obtain ⟨f, hf, ha⟩ := List.mem_flatMap.1 onField
    exact h.fields f hf a ha

def EnumDecl.Draft.Unresolved (d : EnumDecl.Draft) : Prop :=
  UnresolvedSlots EnumField.attributes d.attributes d.fields

theorem EnumDecl.unresolved_ofJson {v : Json} {e : EnumDecl} (h : EnumDecl.ofJson v = .ok e) :
    (Declaration.enum e).Unresolved := by
  unfold EnumDecl.ofJson at h
  obtain ⟨draft, read, h⟩ := bind_ok_iff.1 h
  obtain ⟨name, _, h⟩ := bind_ok_iff.1 h
  cases pure_ok_iff.1 h
  suffices slots : draft.Unresolved from UnresolvedSlots.usages slots
  refine toRecord_inv (P := EnumDecl.Draft.Unresolved) read (UnresolvedSlots.none _) ?_
  intro d key x _ d' held put
  split_ifs at put
  · exact inv_of_put put fun _ _ => held
  · refine inv_of_put put fun _ ok => ⟨held.attributes, filled_fill ok ?_⟩
    intro fields read f hf
    obtain ⟨_, _, ok⟩ := exists_of_toList read hf
    exact EnumField.unresolved_ofJson ok
  · exact inv_of_put put fun _ ok =>
      ⟨filled_fill ok fun _ => unresolved_attributesOfJson, held.fields⟩
  · exact inv_of_put put fun _ _ => held
  · rw [skip_eq_ok put]
    exact held

def Model.Draft.Unresolved (d : Model.Draft) : Prop :=
  UnresolvedSlots Field.attributes d.attributes d.fields

theorem Model.unresolved_ofJson {v : Json} {m : Model} (h : Model.ofJson v = .ok m) :
    (Declaration.model m).Unresolved := by
  unfold Model.ofJson at h
  obtain ⟨draft, read, h⟩ := bind_ok_iff.1 h
  obtain ⟨name, _, h⟩ := bind_ok_iff.1 h
  cases pure_ok_iff.1 h
  suffices slots : draft.Unresolved from UnresolvedSlots.usages slots
  refine toRecord_inv (P := Model.Draft.Unresolved) read (UnresolvedSlots.none _) ?_
  intro d key x _ d' held put
  unfold Model.Draft.put at put
  split_ifs at put
  · exact inv_of_put put fun _ _ => held
  · refine inv_of_put put fun _ ok => ⟨held.attributes, filled_fill ok ?_⟩
    intro fields read f hf
    obtain ⟨_, _, ok⟩ := exists_of_toList read hf
    exact Field.unresolved_ofJson ok
  · exact inv_of_put put fun _ ok =>
      ⟨filled_fill ok fun _ => unresolved_attributesOfJson, held.fields⟩
  · exact inv_of_put put fun _ _ => held
  · exact inv_of_put put fun _ _ => held
  · exact inv_of_put put fun _ _ => held
  · exact inv_of_put put fun _ _ => held
  · exact inv_of_put put fun _ _ => held
  · rw [skip_eq_ok put]
    exact held

theorem Declaration.unresolved_ofBody {kind : String} {body : Json} {decl : Declaration}
    (h : Declaration.ofBody kind body = .ok decl) : decl.Unresolved := by
  unfold Declaration.ofBody at h
  split_ifs at h
  · exact inv_of_put h fun _ _ a ha => nomatch ha
  · exact inv_of_put h fun _ _ a ha => nomatch ha
  · exact inv_of_put h fun _ ok => EnumDecl.unresolved_ofJson ok
  · exact inv_of_put h fun _ ok => Model.unresolved_ofJson ok

theorem Declaration.unresolved_ofJson {v : Json} {decl : Declaration}
    (h : Declaration.ofJson v = .ok decl) : decl.Unresolved := by
  unfold Declaration.ofJson at h
  split at h
  next => cases h
  next =>
    split at h
    next entries =>
      split at h
      next => cases h
      next =>
        obtain ⟨kind, _, h⟩ := bind_ok_iff.1 h
        exact Declaration.unresolved_ofBody h
      next => cases h
    next =>
      obtain ⟨kind, _, h⟩ := bind_ok_iff.1 h
      exact Declaration.unresolved_ofBody h
    next => cases h
    next => exact absurd h (refuse_ne_ok _ _ _)

/-! ## §4. Documents -/

def Document.Draft.Unresolved (d : Document.Draft) : Prop :=
  Filled Declaration.Unresolved d.declarations

theorem Document.unresolved_finish {draft : Document.Draft} (h : draft.Unresolved) :
    draft.finish.Unresolved := by
  intro a ha
  obtain ⟨decl, hdecl, ha⟩ := List.mem_flatMap.1 ha
  exact h decl hdecl a ha

theorem Document.unresolved_ofJson {v : Json} {d : Document} (h : Document.ofJson v = .ok d) :
    d.Unresolved := by
  unfold Document.ofJson at h
  obtain ⟨draft, read, h⟩ := bind_ok_iff.1 h
  cases pure_ok_iff.1 h
  apply Document.unresolved_finish
  refine toRecord_inv (P := Document.Draft.Unresolved) read (filled_none _) ?_
  intro d key x _ d' held put
  split_ifs at put
  · exact inv_of_put put fun _ _ => held
  · exact inv_of_put put fun _ _ => held
  · refine inv_of_put put fun _ ok => filled_fill ok ?_
    intro decls read decl hdecl
    obtain ⟨_, _, ok⟩ := exists_of_toList read hdecl
    exact Declaration.unresolved_ofJson ok
  · rw [skip_eq_ok put]
    exact held

theorem Document.unresolved_ofYaml {v : Yaml} {d : Document} (h : Document.ofYaml v = .ok d) :
    d.Unresolved := by
  unfold Document.ofYaml at h
  obtain ⟨draft, read, h⟩ := bind_ok_iff.1 h
  cases pure_ok_iff.1 h
  apply Document.unresolved_finish
  refine Yaml.toRecord_inv (P := Document.Draft.Unresolved) read (filled_none _) ?_
  intro d key x d' held put
  split_ifs at put
  · exact inv_of_put put fun _ _ => held
  · exact inv_of_put put fun _ _ => held
  · refine inv_of_put put fun _ ok => filled_fill ok ?_
    intro decls read decl hdecl
    obtain ⟨_, ok⟩ := Yaml.exists_of_toList read hdecl
    exact Declaration.unresolved_ofJson ok
  · rw [Yaml.skip_eq_ok put]
    exact held

/-- The document was read from a tree of one of the two notations. -/
def Document.Read (d : Document) : Prop :=
  (∃ v, Document.ofJson v = .ok d) ∨ ∃ v, Document.ofYaml v = .ok d

/-- **A document that was read has resolved nothing yet.** -/
theorem Document.Read.unresolved {d : Document} (h : d.Read) : d.Unresolved := by
  rcases h with ⟨v, read⟩ | ⟨v, read⟩
  · exact Document.unresolved_ofJson read
  · exact Document.unresolved_ofYaml read

end DelegateSchema
