/-
  DelegateSchema.Visits — bounds for walks that never enter a place twice.

  A walk over a finite list of names that remembers where it has been ends, because every step to
  a name not visited before leaves fewer names to visit.  A new place may add names to the list of
  places still to see, but never more than a fixed width, so one number bounds the whole walk.
-/

namespace DelegateSchema

/-- How many of the names have not been visited. -/
def unvisited (names visited : List String) : Nat :=
  names.countP fun name => decide (name ∉ visited)

theorem unvisited_cons_le (names visited : List String) (name : String) :
    unvisited names (name :: visited) ≤ unvisited names visited := by
  unfold unvisited
  apply List.countP_mono_left
  intro n _ h
  simp_all

theorem unvisited_cons_lt {names visited : List String} {name : String} (hn : name ∈ names)
    (hv : name ∉ visited) : unvisited names (name :: visited) < unvisited names visited := by
  induction names with
  | nil => cases hn
  | cons first rest ih =>
    have rest_le := unvisited_cons_le rest visited name
    unfold unvisited at rest_le ih ⊢
    rw [List.countP_cons, List.countP_cons]
    by_cases same : first = name
    · subst same
      simp only [List.mem_cons, true_or, not_true_eq_false, decide_false, hv, not_false_eq_true,
        decide_true, if_true, Bool.false_eq_true, if_false] at rest_le ⊢
      omega
    · have := ih ((List.mem_cons.1 hn).resolve_left (Ne.symm same))
      have head : decide (first ∉ name :: visited) = decide (first ∉ visited) := by simp [same]
      rw [head]
      omega

/-- A bound for the steps of a walk that still has `todo` places on its list and adds at most
    `width` of them at each new place. -/
def stepsLeft (names visited : List String) (width todo : Nat) : Nat :=
  unvisited names visited * (width + 2) + todo

theorem stepsLeft_lt_of_new {names visited : List String} {name : String} {width todo todo' : Nat}
    (hn : name ∈ names) (hv : name ∉ visited) (h : todo' ≤ todo + width + 1) :
    stepsLeft names (name :: visited) width todo' < stepsLeft names visited width todo := by
  have fewer : (unvisited names (name :: visited) + 1) * (width + 2)
      ≤ unvisited names visited * (width + 2) :=
    Nat.mul_le_mul_right (width + 2) (unvisited_cons_lt hn hv)
  rw [Nat.add_mul] at fewer
  unfold stepsLeft
  omega

theorem stepsLeft_cons_lt (names visited : List String) (name : String) (width : Nat)
    {todo todo' : Nat} (h : todo' < todo) :
    stepsLeft names (name :: visited) width todo' < stepsLeft names visited width todo := by
  have fewer : unvisited names (name :: visited) * (width + 2)
      ≤ unvisited names visited * (width + 2) :=
    Nat.mul_le_mul_right (width + 2) (unvisited_cons_le names visited name)
  unfold stepsLeft
  omega

theorem stepsLeft_lt (names visited : List String) (width : Nat) {todo todo' : Nat}
    (h : todo' < todo) : stepsLeft names visited width todo' < stepsLeft names visited width todo :=
  Nat.add_lt_add_left h _

end DelegateSchema
