/-
  DelegateSchema.Identifier.Basic — generated identifiers within a budget.

  Every generated field, foreign key and relation is called `delegate_aux_` and a name.  A name
  that is too long is cut, and an underscore and a number tell the names of one beginning apart:
  they are numbered in the order in which they were first asked for.  What was asked for is
  remembered, so the same name always gets the same answer.

  A computation that needs generated identifiers asks for them by name and goes on with the
  answer; where the answers come from is decided by whoever runs it.  `Asking.run` answers from a
  memory that grows with every question, `Asking.answer` from a fixed function.
-/
import DelegateSchema.Text.Lowercase

namespace DelegateSchema.Identifier

/-! ## §1. Names asked for -/

/-- What every generated identifier begins with, before an underscore. -/
def start : String := "delegate_aux"

/-- The length of identifiers that all databases accept. -/
def standardLength : Nat := 50

/-- The names asked for so far that were too long. -/
structure Memory where
  /-- How many characters of a name are kept. -/
  budget : Nat
  /-- The distinct names longer than that, in the order in which they were first asked for. -/
  long : List String := []

namespace Memory

/-- An empty memory for identifiers of the given length. -/
def ofLength (length : Nat) : Memory :=
  ⟨length - start.length, []⟩

/-- The beginning of a name that is kept. -/
def cut (m : Memory) (name : String) : String :=
  String.ofList (name.toList.take m.budget)

/-- Whether a name fits as it is. -/
def fits (m : Memory) (name : String) : Bool :=
  name.length ≤ m.budget

/-- Remembers a name, if it is too long and not known. -/
def remember (m : Memory) (name : String) : Memory :=
  if m.fits name || m.long.contains name then m else { m with long := m.long ++ [name] }

/-- The number of a long name among those of the same beginning. -/
def number (m : Memory) (name : String) : Nat :=
  (m.long.filter fun other => m.cut other == m.cut name).idxOf name

/-- What a remembered name is shortened to. -/
def shorten (m : Memory) (name : String) : String :=
  if m.fits name then name else m.cut name ++ "_" ++ Nat.repr (m.number name)

/-- Shortens a name, which is remembered from now on. -/
def truncate (m : Memory) (name : String) : String × Memory :=
  let m := m.remember name
  (m.shorten name, m)

end Memory

/-- The identifier made from a shortened name. -/
def ofShort (short : String) : String :=
  start ++ "_" ++ short

/-! ## §2. Computations that ask -/

/-- A computation of an `α` that may ask for shortened names. -/
inductive Asking (α : Type) where
  /-- Nothing more to ask. -/
  | done (value : α)
  /-- Asks what a name is shortened to. -/
  | ask (name : String) (next : String → Asking α)

namespace Asking

variable {α β : Type}

/-- Goes on with the value of a computation. -/
def bind : Asking α → (α → Asking β) → Asking β
  | .done value, f => f value
  | .ask name next, f => .ask name fun short => (next short).bind f

instance : Monad Asking where
  pure := .done
  bind := bind

/-- Answers every question from a memory, which remembers the question. -/
def run : Asking α → Memory → α × Memory
  | .done value, m => (value, m)
  | .ask name next, m =>
    let (short, m) := m.truncate name
    (next short).run m

/-- Answers every question by a fixed function. -/
def answer (shortOf : String → String) : Asking α → α
  | .done value => value
  | .ask name next => (next (shortOf name)).answer shortOf

/-- The identifier generated for a name. -/
def identifier (name : String) : Asking String :=
  .ask name fun short => .done (ofShort short)

end Asking

end DelegateSchema.Identifier
