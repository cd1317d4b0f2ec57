import Imperative.Exit

/-!
# The tally of calls

A machine counts the bodies that it enters and how they end.  A body that ends by
failing is counted when it is entered and never again, so the ends counted may fall
short of the entries, and the difference is what failed or is still in progress.
-/

namespace Imperative

/-- Counts over the lifetime of a machine: bodies entered, bodies that ran to their end,
and returns caught, by kind. -/
structure Tally where
  calls : Nat := 0
  fallThroughs : Nat := 0
  references : Nat := 0
  integers : Nat := 0
  floats : Nat := 0
  booleans : Nat := 0
  units : Nat := 0
deriving DecidableEq, Repr, Inhabited

namespace Tally

/-- The returns of one kind. -/
def returns (t : Tally) : Kind → Nat
  | .reference => t.references
  | .integer => t.integers
  | .float => t.floats
  | .boolean => t.booleans
  | .unit => t.units

/-- The returns of all kinds together. -/
def explicitReturns (t : Tally) : Nat := (Kind.all.map t.returns).foldr (· + ·) 0

/-- Counts a return. -/
def addReturn (t : Tally) : Kind → Tally
  | .reference => { t with references := t.references + 1 }
  | .integer => { t with integers := t.integers + 1 }
  | .float => { t with floats := t.floats + 1 }
  | .boolean => { t with booleans := t.booleans + 1 }
  | .unit => { t with units := t.units + 1 }

/-- Counts a body that ran to its end. -/
def addFallThrough (t : Tally) : Tally := { t with fallThroughs := t.fallThroughs + 1 }

/-- Counts a body that is entered. -/
def addCall (t : Tally) : Tally := { t with calls := t.calls + 1 }

@[simp] theorem calls_addReturn (t : Tally) (k : Kind) : (t.addReturn k).calls = t.calls := by
  cases k <;> rfl

@[simp] theorem fallThroughs_addReturn (t : Tally) (k : Kind) :
    (t.addReturn k).fallThroughs = t.fallThroughs := by
  cases k <;> rfl

@[simp] theorem returns_addCall (t : Tally) (k : Kind) : t.addCall.returns k = t.returns k := by
  cases k <;> rfl

theorem addReturn_addCall (t : Tally) (k : Kind) :
    t.addCall.addReturn k = (t.addReturn k).addCall := by
  cases k <;> rfl

theorem returns_addReturn (t : Tally) (k j : Kind) :
    (t.addReturn k).returns j = t.returns j + if k = j then 1 else 0 := by
  cases k <;> cases j <;> rfl

theorem explicitReturns_addReturn (t : Tally) (k : Kind) :
    (t.addReturn k).explicitReturns = t.explicitReturns + 1 := by
  cases k <;> simp [explicitReturns, Kind.all, addReturn, returns] <;> omega

end Tally

end Imperative
