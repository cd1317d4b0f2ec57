import Imperative.Fault

/-!
# Limits

A run is kept within bounds by two limits: how many bodies may be in progress at once,
and how many turns a single loop may take.  The second may be absent.  Each activation of
a loop counts its own turns, and a loop that ends after exactly as many turns as it is
allowed has not exceeded the limit.
-/

namespace Imperative

/-- The limits of a run. -/
structure Limits where
  callDepth : Nat := 64
  turns : Option Nat := none
deriving DecidableEq, Repr, Inhabited

namespace Limits

/-- Whether one more body may be entered while `depth` bodies are in progress. -/
def admitCall (l : Limits) (depth : Nat) : Except Fault Unit :=
  if depth < l.callDepth then .ok () else .error (.callDepthExceeded l.callDepth)

/-- Whether a loop that has taken `taken` turns may take another. -/
def admitTurn (l : Limits) (taken : Nat) : Except Fault Unit :=
  match l.turns with
  | none => .ok ()
  | some n => if taken < n then .ok () else .error (.loopLimitExceeded n)

/-- How often a loop may test its condition: once more than it may take turns.  Without a
limit on turns the answer is `patience`. -/
def testBound (l : Limits) (patience : Nat) : Nat :=
  match l.turns with
  | none => patience
  | some n => n + 1

theorem admitTurn_of_none {l : Limits} (h : l.turns = none) (taken : Nat) :
    l.admitTurn taken = .ok () := by
  rw [admitTurn, h]

theorem admitTurn_of_eq {l : Limits} {taken : Nat} (h : l.turns = some taken) :
    l.admitTurn taken = .error (.loopLimitExceeded taken) := by
  rw [admitTurn, h]
  exact if_neg (Nat.lt_irrefl taken)

/-- Counting upwards, the first turn to be refused is the one that has the number of the limit. -/
theorem admitTurn_of_ne {l : Limits} {taken : Nat} (hle : ∀ n, l.turns = some n → taken ≤ n)
    (h : l.turns ≠ some taken) : l.admitTurn taken = .ok () := by
  rw [admitTurn]
  split
  · rfl
  · next n hn =>
    have hne : taken ≠ n := fun heq => h (heq ▸ hn)
    exact if_pos (Nat.lt_of_le_of_ne (hle n hn) hne)

/-- A loop may test its condition at least once. -/
theorem testBound_pos (l : Limits) {patience : Nat} (h : 0 < patience) :
    0 < l.testBound patience := by
  unfold testBound
  split
  · exact h
  · exact Nat.succ_pos _

end Limits

end Imperative
