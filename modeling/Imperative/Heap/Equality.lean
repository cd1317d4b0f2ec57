import Imperative.Heap

/-!
# Deep equality

Two values are equal in content if they hold the same handle, or hold handles of lists
of one length whose items are equal in content pair by pair, or hold handles of equal
objects of another sort, or are equal numbers, truth values or units.  A shared handle
settles the question before the objects are looked at.

A list can come to contain itself, and comparing two such lists may never end.  The
comparison therefore carries a *budget*, the number of handles it may still descend
through, and answers `none` when the budget is spent.  `pairBudget` is never too small
for a comparison that does end: on a descent that passes through more pairs of handles
than there are pairs of objects some pair comes up twice, and whatever follows a pair
follows it again.
-/

namespace Imperative
namespace Heap

/-- Whether a test holds at each place of two lists of one length, from left to right, up
to the first place where it fails.  A test without an answer leaves the whole without
one, unless an earlier place has failed already. -/
def allPairs (test : Value → Value → Option Bool) : List Value → List Value → Option Bool
  | [], _ => some true
  | _, [] => some true
  | a :: as, b :: bs =>
    match test a b with
    | some true => allPairs test as bs
    | some false => some false
    | none => none

/-- Equality of content, descending through at most `budget` pairs of handles. -/
def equalWithin? (h : Heap) : Nat → Value → Value → Option Bool
  | 0, _, _ => none
  | budget + 1, a, b =>
    match a, b with
    | .ref x, .ref y =>
      if x = y then some true
      else
        match h.get? x, h.get? y with
        | some (.list xs), some (.list ys) =>
          if xs.size = ys.size then allPairs (h.equalWithin? budget) xs.toList ys.toList
          else some false
        | some p, some q => some (p == q)
        | _, _ => some false
    | a, b => some (a == b)

/-- A budget that suffices whenever any does: one more than the number of pairs of
objects, and one for the values at the end of the descent. -/
def pairBudget (h : Heap) : Nat := h.size * h.size + 2

/-- Equality of content; `none` if the comparison never ends. -/
def equal? (h : Heap) (a b : Value) : Option Bool := h.equalWithin? h.pairBudget a b

end Heap
end Imperative
