/-!
# Samples

The average, the least and the greatest of a list of measurements.  A measurement that is
not a number spoils the average and is ignored by the other two.  Of measurements that are
equal the last one counts, which tells only where zeros of both signs are among them.
Without any measurement all three are zero.
-/

namespace Imperative
namespace Throughput

/-- What is said about a list of measurements. -/
structure Summary where
  average : Float
  least : Float
  greatest : Float
deriving Repr, Inhabited

/-- The smaller of two floats: the second, unless the first is less or the second is no
number.  Of two equal ones, such as the two zeros, it is the second. -/
def lesser (x y : Float) : Float := if x < y || y.isNaN then x else y

/-- The larger of two floats: the second, unless the first is greater or the second is no
number.  Of two equal ones, such as the two zeros, it is the second. -/
def greater (x y : Float) : Float := if y < x || y.isNaN then x else y

/-- The sum, added up from the left.  The empty sum is the negative zero, which leaves
every float as it is when added to it. -/
def sum (samples : List Float) : Float := samples.foldl (· + ·) (-0.0)

/-- Summarises measurements. -/
def summarize (samples : List Float) : Summary :=
  if samples.isEmpty then ⟨0.0, 0.0, 0.0⟩
  else {
    average := sum samples / Float.ofNat samples.length
    least := samples.foldl lesser (1.0 / 0.0)
    greatest := samples.foldl greater (-1.0 / 0.0) }

end Throughput
end Imperative
