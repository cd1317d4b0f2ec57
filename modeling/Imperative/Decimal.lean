/-!
# Floats in decimal

A finite float is a whole number times a power of two, and this file writes it in
decimal by exact arithmetic on whole numbers, without computing in floats.

Two texts are needed.  The *shortest* text has the fewest digits that still single out
the float: among the decimals on a grid `10 ^ k`, those that round back to the float
form an interval around it, so one looks for the coarsest grid that meets the interval,
and there takes the nearest point (`Dyadic.shortest`).  If a grid meets the interval at
all, then one of the two grid points next to the float lies in it, so only those two are
ever tested.  The *fixed* text has a given number of places, and rounds a tie to the
even neighbour (`Dyadic.fixed`).

The interval reaches half way to the next float on each side.  Its ends belong to it
exactly if the significand is even, because a tie between two floats goes to the even
one; and below a power of two the next float is only half as far away.
-/

namespace Imperative

/-! ## Decoding -/

/-- A nonnegative finite float, exactly: `significand * 2 ^ exponent`. -/
structure Dyadic where
  significand : Nat
  exponent : Int
  /-- Whether the next smaller float is only half as far away as the next larger. -/
  narrow : Bool := false
deriving DecidableEq, Repr, Inhabited

/-- What a float is, apart from its sign. -/
inductive Magnitude where
  | nan
  | infinite
  | finite (d : Dyadic)
deriving DecidableEq, Repr, Inhabited

namespace Magnitude

/-- Reads the sign and the magnitude off the 64 bits of a float: one bit of sign, eleven
of exponent, fifty-two of fraction. -/
def ofBits (bits : UInt64) : Bool × Magnitude :=
  let n := bits.toNat
  let negative : Bool := n >>> 63 = 1
  let field : Nat := (n >>> 52) % (1 <<< 11)
  let fraction : Nat := n % (1 <<< 52)
  let magnitude : Magnitude :=
    if field = 2047 then
      if fraction = 0 then infinite else nan
    else if field = 0 then
      finite ⟨fraction, -1074, false⟩
    else
      finite ⟨(1 <<< 52) + fraction, (field : Int) - 1075, fraction = 0 && field != 1⟩
  (negative, magnitude)

/-- The sign and the magnitude of a float. -/
def ofFloat (x : Float) : Bool × Magnitude := ofBits x.toBits

end Magnitude

/-! ## The shortest decimal -/

/-- A nonnegative decimal, exactly: `digits * 10 ^ exponent`. -/
structure Decimal where
  digits : Nat
  exponent : Int
deriving DecidableEq, Repr, Inhabited

namespace Dyadic

/-- The interval of reals that round to the float, and the float itself, all in quarters
of a unit in the last place: lower end, float, upper end. -/
def quarters (d : Dyadic) : Nat × Nat × Nat :=
  let m := 4 * d.significand
  (m - (if d.narrow then 1 else 2), m, m + 2)

/-- The point of the grid `10 ^ k` that stands for the float, if the grid has one in the
interval.  Everything is multiplied by `scale`, which clears the denominators, so that a
grid point `c` becomes `c * unit`.  Of two points in the interval the nearer one is taken
and of two equally near the larger one. -/
def onGrid (d : Dyadic) (k : Int) : Option Decimal :=
  let e := d.exponent - 2
  let scale := Nat.pow 2 e.toNat * Nat.pow 10 (-k).toNat
  let unit := Nat.pow 2 (-e).toNat * Nat.pow 10 k.toNat
  let (low, mid, high) := d.quarters
  let inside (c : Nat) : Bool :=
    if d.significand % 2 = 0 then low * scale ≤ c * unit && c * unit ≤ high * scale
    else low * scale < c * unit && c * unit < high * scale
  let below := mid * scale / unit
  match inside below, inside (below + 1) with
  | true, true =>
    if 2 * (mid * scale) < (2 * below + 1) * unit then some ⟨below, k⟩ else some ⟨below + 1, k⟩
  | true, false => some ⟨below, k⟩
  | false, true => some ⟨below + 1, k⟩
  | false, false => none

/-- An exponent `k` for which `10 ^ k` exceeds every point of the interval.  The float is
less than `2 ^ b` for `b` its length in bits, and `30103 / 100000` is a little more than the
decimal logarithm of two. -/
def ceiling (d : Dyadic) : Int :=
  (d.exponent + d.significand.log2 + 2) * 30103 / 100000 + 2

/-- The shortest decimal that reads back as the float: the first hit on ever finer grids.
Seventeen digits tell any two floats apart, so the search ends within the range given. -/
def shortest (d : Dyadic) : Decimal :=
  if d.significand = 0 then ⟨0, 0⟩
  else ((List.range 24).findSome? fun i : Nat => d.onGrid (d.ceiling - i)).getD ⟨0, 0⟩

/-- The float in units of `10 ^ (-places)`, rounded to a whole number, ties to even. -/
def rounded (d : Dyadic) (places : Nat) : Nat :=
  let num := d.significand * Nat.pow 2 d.exponent.toNat * Nat.pow 10 places
  let den := Nat.pow 2 (-d.exponent).toNat
  let q := num / den
  match compare (2 * (num % den)) den with
  | .lt => q
  | .eq => q + q % 2
  | .gt => q + 1

end Dyadic

/-! ## Positional text -/

namespace Decimal

/-- The digits of a decimal in positional form, without an exponent: the part before the
point and the part after it.  The latter is empty for a whole number. -/
def positions (d : Decimal) : String × String :=
  let ds := (Nat.toDigits 10 d.digits)
  if 0 ≤ d.exponent then
    (String.ofList (ds ++ List.replicate d.exponent.toNat '0'), "")
  else
    let places := (-d.exponent).toNat
    let padded := List.replicate (places + 1 - ds.length) '0' ++ ds
    (String.ofList (padded.take (padded.length - places)),
      String.ofList (padded.drop (padded.length - places)))

/-- The positional text.  A whole number has no point. -/
def text (d : Decimal) : String :=
  match d.positions with
  | (whole, "") => whole
  | (whole, part) => s!"{whole}.{part}"

end Decimal

/-! ## Texts of floats -/

/-- The sign of a float as text. -/
def signText (negative : Bool) : String := if negative then "-" else ""

/-- The shortest text of a float, in positional form at every size.  Zero keeps its sign,
and a NaN has none. -/
def floatText (x : Float) : String :=
  match Magnitude.ofFloat x with
  | (_, .nan) => "NaN"
  | (negative, .infinite) => s!"{signText negative}inf"
  | (negative, .finite d) => s!"{signText negative}{d.shortest.text}"

/-- The text of a float with a fixed number of places. -/
def fixedText (x : Float) (places : Nat) : String :=
  match Magnitude.ofFloat x with
  | (_, .nan) => "NaN"
  | (negative, .infinite) => s!"{signText negative}inf"
  | (negative, .finite d) =>
    let (whole, part) := (Decimal.mk (d.rounded places) (-places)).positions
    if places = 0 then s!"{signText negative}{whole}" else s!"{signText negative}{whole}.{part}"

end Imperative
