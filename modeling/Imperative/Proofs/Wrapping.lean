import Imperative.Call
import Mathlib.Data.Int.ModEq

/-!
# Integer arithmetic, wrapped once

Every operator on integers wraps around, so the value of a tree of operators comes about by wrapping
at each of its nodes.  Nobody wants to reason like that.  A tree of additions, subtractions,
multiplications and negations has a value over the unbounded integers too (`Expr.unwrapped?`), and
the word that its evaluation yields is that value wrapped around once (`Expr.run_of_unwrapped`):
reducing a number modulo 2 ^ 64 commutes with each of these operators.

It does not commute with division, which is why a quotient has no exact value here.  The operands of
a quotient are wrapped first and divided as they are then.  The quotient of two words is a word
again, but for the smallest one divided by minus one, and that quotient wraps around to the smallest
word itself.
-/

namespace Imperative

open Imperative.Action

/-! ## Words -/

/-- A number wrapped around is the one word that is congruent to it. -/
theorem toInt_modEq_iff {n : Int64} {z : Int} : n.toInt ≡ z [ZMOD 2 ^ 64] ↔ n = Int64.ofInt z := by
  constructor
  · intro h
    rw [eq_comm, Int64.ofInt_eq_iff_bmod_eq_toInt]
    calc z.bmod (2 ^ 64) = (z % (2 ^ 64 : Nat)).bmod (2 ^ 64) := (Int.emod_bmod z _).symm
      _ = (n.toInt % (2 ^ 64 : Nat)).bmod (2 ^ 64) := congrArg (Int.bmod · _) h.symm
      _ = n.toInt.bmod (2 ^ 64) := Int.emod_bmod n.toInt _
      _ = n.toInt := n.toInt_bmod
  · rintro rfl
    rw [Int64.toInt_ofInt]
    exact Int.bmod_emod

/-- Division in words is division of the numbers they stand for, wrapped around. -/
theorem toInt_div_modEq (p q : Int64) : (p / q).toInt ≡ p.toInt.tdiv q.toInt [ZMOD 2 ^ 64] := by
  rw [Int64.toInt_div]
  exact Int.bmod_emod

/-! ## Trees with an exact value -/

/-- The value of an operator over the unbounded integers.  A quotient has none. -/
def ArithOp.unwrapped? (op : ArithOp) (x y : Int) : Option Int :=
  match op with
  | .add => some (x + y)
  | .sub => some (x - y)
  | .mul => some (x * y)
  | .div => none

/-- The value of an expression over the unbounded integers, if it is a tree of additions,
subtractions, multiplications and negations whose leaves are integer literals and variables that are
bound to integers. -/
def Expr.unwrapped? (scope : Scope) : Expr → Option Int
  | .int n => some n.toInt
  | .ident name =>
    match scope.lookup name with
    | some ⟨.int n, _⟩ => some n.toInt
    | _ => none
  | .neg e => (e.unwrapped? scope).map (-·)
  | .arith op a b =>
    match a.unwrapped? scope, b.unwrapped? scope with
    | some x, some y => op.unwrapped? x y
    | _, _ => none
  | _ => none

/-! ## Wrapping at every node -/

/-- Wrapping the operands of an operator and then its result is wrapping the result. -/
theorem ArithOp.onInts_ofInt {op : ArithOp} {x y z : Int} (h : op.unwrapped? x y = some z) :
    op.onInts (.ofInt x) (.ofInt y) = .ok (.ofInt z) := by
  cases op <;> cases h
  case add => exact congrArg Except.ok (Int64.ofInt_add x y).symm
  case sub => exact congrArg Except.ok (Int64.ofInt_sub x y).symm
  case mul => exact congrArg Except.ok (Int64.ofInt_mul x y).symm

section Evaluation

variable {ctx : Context} {fuel : Nat} {scope : Scope} {m : Machine}

/-- An operator whose operands are evaluated to integers, without a trace, is applied to them. -/
theorem Expr.run_arith_ints {op : ArithOp} {a b : Expr} {p q : Int64}
    (ha : a.run ctx fuel scope m = some (.ok (.int p), m))
    (hb : b.run ctx fuel scope m = some (.ok (.int q), m)) :
    (Expr.arith op a b).run ctx fuel scope m = some ((op.onInts p q).map .int, m) := by
  rw [Expr.run] at ha hb
  rw [Expr.run, Expr.eval, bind_apply, ha]
  dsimp only
  rw [bind_apply, hb]
  rfl

/-- **A tree with an exact value is evaluated to that value, wrapped around once.**  The machine
stays as it is. -/
theorem Expr.run_of_unwrapped {e : Expr} {z : Int} (h : e.unwrapped? scope = some z) :
    e.run ctx fuel scope m = some (.ok (.int (.ofInt z)), m) := by
  -- The induction is on the tree: an operator finds its operands wrapped and the machine as it was.
  fun_induction Expr.unwrapped? scope e generalizing z
  case case1 n =>
    cases h
    rw [Int64.ofInt_toInt]
    rfl
  case case2 name n ty hlookup =>
    cases h
    rw [Int64.ofInt_toInt, Expr.run, Expr.eval, Context.valueOf, hlookup]
    rfl
  case case4 e ih =>
    obtain ⟨x, hx, rfl⟩ := Option.map_eq_some_iff.mp h
    rw [Expr.run, Expr.eval, bind_apply]
    rw [Expr.run] at ih
    rw [ih hx, Int64.ofInt_neg]
    rfl
  case case5 op a b x y hb ha iha ihb =>
    rw [Expr.run_arith_ints (iha ha) (ihb hb), ArithOp.onInts_ofInt h]
    rfl
  all_goals exact absurd h (Option.some_ne_none z).symm

end Evaluation

/-- **Integer arithmetic is exact modulo 2 ^ 64.**  Let `a` and `b` be trees of additions,
subtractions, multiplications and negations over integer literals and variables that are bound to
integers, and `x` and `y` their values over the unbounded integers.  Whatever the functions, the
limits, the fuel and the machine, the evaluation of `a` succeeds, leaves the machine as it is, and
yields the one word that is congruent to `x`.

The quotient of `a` and `b` is a division by zero exactly if the word of `b` is zero.  Otherwise it
yields the truncated quotient of the two words, wrapped around; the smallest word divided by minus
one is the smallest word.  Neither way does it change the machine. -/
theorem arithmetic_wraps_once {scope : Scope} {a b : Expr} {x y : Int}
    (ha : a.unwrapped? scope = some x) (hb : b.unwrapped? scope = some y) (ctx : Context)
    (fuel : Nat) (m : Machine) :
    ∃ p q : Int64,
      (∀ n : Int64, n.toInt ≡ x [ZMOD 2 ^ 64] ↔ n = p) ∧
      (∀ n : Int64, n.toInt ≡ y [ZMOD 2 ^ 64] ↔ n = q) ∧
      a.run ctx fuel scope m = some (.ok (.int p), m) ∧
      b.run ctx fuel scope m = some (.ok (.int q), m) ∧
      ((Expr.arith .div a b).run ctx fuel scope m = some (.error .divisionByZero, m) ↔ q = 0) ∧
      (q ≠ 0 → ∃ r : Int64, r.toInt ≡ p.toInt.tdiv q.toInt [ZMOD 2 ^ 64] ∧
        (Expr.arith .div a b).run ctx fuel scope m = some (.ok (.int r), m)) ∧
      (p = Int64.minValue → q = -1 →
        (Expr.arith .div a b).run ctx fuel scope m = some (.ok (.int Int64.minValue), m)) := by
  have hp : a.run ctx fuel scope m = some (.ok (.int (.ofInt x)), m) := Expr.run_of_unwrapped ha
  have hq : b.run ctx fuel scope m = some (.ok (.int (.ofInt y)), m) := Expr.run_of_unwrapped hb
  have hquotient : (Expr.arith .div a b).run ctx fuel scope m =
      some ((ArithOp.div.onInts (.ofInt x) (.ofInt y)).map .int, m) := Expr.run_arith_ints hp hq
  refine ⟨.ofInt x, .ofInt y, fun n => toInt_modEq_iff, fun n => toInt_modEq_iff, hp, hq,
    ?zero, ?nonzero, ?smallest⟩
  case zero =>
    rw [hquotient, ArithOp.onInts]
    split
    · next hzero => exact iff_of_true rfl hzero
    · next hzero => exact iff_of_false nofun hzero
  case nonzero =>
    intro hzero
    refine ⟨.ofInt x / .ofInt y, toInt_div_modEq _ _, ?_⟩
    rw [hquotient, ArithOp.onInts, if_neg hzero]
    rfl
  case smallest =>
    intro hmin hminus
    rw [hquotient, hmin, hminus]
    rfl

/-- One more than the largest word, divided by minus one: the sum has wrapped around to the smallest
word when it is divided, and the quotient wraps around again. -/
theorem arithmetic_wraps_once_overflow :
    let scope := Scope.root.define "largest" { value := .int Int64.maxValue }
    let sum := Expr.arith .add (.ident "largest") (.int 1)
    let minusOne := Expr.neg (.int 1)
    sum.unwrapped? scope = some (2 ^ 63) ∧ minusOne.unwrapped? scope = some (-1) ∧
      sum.run {} 0 scope {} = some (.ok (.int Int64.minValue), {}) ∧
      (Expr.arith .div sum minusOne).run {} 0 scope {} =
        some (.ok (.int Int64.minValue), {}) := by
  intro scope sum minusOne
  have hsum : sum.unwrapped? scope = some (2 ^ 63) := rfl
  have hminus : minusOne.unwrapped? scope = some (-1) := rfl
  obtain ⟨p, q, hp, hq, hrun, -, -, -, hsmallest⟩ :=
    arithmetic_wraps_once hsum hminus {} 0 {}
  have hpmin : Int64.minValue = p := (hp _).mp (by decide)
  have hqminus : -1 = q := (hq _).mp (by decide)
  rw [← hpmin] at hrun
  exact ⟨hsum, hminus, hrun, hsmallest hpmin.symm hqminus.symm⟩

end Imperative
