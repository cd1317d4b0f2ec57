import Imperative.Proofs.Moments.Ready
import Imperative.Proofs.Progress

/-!
# The depth of the moments of a run

The counts of what is in progress are balanced (`Imperative.Proofs.Progress`), and so they are over
every task (`Moment.progress_of_run`), a loop in the middle of its turns included.  Hence a moment
and its parts start with the same number of bodies in progress, except that the body of a call
starts with one more, and with less fuel by one (`Starts.depth`).
-/

namespace Imperative

/-! ## Tasks are balanced -/

section Balance

variable {ctx : Context}

theorem Moment.ready_balance (c : Moment) : c.Ready balance where
  start := balance_ready c.start
  allows _ _ := trivial
  callable _ _ _ := trivial
  holds _ _ := trivial

/-- **What is in progress is at the end of a moment what it was at the start.** -/
theorem Moment.progress_of_run {c : Moment} {r : Except Exit Unit} {b : Activation}
    (h : c.task.run ctx c.fuel c.start = some (r, b)) :
    b.machine.progress = c.start.machine.progress :=
  ((c.ready_balance.runs (balance_lawful ctx)).ends h).2

/-! ## The depth of a moment -/

/-- **The depth of the moments of a run.**  The fuel of a moment and the bodies in progress have
the same sum at all moments, and only a call, which needs to be admitted, has parts with less
fuel. -/
theorem Starts.depth {c d : Moment} (h : Starts ctx c d) :
    d.fuel = c.fuel ∧ d.start.machine.callDepth = c.start.machine.callDepth ∨
      d.fuel + 1 = c.fuel ∧ d.start.machine.callDepth = c.start.machine.callDepth + 1 ∧
        c.start.machine.callDepth < ctx.limits.callDepth := by
  have hprogress : d.start.machine.progress = c.entered.progress :=
    (c.ready_balance.part (balance_lawful ctx) h).2
  have hdepth : d.start.machine.callDepth = c.entered.callDepth := congrArg Prod.fst hprogress
  cases h with
  | body hentry => exact .inr ⟨rfl, rfl, (Call.entry_eq_ok_iff.mp hentry).2.1⟩
  | operand ht =>
    rw [Moment.entered_of_operand ht] at hdepth
    exact .inl ⟨rfl, hdepth⟩
  | _ => exact .inl ⟨rfl, hdepth⟩

end Balance

end Imperative
