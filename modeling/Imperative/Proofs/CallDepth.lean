import Imperative.Proofs.Moments.Depth
import Imperative.Proofs.Moments.Raising

/-!
# The depth of calls

A machine counts the bodies in progress, and the limit on calls is a limit on that count.  This
file shows that the count is right and that the limit is exact.  The bodies in progress at a moment
of a run are those of the calls that have led to it (`Moment.InProgress`), and their number is the
count, at the start of the moment and, if it ends, also at its end.  It never exceeds the limit;
and the fault that says so is raised by calls alone, exactly when as many bodies are in progress as
the limit allows (`Moment.DepthExact`).

What this comes to is seen with a function that counts down to zero by calling itself.  Called with
`n` it needs `n + 1` bodies at once, so it answers for every `n` below the limit and fails for every
other one (`calls_countDown`).
-/

namespace Imperative

open Imperative.Action

/-! ## The bodies in progress -/

/-- The function that a task calls. -/
def Task.callee? : Task → Option Function
  | .call g _ => some g
  | _ => none

/-- A moment comes up in a run while the bodies of these functions are in progress, the innermost
one first. -/
inductive Moment.InProgress (ctx : Context) (c : Moment) : List Function → Moment → Prop
  | start : Moment.InProgress ctx c [] c
  | part {gs : List Function} {d e : Moment} :
    Moment.InProgress ctx c gs d → Starts ctx d e →
      Moment.InProgress ctx c (d.task.callee?.toList ++ gs) e

/-- The part of a call is the body of the function, and no other part is a body. -/
theorem Starts.callDepth {ctx : Context} {c d : Moment} (h : Starts ctx c d) :
    d.start.machine.callDepth = c.start.machine.callDepth + c.task.callee?.toList.length := by
  rcases h.depth with ⟨hfuel, hdepth⟩ | ⟨hfuel, hdepth, -⟩
  · cases h with
    | body _ => exact absurd hfuel (Nat.succ_ne_self _).symm
    | _ => exact hdepth
  · cases h with
    | body _ => exact hdepth
    | _ => exact absurd hfuel (Nat.succ_ne_self _)

namespace Moment

variable {ctx : Context} {c d : Moment} {gs : List Function}

theorem InProgress.reaches (h : c.InProgress ctx gs d) : c.Reaches ctx d := by
  induction h with
  | start => exact .refl
  | part _ hstarts ih => exact ih.tail hstarts

theorem Reaches.inProgress (h : c.Reaches ctx d) : ∃ gs, c.InProgress ctx gs d := by
  induction h with
  | refl => exact ⟨[], .start⟩
  | tail _ hstarts ih =>
    obtain ⟨gs, hd⟩ := ih
    exact ⟨_, hd.part hstarts⟩

/-- **The count of bodies in progress is right.** -/
theorem InProgress.callDepth (h : c.InProgress ctx gs d) :
    d.start.machine.callDepth = c.start.machine.callDepth + gs.length := by
  induction h with
  | start => rfl
  | part _ hstarts ih =>
    rw [hstarts.callDepth, ih, List.length_append]
    omega

/-- **The limit on calls is kept.** -/
theorem InProgress.length_le (h : c.InProgress ctx gs d) (hc : c.start.machine.callDepth = 0) :
    gs.length ≤ ctx.limits.callDepth := by
  induction h with
  | start => exact Nat.zero_le _
  | @part gs d e hd hstarts ih =>
    have hdepth := hd.callDepth
    have hpart := hstarts.callDepth
    rw [List.length_append]
    rcases hstarts.depth with ⟨-, hsame⟩ | ⟨-, hdeeper, hbelow⟩ <;> omega

/-- A call with the right number of operands is refused if as many bodies are in progress as the
limit allows. -/
theorem fails_of_limit {fuel : Nat} {g : Function} {args : List Value} {s : Activation}
    (hargs : g.params.length = args.length) (hs : ctx.limits.callDepth ≤ s.machine.callDepth) :
    Moment.Fails ctx ⟨fuel + 1, .call g args, s⟩ (.callDepthExceeded ctx.limits.callDepth) s := by
  refine fails_call.mpr ⟨?_, rfl⟩
  have hentry : Call.entry ctx s.scope g args s.machine =
      .error (.callDepthExceeded ctx.limits.callDepth) := by
    rw [Call.entry, if_neg (not_not_intro hargs), Limits.admitCall, if_neg (Nat.not_lt.mpr hs)]
  rw [Context.calls, Call.dispatch_apply, hentry]

/-- The limit on calls refuses calls and nothing else. -/
theorem Refused.call {n : Nat} (h : d.Refused ctx (.callDepthExceeded n)) :
    d.task.callee?.isSome ∧ n = ctx.limits.callDepth ∧
      ctx.limits.callDepth ≤ d.start.machine.callDepth := by
  have hturns (taken : Nat) : ctx.limits.admitTurn taken ≠ .error (.callDepthExceeded n) := by
    unfold Limits.admitTurn
    split
    · nofun
    · split <;> nofun
  obtain ⟨fuel, task, s⟩ := d
  cases task with
  | call g args =>
    have hrefused : ctx.limits.admitCall s.machine.callDepth = .error (.callDepthExceeded n) := h
    unfold Limits.admitCall at hrefused
    split at hrefused
    · cases hrefused
    · next hdepth =>
      cases hrefused
      exact ⟨rfl, rfl, Nat.not_lt.mp hdepth⟩
  | whileTrue _ _ _ taken => exact absurd h (hturns taken)
  | range _ _ _ taken _ => exact absurd h (hturns taken)
  | _ => cases h

/-- The count of bodies in progress and the limit on it are exact over a whole run. -/
structure DepthExact (ctx : Context) (c : Moment) : Prop where
  /-- Whatever comes up in the run comes up while certain bodies are in progress. -/
  covered : ∀ d, c.Reaches ctx d → ∃ gs, c.InProgress ctx gs d
  /-- They are counted, and they are no more than the limit allows. -/
  counted : ∀ gs d, c.InProgress ctx gs d →
    d.start.machine.callDepth = gs.length ∧ gs.length ≤ ctx.limits.callDepth
  /-- They are counted also at the end of what comes up. -/
  restored : ∀ gs d r b, c.InProgress ctx gs d → d.task.run ctx d.fuel d.start = some (r, b) →
    b.machine.callDepth = gs.length
  /-- A body is counted while it runs. -/
  bodies : ∀ gs d e, c.InProgress ctx gs d → Starts ctx d e → d.task.callee?.isSome →
    1 ≤ e.start.machine.callDepth ∧ e.start.machine.callDepth ≤ ctx.limits.callDepth
  /-- The fault of the limit is raised by a call, when the limit is reached. -/
  raised : ∀ gs d n, c.InProgress ctx gs d → d.Raises ctx (.callDepthExceeded n) →
    d.task.callee?.isSome ∧ n = ctx.limits.callDepth ∧ gs.length = ctx.limits.callDepth
  /-- When the limit is reached, every call raises it, unless its operands are too few or too
  many. -/
  refused : ∀ gs fuel g args s, c.InProgress ctx gs ⟨fuel + 1, .call g args, s⟩ →
    gs.length = ctx.limits.callDepth → g.params.length = args.length →
      Moment.Fails ctx ⟨fuel + 1, .call g args, s⟩ (.callDepthExceeded ctx.limits.callDepth) s

theorem depthExact (hc : c.start.machine.callDepth = 0) : c.DepthExact ctx where
  covered d h := h.inProgress
  counted gs d h := by
    have hdepth := h.callDepth
    exact ⟨by omega, h.length_le hc⟩
  restored gs d r b h hrun := by
    have hend : b.machine.callDepth = d.start.machine.callDepth :=
      congrArg Prod.fst (Moment.progress_of_run hrun)
    have hdepth := h.callDepth
    omega
  bodies gs d e h hstarts hcallee := by
    have hdepth := (h.part hstarts).callDepth
    have hle := (h.part hstarts).length_le hc
    obtain ⟨g, hg⟩ := Option.isSome_iff_exists.mp hcallee
    rw [hg] at hdepth hle
    simp only [Option.toList_some, List.length_append, List.length_singleton] at hdepth hle
    omega
  raised gs d n h hraises := by
    obtain ⟨hcallee, hn, hreached⟩ := (hraises.refused rfl).call
    have hdepth := h.callDepth
    have hle := h.length_le hc
    exact ⟨hcallee, hn, by omega⟩
  refused gs fuel g args s h hreached hargs := by
    have hdepth : s.machine.callDepth = c.start.machine.callDepth + gs.length := h.callDepth
    exact fails_of_limit hargs (by omega)

end Moment

/-! ## Counting down -/

/-- A function that calls itself as often as it is told to, and counts the calls. -/
def countDown : Function where
  name := "down"
  params := [⟨"n", none⟩]
  body := [
    .cond (.compare .lt (.ident "n") (.int 1)) [.ret (some (.int 0))] [],
    .ret (some (.arith .add (.call "down" [.arith .sub (.ident "n") (.int 1)]) (.int 1)))]

/-- The scope of a call of the function. -/
def countDownScope (caller : Scope) (n : Int64) : Scope :=
  caller.child.define "n" { value := .int n }

section CountDown

variable {ctx : Context} {fuel : Nat} {caller : Scope} {n : Int64} {m m' : Machine}

theorem lookup_countDownScope : (countDownScope caller n).lookup "n" = some { value := .int n } := by
  rw [countDownScope, Scope.lookup_define, if_pos rfl]

theorem entry_countDown (hdepth : m.callDepth < ctx.limits.callDepth) :
    Call.entry ctx caller countDown [.int n] m = .ok (countDownScope caller n) :=
  Call.entry_eq_ok_iff.mpr ⟨rfl, hdepth, rfl⟩

theorem value_countDown (m : Machine) :
    (Expr.ident "n").run ctx fuel (countDownScope caller n) m = some (.ok (.int n), m) :=
  Expr.run_ident lookup_countDownScope

theorem test_countDown (ctx : Context) (fuel : Nat) (caller : Scope) (n : Int64) (m : Machine) :
    (Expr.compare .lt (.ident "n") (.int 1)).run ctx fuel (countDownScope caller n) m =
      some (.ok (.bool (decide (n.toInt < 1))), m) :=
  Expr.run_lt (value_countDown m)

/-- At zero the function returns. -/
theorem body_countDown_of_lt (h : n.toInt < 1) (m : Machine) :
    Stmt.execAll ctx (ctx.calls fuel) fuel .unit countDown.body ⟨countDownScope caller n, m⟩ =
      some (.error (.returned (.integer 0)), ⟨countDownScope caller n, m⟩) := by
  have htest := test_countDown ctx fuel caller n m
  rw [decide_eq_true h] at htest
  rw [countDown, Stmt.execAll]
  refine bind_eq_error.mpr (.inl ?_)
  rw [Stmt.exec]
  refine bind_eq_error.mpr (.inr ⟨true, _, Expr.test_eq_ok.mpr ⟨m, htest, rfl⟩, ?_⟩)
  rw [if_pos rfl, Stmt.execAll]
  refine bind_eq_error.mpr (.inl ?_)
  rw [Stmt.exec]
  rfl

/-- Above zero the function ends as the sum does that it returns. -/
theorem body_countDown_of_ge (h : ¬ n.toInt < 1) {e : Exit} {b : Activation}
    (hreturn : Stmt.run ctx fuel
        (.ret (some (.arith .add (.call "down" [.arith .sub (.ident "n") (.int 1)]) (.int 1))))
        ⟨countDownScope caller n, m⟩ = some (.error e, b)) :
    Stmt.execAll ctx (ctx.calls fuel) fuel .unit countDown.body ⟨countDownScope caller n, m⟩ =
      some (.error e, b) := by
  have htest := test_countDown ctx fuel caller n m
  rw [decide_eq_false h] at htest
  rw [countDown, Stmt.execAll]
  refine bind_eq_error.mpr (.inr ⟨.unit, ⟨countDownScope caller n, m⟩, ?_, ?_⟩)
  · rw [Stmt.exec]
    refine bind_eq_ok.mpr ⟨false, _, Expr.test_eq_ok.mpr ⟨m, htest, rfl⟩, ?_⟩
    rw [if_neg Bool.false_ne_true, Stmt.execAll, pure_apply]
  · rw [Stmt.execAll]
    exact bind_eq_error.mpr (.inl hreturn)

variable (hdown : ctx.functions["down"]? = some countDown)

include hdown

/-- The function calls itself with one less. -/
theorem call_countDown (m : Machine) :
    (Expr.call "down" [.arith .sub (.ident "n") (.int 1)]).run ctx fuel (countDownScope caller n) m =
      (do
        let c ← ctx.calls fuel (countDownScope caller n) countDown [.int (n - 1)]
        return c.value : Eval Value) m := by
  have hcallee : ctx.calleeOf (countDownScope caller n) "down" 1 = pure (.function countDown) := by
    rw [Context.calleeOf, Context.functionOf_eq hdown]
    rfl
  have hargs : Expr.evalAll ctx (ctx.calls fuel) (countDownScope caller n)
      [.arith .sub (.ident "n") (.int 1)] m = some (.ok [.int (n - 1)], m) := by
    rw [Expr.evalAll]
    refine bind_eq_ok.mpr ⟨.int (n - 1), m, ?_, rfl⟩
    rw [Expr.eval]
    exact bind_eq_ok.mpr ⟨.int n, m, value_countDown m, bind_eq_ok.mpr ⟨.int 1, m, rfl, rfl⟩⟩
  rw [Expr.run, Expr.eval]
  simp only [List.length_singleton, hcallee, pure_bind]
  rw [bind_apply, hargs]
  rfl

theorem body_countDown_of_returned (h : ¬ n.toInt < 1)
    (hcall : ctx.calls fuel (countDownScope caller n) countDown [.int (n - 1)] m =
      some (.ok (.returned (.integer (n - 1))), m')) :
    Stmt.execAll ctx (ctx.calls fuel) fuel .unit countDown.body ⟨countDownScope caller n, m⟩ =
      some (.error (.returned (.integer n)), ⟨countDownScope caller n, m'⟩) := by
  refine body_countDown_of_ge h ?_
  have hsum : n - 1 + 1 = n := Int64.sub_add_cancel n 1
  have hvalue : (Expr.call "down" [.arith .sub (.ident "n") (.int 1)]).run ctx fuel
      (countDownScope caller n) m = some (.ok (.int (n - 1)), m') := by
    rw [call_countDown hdown]
    exact bind_eq_ok.mpr ⟨_, m', hcall, rfl⟩
  rw [Stmt.run, Stmt.exec]
  refine bind_eq_error.mpr (.inr ⟨.int n, ⟨countDownScope caller n, m'⟩, ?_, rfl⟩)
  refine Exec.eval_eq_ok.mpr ⟨?_, rfl⟩
  rw [Expr.eval]
  refine bind_eq_ok.mpr ⟨_, m', hvalue, bind_eq_ok.mpr ⟨.int 1, m', rfl, ?_⟩⟩
  show some (Except.ok (Value.int (n - 1 + 1)), m') = some (Except.ok (Value.int n), m')
  rw [hsum]

theorem body_countDown_of_failed (h : ¬ n.toInt < 1) {f : Fault}
    (hcall : ctx.calls fuel (countDownScope caller n) countDown [.int (n - 1)] m =
      some (.error f, m')) :
    Stmt.execAll ctx (ctx.calls fuel) fuel .unit countDown.body ⟨countDownScope caller n, m⟩ =
      some (.error (.failed f), ⟨countDownScope caller n, m'⟩) := by
  refine body_countDown_of_ge h (Stmt.fails_of_operand rfl (Expr.fails_of_first rfl ?_) rfl)
  rw [call_countDown hdown]
  exact bind_eq_error.mpr (.inl hcall)

omit hdown in
theorem calls_countDown_of_body (hdepth : m.callDepth < ctx.limits.callDepth)
    {r : Except Exit Value} {b : Activation}
    (hbody : Stmt.execAll ctx (ctx.calls fuel) fuel .unit countDown.body
      ⟨countDownScope caller n, m.enterCall⟩ = some (r, b)) :
    ctx.calls (fuel + 1) caller countDown [.int n] m =
      match catchReturn r with
      | .ok c => some (.ok c, b.machine.leaveCall.record countDown.name c)
      | .error e => some (.error e.fault, b.machine.leaveCall) := by
  rw [Context.calls, Call.dispatch_apply, entry_countDown hdepth]
  simp only [hbody]
  cases catchReturn r with
  | ok c => exact Call.complete_apply _ _ _
  | error e => rfl

omit hdown in
theorem calls_countDown_of_limit (hdepth : ctx.limits.callDepth ≤ m.callDepth) :
    ctx.calls (fuel + 1) caller countDown [.int n] m =
      some (.error (.callDepthExceeded ctx.limits.callDepth), m) :=
  (Moment.fails_call.mp (Moment.fails_of_limit (s := ⟨caller, m⟩) rfl hdepth)).1

/-- **Counting down from a number takes one body more than the number says.** -/
theorem calls_countDown (j : Nat) (hn : n.toInt = j) (hfuel : j < fuel) :
    ∃ m', ctx.calls fuel caller countDown [.int n] m =
      some (if m.callDepth + j < ctx.limits.callDepth then .ok (.returned (.integer n))
        else .error (.callDepthExceeded ctx.limits.callDepth), m') := by
  induction j generalizing n fuel caller m with
  | zero =>
    obtain ⟨fuel, rfl⟩ := Nat.exists_eq_succ_of_ne_zero (Nat.ne_of_gt hfuel)
    have hzero : n = 0 := Int64.toInt_inj.mp hn
    subst hzero
    by_cases hdepth : m.callDepth < ctx.limits.callDepth
    · rw [Nat.add_zero, if_pos hdepth]
      exact ⟨_, calls_countDown_of_body hdepth (body_countDown_of_lt (by decide) m.enterCall)⟩
    · rw [Nat.add_zero, if_neg hdepth]
      exact ⟨m, calls_countDown_of_limit (Nat.not_lt.mp hdepth)⟩
  | succ j ih =>
    obtain ⟨fuel, rfl⟩ := Nat.exists_eq_succ_of_ne_zero (Nat.ne_zero_of_lt hfuel)
    have hpos : ¬ n.toInt < 1 := by omega
    have hpred : (n - 1).toInt = j := by
      have hlt := n.toInt_lt
      have hone : (1 : Int64).toInt = 1 := rfl
      rw [Int64.toInt_sub, hone, Int.bmod_eq_of_le] <;> omega
    by_cases hdepth : m.callDepth < ctx.limits.callDepth
    · obtain ⟨m', hcall⟩ : ∃ m', ctx.calls fuel (countDownScope caller n) countDown
          [.int (n - 1)] m.enterCall =
            some (if m.callDepth + 1 + j < ctx.limits.callDepth then
                .ok (.returned (.integer (n - 1)))
              else .error (.callDepthExceeded ctx.limits.callDepth), m') :=
        ih hpred (by omega)
      by_cases hlimit : m.callDepth + 1 + j < ctx.limits.callDepth
      · rw [if_pos hlimit] at hcall
        rw [if_pos (by omega)]
        exact ⟨_, calls_countDown_of_body hdepth (body_countDown_of_returned hdown hpos hcall)⟩
      · rw [if_neg hlimit] at hcall
        rw [if_neg (by omega)]
        exact ⟨_, calls_countDown_of_body hdepth (body_countDown_of_failed hdown hpos hcall)⟩
    · rw [if_neg (by omega)]
      exact ⟨m, calls_countDown_of_limit (Nat.not_lt.mp hdepth)⟩

end CountDown

/-! ## What a host does -/

/-- A moment of a run raises this fault. -/
def Moment.RaisedWithin (ctx : Context) (c : Moment) (f : Fault) : Prop :=
  ∃ gs d, c.InProgress ctx gs d ∧ d.Raises ctx f

theorem Moment.Fails.raisedWithin {ctx : Context} {c : Moment} {f : Fault} {b : Activation}
    (h : c.Fails ctx f b) : c.RaisedWithin ctx f := by
  obtain ⟨d, hreaches, hraises⟩ := h.reaches_raises
  obtain ⟨gs, hd⟩ := Moment.Reaches.inProgress hreaches
  exact ⟨gs, d, hd, hraises⟩

namespace Interpreter

variable {i : Interpreter} {fuel : Nat} {n : Nat}

/-- If the run of a program fails at the limit on calls, then a moment of the run has raised the
fault. -/
theorem raisedWithin_of_runIn {scope : Scope} {p : Program} {ran : Ran}
    (h : i.runIn fuel scope p = some ran) (hran : ran.result = .error (.callDepthExceeded n)) :
    Moment.RaisedWithin (i.declareAll p.functions).context
      ⟨fuel, .execAll .unit p.statements, ⟨scope, i.machine⟩⟩ (.callDepthExceeded n) := by
  rcases execute_eq_some h with ⟨v, b, -, rfl⟩ | ⟨e, b, hexec, rfl⟩
  · cases hran
  · rw [machine_declareAll] at hexec
    cases e with
    | failed f =>
      cases hran
      exact (Moment.fails_execAll.mpr (Program.exec_eq_error.mp hexec)).raisedWithin
    | _ => cases hran

theorem raisedWithin_of_complete {i' : Interpreter} {name : String} {g : Function}
    {args : List Value} (hg : i.functions[name]? = some g)
    (h : i.complete fuel name args = some (.error (.callDepthExceeded n), i')) :
    Moment.RaisedWithin i.context ⟨fuel, .call g args, ⟨.root, i.machine⟩⟩
      (.callDepthExceeded n) := by
  obtain ⟨m, hcall, -⟩ := complete_eq_some hg h
  have hfails : Moment.Fails i.context ⟨fuel, .call g args, ⟨.root, i.machine⟩⟩
      (.callDepthExceeded n) ⟨.root, m⟩ := Moment.fails_call.mpr ⟨hcall, rfl⟩
  exact hfails.raisedWithin

theorem call_countDown {n : Int64} (hdown : i.functions["down"]? = some countDown)
    (hi : i.machine.callDepth = 0) (hn : 0 ≤ n.toInt) (hfuel : n.toInt < fuel) :
    ∃ i', i.call fuel "down" [.int n] =
      some (if n.toInt < i.limits.callDepth then .ok (.int n)
        else .error (.callDepthExceeded i.limits.callDepth), i') := by
  obtain ⟨j, hj⟩ := Int.eq_ofNat_of_zero_le hn
  obtain ⟨m', hcall⟩ : ∃ m', i.context.calls fuel .root countDown [.int n] i.machine =
      some (if i.machine.callDepth + j < i.limits.callDepth then .ok (.returned (.integer n))
        else .error (.callDepthExceeded i.limits.callDepth), m') :=
    calls_countDown hdown j hj (by omega)
  refine ⟨{ i with machine := m' }, ?_⟩
  rw [call, complete_of_calls hdown hcall]
  by_cases hlimit : n.toInt < i.limits.callDepth
  · rw [if_pos hlimit, if_pos (by omega)]
    rfl
  · rw [if_neg hlimit, if_neg (by omega)]
    rfl

end Interpreter

/-- **The depth of calls is exact.**  Over a whole run that starts with no body in progress, the
count of bodies in progress is right and never exceeds the limit, bodies run only while it is
between one and the limit, and the fault of the limit is raised exactly when the limit is reached.
This holds of the run of a program and of a call by a host, with all functions and limits, whatever
the run catches and tries again; and if such an operation fails at the limit, then its run has
raised the fault.  A function that counts down from a number answers if the number is below the
limit, and fails if it is not. -/
theorem call_depth_exact (fuel : Nat) (i : Interpreter) (hi : i.machine.callDepth = 0) :
    (∀ (scope : Scope) (p : Program),
      Moment.DepthExact (i.declareAll p.functions).context
          ⟨fuel, .execAll .unit p.statements, ⟨scope, i.machine⟩⟩ ∧
        ∀ ran n, i.runIn fuel scope p = some ran → ran.result = .error (.callDepthExceeded n) →
          Moment.RaisedWithin (i.declareAll p.functions).context
            ⟨fuel, .execAll .unit p.statements, ⟨scope, i.machine⟩⟩ (.callDepthExceeded n)) ∧
    (∀ (name : String) (g : Function) (args : List Value), i.functions[name]? = some g →
      Moment.DepthExact i.context ⟨fuel, .call g args, ⟨.root, i.machine⟩⟩ ∧
        ∀ i' n, i.complete fuel name args = some (.error (.callDepthExceeded n), i') →
          Moment.RaisedWithin i.context ⟨fuel, .call g args, ⟨.root, i.machine⟩⟩
            (.callDepthExceeded n)) ∧
    (∀ n : Int64, i.functions["down"]? = some countDown → 0 ≤ n.toInt → n.toInt < fuel →
      ∃ i', i.call fuel "down" [.int n] =
        some (if n.toInt < i.limits.callDepth then .ok (.int n)
          else .error (.callDepthExceeded i.limits.callDepth), i')) := by
  refine ⟨?program, ?host, ?law⟩
  case program =>
    intro scope p
    exact ⟨Moment.depthExact hi, fun ran n h hran => Interpreter.raisedWithin_of_runIn h hran⟩
  case host =>
    intro name g args hg
    exact ⟨Moment.depthExact hi, fun i' n h => Interpreter.raisedWithin_of_complete hg h⟩
  case law =>
    intro n hdown hn hfuel
    exact Interpreter.call_countDown hdown hi hn hfuel

/-- At most two bodies in progress, and the function that counts down. -/
def twoDeep : Interpreter := ({ limits := { callDepth := 2 } } : Interpreter).declare countDown

/-- With two bodies the function counts down from one.  Counting down from two fails, and what it
fails with is raised while it is in progress twice. -/
theorem call_depth_exact_twoDeep :
    (∃ i', twoDeep.call 3 "down" [.int 1] = some (.ok (.int 1), i')) ∧
      (∃ i', twoDeep.call 3 "down" [.int 2] = some (.error (.callDepthExceeded 2), i')) ∧
      ∃ gs d, Moment.InProgress twoDeep.context
          ⟨3, .call countDown [.int 2], ⟨.root, {}⟩⟩ gs d ∧
        d.Raises twoDeep.context (.callDepthExceeded 2) ∧ gs.length = 2 := by
  have hdown : twoDeep.functions["down"]? = some countDown := by
    simp [twoDeep, Interpreter.declare, countDown]
  obtain ⟨-, hhost, hlaw⟩ := call_depth_exact 3 twoDeep rfl
  have hfails := hlaw 2 hdown (by decide) (by decide)
  refine ⟨hlaw 1 hdown (by decide) (by decide), hfails, ?_⟩
  obtain ⟨i', hcall⟩ := hfails
  obtain ⟨⟨r, i''⟩, hcomplete, hr⟩ := Option.map_eq_some_iff.mp hcall
  cases r with
  | ok c => cases hr
  | error f =>
    cases hr
    obtain ⟨hexact, hraised⟩ := hhost "down" countDown [.int 2] hdown
    obtain ⟨gs, d, hd, hraises⟩ := hraised i' 2 hcomplete
    exact ⟨gs, d, hd, hraises, (hexact.raised gs d 2 hd hraises).2.2⟩

end Imperative
