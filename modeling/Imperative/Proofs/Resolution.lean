import Imperative.Proofs.Normalization
import Imperative.Proofs.Refinement

/-!
# What a call goes to

A call by name settles first which function it goes to, then evaluates the operands, and then calls
that function with their values (`Function.applied`).  There are two ways from a name to a function:
the function may be declared under the name, or a variable of the name may refer to a declared
function.  The names of the builtins go neither way.

A host goes the first way.  It has the values already, so it settles which function it calls *after*
what a program would do first.  That it comes to the same function is because evaluations have no
access to the declared functions: they are part of the context of an evaluation, and not of the
machine that it changes.
-/

namespace Imperative

open Imperative.Action

/-! ## Calls by name -/

/-- Evaluates operands, calls the function with their values, and yields the value of the call. -/
def Function.applied (f : Function) (ctx : Context) (fuel : Nat) (scope : Scope)
    (args : List Expr) : Eval Value := do
  let vs ← Expr.evalAll ctx (ctx.calls fuel) scope args
  return (← ctx.calls fuel scope f vs).value

theorem Builtin.ofName?_eq_none {name : String} (h : ∀ b : Builtin, b.name ≠ name) :
    Builtin.ofName? name = none := by
  have hlen : name ≠ "len" := (h .len).symm
  have hpush : name ≠ "push" := (h .push).symm
  rw [ofName?, if_neg hlen, if_neg hpush]

section Calls

variable {ctx : Context} {scope : Scope} {name : String} {f : Function} {m : Machine}

/-- Once it is settled what a name stands for as a function, that function is applied. -/
theorem Expr.run_call_of_functionOf (hname : ∀ b : Builtin, b.name ≠ name)
    (hf : ctx.functionOf scope name m = some (.ok f, m)) (fuel : Nat) (args : List Expr) :
    (Expr.call name args).run ctx fuel scope m = f.applied ctx fuel scope args m := by
  have hcallee : ctx.calleeOf scope name args.length m = some (.ok (.function f), m) := by
    rw [Context.calleeOf, Builtin.ofName?_eq_none hname]
    dsimp only
    rw [bind_apply, hf]
    rfl
  rw [Expr.run, Expr.eval, bind_apply, hcallee]
  rfl

/-- A call by the name of a declared function goes to that function. -/
theorem Expr.run_call_of_declared (hname : ∀ b : Builtin, b.name ≠ name)
    (hf : ctx.functions[name]? = some f) (fuel : Nat) (scope : Scope) (args : List Expr)
    (m : Machine) :
    (Expr.call name args).run ctx fuel scope m = f.applied ctx fuel scope args m := by
  refine run_call_of_functionOf hname ?_ fuel args
  rw [Context.functionOf_eq hf, pure_apply]

/-- After operands that have been evaluated, what is left of a call is the call. -/
theorem Function.applied_of_evalAll {fuel : Nat} {args : List Expr} {vs : List Value}
    {m' : Machine} (hargs : Expr.evalAll ctx (ctx.calls fuel) scope args m = some (.ok vs, m')) :
    f.applied ctx fuel scope args m =
      (ctx.calls fuel scope f vs m').map fun (r, m) => (r.map Completion.value, m) := by
  rw [applied, bind_apply, hargs]
  dsimp only
  rw [bind_apply]
  cases ctx.calls fuel scope f vs m' with
  | none => rfl
  | some p =>
    obtain ⟨r, m⟩ := p
    cases r <;> rfl

end Calls

/-! ## Programs of one call -/

/-- The program that calls a name and does nothing else. -/
def Program.calling (name : String) (args : List Expr) : Program where
  items := [.statement (.expr (.call name args))]

namespace Interpreter

/-- The state after a run, if the run comes down to one call in a scope of its own. -/
def Ran.ofCall (result : Except Fault Value) (i : Interpreter) : Ran :=
  ⟨result.map some, .root, i⟩

/-- A program of one expression has the value or the fault of the expression.  It is executed at
the top level, where a fault is the only exit that an expression can end with. -/
theorem runIn_expr (fuel : Nat) (i : Interpreter) (e : Expr) :
    i.runIn fuel .root ⟨[.statement (.expr e)]⟩ =
      (e.run i.context fuel .root i.machine).map fun (r, m) =>
        Ran.ofCall r { i with machine := m } := by
  obtain ⟨limits, functions, machine⟩ := i
  have hexec : Program.exec ⟨limits, functions⟩ fuel [.expr e] =
      some <$> Exec.eval fun scope => e.run ⟨limits, functions⟩ fuel scope := by
    rw [Program.exec, Stmt.execAll_singleton, Stmt.exec]
    rfl
  change execute fuel ⟨limits, functions, machine⟩ .root [.expr e] = _
  rw [execute, hexec, map_eq_pure_bind, bind_apply, Exec.eval, context]
  dsimp only
  cases e.run ⟨limits, functions⟩ fuel .root machine with
  | none => rfl
  | some p =>
    obtain ⟨r, m⟩ := p
    cases r <;> rfl

/-- A host calls a declared function with values and with nothing in scope. -/
theorem complete_eq_calls {i : Interpreter} {name : String} {f : Function}
    (hf : i.functions[name]? = some f) (fuel : Nat) (vs : List Value) :
    i.complete fuel name vs =
      (i.context.calls fuel .root f vs i.machine).map
        fun (r, m) => (r, { i with machine := m }) := by
  cases hcalls : i.context.calls fuel .root f vs i.machine with
  | none =>
    cases hcomplete : i.complete fuel name vs with
    | none => rfl
    | some p =>
      obtain ⟨m, hm, -⟩ := complete_eq_some hf hcomplete
      rw [hcalls] at hm
      cases hm
  | some p => exact complete_of_calls hf hcalls

end Interpreter

/-- **A host call is a call.**  Let `f` be declared under a name that is not the name of a builtin,
and let operands be evaluated, in a scope with nothing in it, to the values `vs`, which leads from
the machine of `i` to `m'`.  With as much fuel as that takes, or more, the program that calls the
name with these operands ends exactly as the call by the host from `m'` with the values `vs`: there
is an outcome of the one if there is an outcome of the other, with the same value or the same fault,
and the state is the same, of which the trace is a part.  The call by the host is the call that
tells how the body ended, with the value taken out.  And the body that is executed is that of `f`,
which was declared before any operand was evaluated. -/
theorem host_calls_agree {i : Interpreter} {name : String} {f : Function} {args : List Expr}
    {vs : List Value} {enough : Nat} {m' : Machine} (hname : ∀ b : Builtin, b.name ≠ name)
    (hf : i.functions[name]? = some f)
    (hargs : Expr.evalAll i.context (i.context.calls enough) .root args i.machine =
      some (.ok vs, m')) :
    ∀ fuel, enough ≤ fuel →
      i.runIn fuel .root (.calling name args) =
        (Interpreter.call fuel { i with machine := m' } name vs).map
          (fun (r, k) => .ofCall r k) ∧
      Interpreter.call fuel { i with machine := m' } name vs =
        (Interpreter.complete fuel { i with machine := m' } name vs).map
          (fun (r, k) => (r.map Completion.value, k)) ∧
      Interpreter.complete fuel { i with machine := m' } name vs =
        (i.context.calls fuel .root f vs m').map (fun (r, m) => (r, { i with machine := m })) := by
  intro fuel hfuel
  have hargs' := Expr.evalAll_of_le hfuel hargs
  have hcomplete : Interpreter.complete fuel { i with machine := m' } name vs =
      (i.context.calls fuel .root f vs m').map (fun (r, m) => (r, { i with machine := m })) :=
    Interpreter.complete_eq_calls (i := { i with machine := m' }) hf fuel vs
  refine ⟨?program, rfl, hcomplete⟩
  case program =>
    have hcall : (Expr.call name args).run i.context fuel .root i.machine =
        f.applied i.context fuel .root args i.machine :=
      Expr.run_call_of_declared hname hf fuel .root args i.machine
    rw [Program.calling, Interpreter.runIn_expr, hcall, Function.applied_of_evalAll hargs',
      Interpreter.call, hcomplete, Option.map_map, Option.map_map, Option.map_map]
    rfl

/-- A function that fails unless its second operand is true, and otherwise returns the first one. -/
def keepsIf : Function where
  name := "keepsIf"
  params := [{ name := "x" }, { name := "really", ty := some .bool }]
  body := [.cond (.ident "really") [.ret (some (.ident "x"))] [.raise (.ident "x")]]

/-- The operands of a call of it. -/
def keptAndCalled : List Expr := [.text "kept", .call "keepsIf" [.bool true, .bool true]]

/-- One operand is a string, and the other one is a call of the same function, which is on record in
the state that the host calls from. -/
theorem host_calls_agree_keptAndCalled :
    let i : Interpreter := Interpreter.declare {} keepsIf
    ∃ m' k, Expr.evalAll i.context (i.context.calls 2) .root keptAndCalled i.machine =
        some (.ok [.ref ⟨0⟩, .bool true], m') ∧
      m'.trace.toList = [.returnCaught "keepsIf" .boolean] ∧
      Interpreter.call 2 { i with machine := m' } "keepsIf" [.ref ⟨0⟩, .bool true] =
        some (.ok (.ref ⟨0⟩), k) ∧
      i.runIn 2 .root (.calling "keepsIf" keptAndCalled) = some (.ofCall (.ok (.ref ⟨0⟩)) k) := by
  intro i
  have hname : ∀ b : Builtin, b.name ≠ "keepsIf" := by
    intro b
    cases b <;> decide
  have hf : i.functions["keepsIf"]? = some keepsIf := Std.ExtTreeMap.getElem?_insert_self
  have hagree := fun (m' : Machine)
      (hargs : Expr.evalAll i.context (i.context.calls 2) .root keptAndCalled i.machine =
        some (.ok [.ref ⟨0⟩, .bool true], m')) =>
    (host_calls_agree hname hf hargs 2 (Nat.le_refl 2)).1
  exact ⟨_, _, rfl, rfl, rfl, hagree _ rfl⟩

end Imperative
