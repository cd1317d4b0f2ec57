import Imperative.Execution

/-!
# Calls

The call boundary.  A call that is admitted runs the body of the function in a new scope
inside the scope of the caller, and catches the return of the body if there is one.  What
else the body may end with does not cross the boundary as it is: a failure goes on as a
failure, and a break or a continue that found no loop in the body is a fault.

A call is admitted if the number of operands is right, one more body may be in progress,
and every annotated parameter admits its operand.  Until it is admitted nothing has
happened; in particular it is not counted.

Functions call each other without end, so the meaning of calls is a recursion on *fuel*
(`Context.calls`): with no fuel left a call is unfinished.  One number bounds the nesting of
calls and serves as the patience of every loop, so "some amount of fuel is enough" is
what it means that a run terminates.
-/

namespace Imperative

namespace Call

/-- Binds parameters to operands, in order, provided that their annotations admit them. -/
def bind (h : Heap) : List Param → List Value → Scope → Except Fault Scope
  | p :: ps, v :: vs, scope =>
    match scope.declare h p.name p.ty v with
    | .ok scope => bind h ps vs scope
    | .error f => .error f
  | _, _, scope => .ok scope

/-- The scope in which the body of a call runs, if the call is admitted. -/
def entry (ctx : Context) (caller : Scope) (f : Function) (args : List Value) (m : Machine) :
    Except Fault Scope :=
  if f.params.length ≠ args.length then
    .error (.arityMismatch f.name f.params.length args.length)
  else
    match ctx.limits.admitCall m.callDepth with
    | .ok () => bind m.heap f.params args caller.child
    | .error f => .error f

/-- Takes note of how a body ended, and checks the value of the call. -/
def complete (f : Function) (c : Completion) : Eval Completion := do
  Eval.change fun m => ((), m.record f.name c)
  Eval.read (·.checkTyped c.value f.result)
  return c

/-- Calls a function: `run` executes its body. -/
def dispatch (ctx : Context) (run : List Stmt → Exec Value)
    (caller : Scope) (f : Function) (args : List Value) : Eval Completion := do
  let scope ← fun m => some (entry ctx caller f args m, m)
  Eval.change fun m => ((), m.enterCall)
  let outcome ← Exec.inScope scope (run f.body)
  Eval.change fun m => ((), m.leaveCall)
  match catchReturn outcome with
  | .ok c => complete f c
  | .error e => throw e.fault

@[simp] theorem bind_no_params (h : Heap) (args : List Value) (scope : Scope) :
    bind h [] args scope = .ok scope := by
  cases args <;> rfl

@[simp] theorem bind_no_args (h : Heap) (ps : List Param) (scope : Scope) :
    bind h ps [] scope = .ok scope := by
  cases ps <;> rfl

theorem entry_eq_ok_iff {ctx : Context} {caller : Scope} {f : Function} {args : List Value}
    {m : Machine} {scope : Scope} :
    entry ctx caller f args m = .ok scope ↔
      f.params.length = args.length ∧ m.callDepth < ctx.limits.callDepth ∧
        bind m.heap f.params args caller.child = .ok scope := by
  unfold entry Limits.admitCall
  by_cases hlen : f.params.length = args.length <;>
    by_cases hdepth : m.callDepth < ctx.limits.callDepth <;> simp [hlen, hdepth]

theorem complete_apply (f : Function) (c : Completion) (m : Machine) :
    complete f c m =
      some ((m.heap.checkTyped c.value f.result).map fun _ => c, m.record f.name c) := by
  simp only [complete, Action.bind_apply, Eval.change, Eval.read, Machine.heap_record]
  cases m.heap.checkTyped c.value f.result <;> rfl

/-- What a call does, in one piece: it is not admitted, or its body is executed and the
outcome caught. -/
theorem dispatch_apply (ctx : Context) (run : List Stmt → Exec Value) (caller : Scope)
    (f : Function) (args : List Value) (m : Machine) :
    dispatch ctx run caller f args m =
      match entry ctx caller f args m with
      | .error g => some (.error g, m)
      | .ok scope =>
        match run f.body ⟨scope, m.enterCall⟩ with
        | none => none
        | some (outcome, b) =>
          match catchReturn outcome with
          | .ok c => complete f c b.machine.leaveCall
          | .error e => some (.error e.fault, b.machine.leaveCall) := by
  simp only [dispatch, Action.bind_apply]
  cases entry ctx caller f args m with
  | error g => rfl
  | ok scope =>
    simp only [Eval.change, Exec.inScope]
    cases run f.body ⟨scope, m.enterCall⟩ with
    | none => rfl
    | some p =>
      obtain ⟨outcome, b⟩ := p
      simp only
      cases catchReturn outcome <;> rfl

/-- A call that succeeds was admitted, its body was completed, and its value was admitted by
the annotation of the result. -/
theorem dispatch_eq_ok {ctx : Context} {run : List Stmt → Exec Value} {caller : Scope}
    {f : Function} {args : List Value} {m m' : Machine} {c : Completion}
    (h : dispatch ctx run caller f args m = some (.ok c, m')) :
    ∃ scope outcome b, entry ctx caller f args m = .ok scope ∧
      run f.body ⟨scope, m.enterCall⟩ = some (outcome, b) ∧ catchReturn outcome = .ok c ∧
        b.machine.heap.checkTyped c.value f.result = .ok () ∧
          m' = b.machine.leaveCall.record f.name c := by
  rw [dispatch_apply] at h
  split at h
  · cases h
  · next scope hscope =>
    split at h
    · cases h
    · next outcome b hrun =>
      split at h
      · next c' hc =>
        rw [complete_apply] at h
        cases hcheck : b.machine.heap.checkTyped c'.value f.result with
        | ok u =>
          simp only [Machine.heap_leaveCall, hcheck] at h
          cases h
          exact ⟨scope, outcome, b, hscope, hrun, hc, hcheck, rfl⟩
        | error g =>
          simp only [Machine.heap_leaveCall, hcheck] at h
          cases h
      · cases h

/-- The three ways a call can fail: it is not admitted, the annotation of the result refuses
the value of its body, or its body ends with an exit that is no return. -/
theorem dispatch_eq_error {ctx : Context} {run : List Stmt → Exec Value} {caller : Scope}
    {f : Function} {args : List Value} {m m' : Machine} {g : Fault}
    (h : dispatch ctx run caller f args m = some (.error g, m')) :
    (entry ctx caller f args m = .error g ∧ m' = m) ∨
      ∃ scope outcome b, entry ctx caller f args m = .ok scope ∧
        run f.body ⟨scope, m.enterCall⟩ = some (outcome, b) ∧
          ((∃ c, catchReturn outcome = .ok c ∧
              b.machine.heap.checkTyped c.value f.result = .error g ∧
                m' = b.machine.leaveCall.record f.name c) ∨
            ∃ e, catchReturn outcome = .error e ∧ g = e.fault ∧ m' = b.machine.leaveCall) := by
  rw [dispatch_apply] at h
  split at h
  · next g' hg =>
    cases h
    exact .inl ⟨hg, rfl⟩
  · next scope hscope =>
    split at h
    · cases h
    · next outcome b hrun =>
      refine .inr ⟨scope, outcome, b, hscope, hrun, ?_⟩
      split at h
      · next c hc =>
        rw [complete_apply] at h
        cases hcheck : b.machine.heap.checkTyped c.value f.result with
        | ok u =>
          simp only [Machine.heap_leaveCall, hcheck] at h
          cases h
        | error g' =>
          simp only [Machine.heap_leaveCall, hcheck] at h
          cases h
          exact .inl ⟨c, hc, hcheck, rfl⟩
      · next e he =>
        cases h
        exact .inr ⟨e, he, rfl, rfl⟩

end Call

/-- The meaning of calls, with an amount of fuel. -/
def Context.calls (ctx : Context) : Nat → Calls
  | 0 => fun _ _ _ => Eval.unfinished
  | fuel + 1 => Call.dispatch ctx (Stmt.execAll ctx (ctx.calls fuel) fuel .unit)

/-- Executes a statement, with an amount of fuel. -/
def Stmt.run (ctx : Context) (fuel : Nat) (s : Stmt) : Exec Value :=
  s.exec ctx (ctx.calls fuel) fuel

/-- Evaluates an expression, with an amount of fuel. -/
def Expr.run (ctx : Context) (fuel : Nat) (scope : Scope) (e : Expr) : Eval Value :=
  e.eval ctx (ctx.calls fuel) scope

end Imperative
