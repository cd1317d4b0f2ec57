import Imperative.Call

/-!
# The interpreter

What a host holds: the limits, the functions declared so far, and the machine.  A host
declares functions, runs programs in scopes of its own keeping, and calls functions by
name.  Whatever one operation leaves behind is what the next one starts from, also if the
operation failed.

A program is run by declaring all its functions and then executing its statements in
order in the given scope.  Nothing catches a return, a break or a continue at the top
level, so there they are faults; a return is also put on record.

Every operation that may not terminate takes an amount of fuel and answers `none` when
the fuel was not enough.
-/

namespace Imperative

/-- An interpreter. -/
structure Interpreter where
  limits : Limits := {}
  functions : Std.ExtTreeMap String Function := ∅
  machine : Machine := {}
deriving Inhabited

/-- Takes note of an exit that reached the top level. -/
def Machine.escape (m : Machine) : Exit → Machine
  | .returned s => m.emit (.returnEscaped s.kind)
  | _ => m

@[simp] theorem Machine.heap_escape (m : Machine) (e : Exit) : (m.escape e).heap = m.heap := by
  cases e <;> rfl

/-- Executes the statements of a program.  The value is that of the last one; a program
without statements has none. -/
def Program.exec (ctx : Context) (fuel : Nat) : List Stmt → Exec (Option Value)
  | [] => pure none
  | s :: rest => some <$> Stmt.execAll ctx (ctx.calls fuel) fuel .unit (s :: rest)

namespace Interpreter

/-- What evaluations are carried out under. -/
def context (i : Interpreter) : Context := ⟨i.limits, i.functions⟩

/-- Declares a function, in place of an earlier one of the same name. -/
def declare (i : Interpreter) (f : Function) : Interpreter :=
  { i with functions := i.functions.insert f.name f }

/-- Declares functions in order. -/
def declareAll (i : Interpreter) (fs : List Function) : Interpreter := fs.foldl declare i

/-- The state after a run of a program, and the value or the fault it ended with. -/
structure Ran where
  result : Except Fault (Option Value)
  scope : Scope
  interpreter : Interpreter

/-- Executes statements at the top level. -/
def execute (fuel : Nat) (i : Interpreter) (scope : Scope) (body : List Stmt) : Option Ran :=
  match i with
  | ⟨limits, functions, machine⟩ =>
    match Program.exec ⟨limits, functions⟩ fuel body ⟨scope, machine⟩ with
    | none => none
    | some (.ok v, ⟨scope, machine⟩) => some ⟨.ok v, scope, ⟨limits, functions, machine⟩⟩
    | some (.error e, ⟨scope, machine⟩) =>
      some ⟨.error e.fault, scope, ⟨limits, functions, machine.escape e⟩⟩

/-- Runs a program in a scope. -/
def runIn (fuel : Nat) (i : Interpreter) (scope : Scope) (p : Program) : Option Ran :=
  (i.declareAll p.functions).execute fuel scope p.statements

/-- Runs a program in a scope of its own, which is gone afterwards, as is its value. -/
def run (fuel : Nat) (i : Interpreter) (p : Program) : Option (Except Fault Unit × Interpreter) :=
  (i.runIn fuel .root p).map fun r => (r.result.map fun _ => (), r.interpreter)

/-- Carries out an evaluation. -/
def evaluate {α : Type} (i : Interpreter) (x : Context → Eval α) :
    Option (Except Fault α × Interpreter) :=
  match i with
  | ⟨limits, functions, machine⟩ =>
    match x ⟨limits, functions⟩ machine with
    | none => none
    | some (r, machine) => some (r, ⟨limits, functions, machine⟩)

/-- Calls a function by name, with nothing in scope, and tells how its body ended.  The
builtins are no functions in this sense. -/
def complete (fuel : Nat) (i : Interpreter) (name : String) (args : List Value) :
    Option (Except Fault Completion × Interpreter) :=
  i.evaluate fun ctx => do
    let f ← ctx.functionOf .root name
    ctx.calls fuel .root f args

/-- Calls a function by name, with nothing in scope. -/
def call (fuel : Nat) (i : Interpreter) (name : String) (args : List Value) :
    Option (Except Fault Value × Interpreter) :=
  (i.complete fuel name args).map fun (r, i) => (r.map Completion.value, i)

/-! ## What the operations do, in one piece -/

@[simp] theorem machine_declareAll (i : Interpreter) (fs : List Function) :
    (i.declareAll fs).machine = i.machine := by
  induction fs generalizing i with
  | nil => rfl
  | cons f fs ih => exact ih (i.declare f)

@[simp] theorem limits_declareAll (i : Interpreter) (fs : List Function) :
    (i.declareAll fs).limits = i.limits := by
  induction fs generalizing i with
  | nil => rfl
  | cons f fs ih => exact ih (i.declare f)

theorem execute_eq_some {fuel : Nat} {i : Interpreter} {scope : Scope} {body : List Stmt}
    {ran : Ran} (h : i.execute fuel scope body = some ran) :
    (∃ v b, Program.exec i.context fuel body ⟨scope, i.machine⟩ = some (.ok v, b) ∧
        ran = ⟨.ok v, b.scope, { i with machine := b.machine }⟩) ∨
      ∃ e b, Program.exec i.context fuel body ⟨scope, i.machine⟩ = some (.error e, b) ∧
        ran = ⟨.error e.fault, b.scope, { i with machine := b.machine.escape e }⟩ := by
  obtain ⟨limits, functions, machine⟩ := i
  simp only [execute] at h
  split at h <;> cases h
  · next v s m hrun => exact .inl ⟨v, ⟨s, m⟩, hrun, rfl⟩
  · next e s m hrun => exact .inr ⟨e, ⟨s, m⟩, hrun, rfl⟩

theorem execute_of_ok {fuel : Nat} {i : Interpreter} {scope : Scope} {body : List Stmt}
    {v : Option Value} {b : Activation}
    (h : Program.exec i.context fuel body ⟨scope, i.machine⟩ = some (.ok v, b)) :
    i.execute fuel scope body = some ⟨.ok v, b.scope, { i with machine := b.machine }⟩ := by
  obtain ⟨limits, functions, machine⟩ := i
  rw [context] at h
  rw [execute, h]

theorem execute_of_error {fuel : Nat} {i : Interpreter} {scope : Scope} {body : List Stmt}
    {e : Exit} {b : Activation}
    (h : Program.exec i.context fuel body ⟨scope, i.machine⟩ = some (.error e, b)) :
    i.execute fuel scope body =
      some ⟨.error e.fault, b.scope, { i with machine := b.machine.escape e }⟩ := by
  obtain ⟨limits, functions, machine⟩ := i
  rw [context] at h
  rw [execute, h]

theorem evaluate_of_some {α : Type} {i : Interpreter} {x : Context → Eval α} {r : Except Fault α}
    {m : Machine} (h : x i.context i.machine = some (r, m)) :
    i.evaluate x = some (r, { i with machine := m }) := by
  obtain ⟨limits, functions, machine⟩ := i
  rw [context] at h
  rw [evaluate, h]

theorem evaluate_eq_some {α : Type} {i i' : Interpreter} {x : Context → Eval α}
    {r : Except Fault α} (h : i.evaluate x = some (r, i')) :
    ∃ m, x i.context i.machine = some (r, m) ∧ i' = { i with machine := m } := by
  obtain ⟨limits, functions, machine⟩ := i
  simp only [evaluate] at h
  split at h <;> cases h
  next r m hrun => exact ⟨m, hrun, rfl⟩

/-- The functions declared in the end are those that were there and those that are declared. -/
theorem functions_declareAll {i : Interpreter} {fs : List Function} {name : String}
    {f : Function} (h : (i.declareAll fs).functions[name]? = some f) :
    f ∈ fs ∨ i.functions[name]? = some f := by
  induction fs generalizing i with
  | nil => exact .inr h
  | cons g gs ih =>
    rcases ih h with hmem | hdeclared
    · exact .inl (List.mem_cons_of_mem g hmem)
    · have hinsert : (i.functions.insert g.name g)[name]? = some f := hdeclared
      rw [Std.ExtTreeMap.getElem?_insert] at hinsert
      split at hinsert
      · cases hinsert
        exact .inl List.mem_cons_self
      · exact .inr hinsert

theorem complete_eq_some {fuel : Nat} {i i' : Interpreter} {name : String} {f : Function}
    {args : List Value} {r : Except Fault Completion} (hf : i.functions[name]? = some f)
    (h : i.complete fuel name args = some (r, i')) :
    ∃ m, i.context.calls fuel .root f args i.machine = some (r, m) ∧
      i' = { i with machine := m } := by
  obtain ⟨m, hrun, hi⟩ := evaluate_eq_some h
  have hname : i.context.functionOf .root name = pure f := Context.functionOf_eq hf .root
  rw [hname, Action.bind_apply, Action.pure_apply] at hrun
  exact ⟨m, hrun, hi⟩

theorem complete_of_calls {fuel : Nat} {i : Interpreter} {name : String} {f : Function}
    {args : List Value} {r : Except Fault Completion} {m : Machine}
    (hf : i.functions[name]? = some f)
    (h : i.context.calls fuel .root f args i.machine = some (r, m)) :
    i.complete fuel name args = some (r, { i with machine := m }) := by
  have hname : i.context.functionOf .root name = pure f := Context.functionOf_eq hf .root
  refine evaluate_of_some ?_
  rw [hname, Action.bind_apply, Action.pure_apply]
  exact h

theorem complete_undefined {fuel : Nat} {i : Interpreter} {name : String} {args : List Value}
    (hname : i.functions[name]? = none) :
    i.complete fuel name args = some (.error (.undefinedFunction name), i) := by
  refine evaluate_of_some ?_
  have hfunction : i.context.functionOf .root name = throw (.undefinedFunction name) := by
    rw [Context.functionOf, context, hname, Scope.lookup_root]
  rw [hfunction]
  rfl

/-- Changes the heap on behalf of the host. -/
def withHeap (i : Interpreter) (f : Heap → Heap) : Interpreter :=
  { i with machine := { i.machine with heap := f i.machine.heap } }

end Interpreter

end Imperative
