import Imperative.Machine
import Imperative.Scope

/-!
# Actions

What an expression does, and what a statement does.

Evaluating an expression reads scopes and never writes them; it changes the machine, and
yields a value or a fault.  Executing a statement also changes its scope, and may end in
any early exit.  The two are kept apart as two types of action, `Eval` and `Exec`, so that
"an expression never returns, breaks or continues out of itself" is not a theorem but a
type.

Both leave the machine behind also when they fail, because what a failed action did
before it failed is done.  And both may be *unfinished*: an action is given a finite
allowance for what could go on for ever, and when the allowance is spent it has no
outcome at all, which is not the same as a fault.  No rule of the language can see it.
-/

namespace Imperative

/-- An action that yields an `α` or a fault. -/
abbrev Eval (α : Type) := ExceptT Fault (StateT Machine Option) α

/-- A scope and a machine: what a statement acts upon. -/
structure Activation where
  scope : Scope := {}
  machine : Machine := {}
deriving Inhabited

/-- An action that completes with an `α` or exits early. -/
abbrev Exec (α : Type) := ExceptT Exit (StateT Activation Option) α

/-! ## Sequences

Both types of action are sequenced alike: the second action starts from what the first one
leaves behind, and is not reached if the first one fails or is unfinished. -/

namespace Action

variable {ε σ α β : Type}

theorem pure_apply (a : α) (s : σ) :
    (pure a : ExceptT ε (StateT σ Option) α) s = some (.ok a, s) := rfl

theorem throw_apply (e : ε) (s : σ) :
    (throw e : ExceptT ε (StateT σ Option) α) s = some (.error e, s) := rfl

theorem bind_apply (x : ExceptT ε (StateT σ Option) α) (f : α → ExceptT ε (StateT σ Option) β)
    (s : σ) :
    (x >>= f) s =
      match x s with
      | none => none
      | some (.ok a, s) => f a s
      | some (.error e, s) => some (.error e, s) := by
  simp only [bind, ExceptT.bind, ExceptT.mk, StateT.bind, Option.bind]
  split
  · next h => simp [h]
  · next p h =>
    obtain ⟨r, t⟩ := p
    cases r with
    | ok a => simp [h, ExceptT.bindCont]
    | error e =>
      simp only [h, ExceptT.bindCont]
      rfl

end Action

/-! ## Actions of expressions -/

namespace Eval

variable {α : Type}

/-- The action without an outcome. -/
def unfinished : Eval α := fun _ => none

/-- Reads the heap; the machine stays as it is. -/
def read (f : Heap → Except Fault α) : Eval α := fun m => some (f m.heap, m)

/-- Asks the heap a question that may have no answer. -/
def observe (f : Heap → Option α) : Eval α := fun m => (f m.heap).map fun a => (.ok a, m)

/-- Fails, saying what shapes were found. -/
def mismatch (f : Heap → Mismatch) : Eval α := read fun h => .error (.typeMismatch (f h))

/-- Changes the machine. -/
def change (f : Machine → α × Machine) : Eval α := fun m =>
  match f m with
  | (a, m) => some (.ok a, m)

/-- The object of a handle. -/
def fetch (r : Handle) : Eval Object := read (·.fetch r)

/-- Stores a new object. -/
def alloc (o : Object) : Eval Value := change (·.alloc o)

end Eval

/-! ## Actions of statements -/

namespace Exec

variable {α : Type}

/-- The action without an outcome. -/
def unfinished : Exec α := fun _ => none

/-- Evaluates in the scope at hand.  A fault becomes the exit that carries it. -/
def eval (x : Scope → Eval α) : Exec α := fun ⟨scope, machine⟩ =>
  match x scope machine with
  | none => none
  | some (.ok a, machine) => some (.ok a, ⟨scope, machine⟩)
  | some (.error f, machine) => some (.error (.failed f), ⟨scope, machine⟩)

/-- Fails unless a check succeeds. -/
def require (c : Except Fault α) : Exec α := fun a =>
  match c with
  | .ok x => some (.ok x, a)
  | .error f => some (.error (.failed f), a)

/-- Changes the scope at hand, unless that is a fault. -/
def rescope (f : Scope → Heap → Except Fault Scope) : Exec Unit := fun ⟨scope, machine⟩ =>
  match f scope machine.heap with
  | .ok scope => some (.ok (), ⟨scope, machine⟩)
  | .error f => some (.error (.failed f), ⟨scope, machine⟩)

/-- Binds a name in the scope at hand. -/
def define (name : String) (b : Binding) : Exec Unit :=
  rescope fun scope _ => .ok (scope.define name b)

/-- Changes the machine. -/
def change (f : Machine → α × Machine) : Exec α := fun ⟨scope, machine⟩ =>
  match f machine with
  | (a, machine) => some (.ok a, ⟨scope, machine⟩)

/-- Executes in a new scope inside the one at hand, with one name bound in it.  The new
scope is gone afterwards. -/
def inChild (name : String) (b : Binding) (x : Exec α) : Exec α := fun ⟨scope, machine⟩ =>
  match x ⟨scope.child.define name b, machine⟩ with
  | none => none
  | some (r, a) => some (r, ⟨scope, a.machine⟩)

/-- Executes one turn of a loop: whether the loop goes on.  Breaks and continues end here,
every other exit passes. -/
def turn (body : Exec α) : Exec Bool := fun a =>
  match body a with
  | none => none
  | some (.ok _, a) => some (.ok true, a)
  | some (.error .continued, a) => some (.ok true, a)
  | some (.error .broke, a) => some (.ok false, a)
  | some (.error e, a) => some (.error e, a)

/-- Executes a whole loop, which counts as in progress from before its first test until it
has ended, however it ends. -/
def inLoop (x : Exec α) : Exec α := fun ⟨scope, machine⟩ =>
  match x ⟨scope, machine.enterLoop⟩ with
  | none => none
  | some (r, ⟨scope, machine⟩) => some (r, ⟨scope, machine.leaveLoop r⟩)

/-- Executes a body under guard: a failure that is not internal goes to the handler, and
every other outcome passes. -/
def guarded (body : Exec α) (handler : Fault → Exec α) : Exec α := fun a =>
  match body a with
  | none => none
  | some (r, a) =>
    match catchFault r with
    | .ok (.ok x) => some (.ok x, a)
    | .ok (.error f) => if f.isInternal then some (.error (.failed f), a) else handler f a
    | .error e => some (.error e, a)

/-- A handler sees failures that are not internal, and nothing else. -/
theorem guarded_apply (body : Exec α) (handler : Fault → Exec α) (a : Activation) :
    guarded body handler a =
      match body a with
      | none => none
      | some (.error (.failed f), b) =>
        if f.isInternal then some (.error (.failed f), b) else handler f b
      | some (r, b) => some (r, b) := by
  unfold guarded
  cases body a with
  | none => rfl
  | some p =>
    obtain ⟨r, b⟩ := p
    cases r with
    | ok v => rfl
    | error e => cases e <;> rfl

/-- Executes a body in a scope of its own, as part of an evaluation: its outcome, whatever
it is, becomes the value. -/
def inScope (scope : Scope) (x : Exec α) : Eval (Except Exit α) := fun machine =>
  match x ⟨scope, machine⟩ with
  | none => none
  | some (r, a) => some (.ok r, a.machine)

end Exec

end Imperative
