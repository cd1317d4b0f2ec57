import Imperative.Limits
import Imperative.Operation

/-!
# Evaluation of expressions

Operands are evaluated from left to right and the first fault ends the evaluation.  What
an operator does with its operands is `Imperative.Operation`; this file says which
operands are evaluated, and when.

A call is the one place where an expression leaves the tree at hand, and what happens
there is not this file's business: evaluation takes the meaning of a call as a parameter
(`Calls`).  So evaluation is a recursion on the expression, and the recursion of the
program through its functions is tied elsewhere (`Imperative.Call`).

A call first settles *what* is called and then evaluates the operands, so the operands
cannot change which body runs.
-/

namespace Imperative

/-- What an evaluation is carried out under: the limits, and the declared functions. -/
structure Context where
  limits : Limits := {}
  functions : Std.ExtTreeMap String Function := ∅
deriving Inhabited

/-- The meaning of calls: what calling a function from a scope with operands does. -/
abbrev Calls := Scope → Function → List Value → Eval Completion

/-! ## Names -/

/-- What a call can go to. -/
inductive Callee where
  | builtin (b : Builtin)
  | function (f : Function)

namespace Context

/-- The value of a name: of the variable, or else the function as a value. -/
def valueOf (ctx : Context) (scope : Scope) (name : String) : Eval Value :=
  match scope.lookup name with
  | some b => pure b.value
  | none =>
    if ctx.functions.contains name then Eval.change (·.internFunction name)
    else throw (.undefinedVariable name)

/-- The function of a name: the declared one, or else the one that a variable of that name
refers to. -/
def functionOf (ctx : Context) (scope : Scope) (name : String) : Eval Function :=
  match ctx.functions[name]? with
  | some f => pure f
  | none =>
    match scope.lookup name with
    | some ⟨.ref r, _⟩ => do
      match ← Eval.fetch r with
      | .function target =>
        match ctx.functions[target]? with
        | some f => pure f
        | none => throw (.undefinedFunction name)
      | _ => throw (.undefinedFunction name)
    | _ => throw (.undefinedFunction name)

/-- What a call of a name with a number of operands goes to.  The names of the builtins
are taken: neither a function nor a variable of such a name is ever called.  A builtin
checks the number of its operands here, before any of them is evaluated. -/
def calleeOf (ctx : Context) (scope : Scope) (name : String) (operands : Nat) : Eval Callee :=
  match Builtin.ofName? name with
  | some b =>
    if b.arity = operands then pure (.builtin b)
    else throw (.arityMismatch b.name b.arity operands)
  | none => do return .function (← ctx.functionOf scope name)

/-- A declared function goes before any variable. -/
theorem functionOf_eq {ctx : Context} {name : String} {f : Function}
    (h : ctx.functions[name]? = some f) (scope : Scope) : ctx.functionOf scope name = pure f := by
  rw [functionOf, h]

/-- What a name stands for as a function is a declared function, whatever its name. -/
theorem functionOf_eq_ok {ctx : Context} {scope : Scope} {name : String} {f : Function}
    {m m' : Machine} (h : ctx.functionOf scope name m = some (.ok f, m')) :
    ∃ target : String, ctx.functions[target]? = some f := by
  rw [functionOf] at h
  cases hname : ctx.functions[name]? with
  | some g =>
    rw [hname] at h
    cases h
    exact ⟨name, hname⟩
  | none =>
    rw [hname] at h
    cases hlookup : scope.lookup name with
    | none =>
      rw [hlookup] at h
      cases h
    | some b =>
      rw [hlookup] at h
      obtain ⟨v, ty⟩ := b
      cases v with
      | ref r =>
        dsimp only at h
        rw [Action.bind_apply] at h
        simp only [Eval.fetch, Eval.read] at h
        cases hr : m.heap.fetch r with
        | error g =>
          rw [hr] at h
          cases h
        | ok o =>
          rw [hr] at h
          cases o with
          | function target =>
            cases htarget : ctx.functions[target]? with
            | some g =>
              simp only [htarget] at h
              cases h
              exact ⟨target, htarget⟩
            | none =>
              simp only [htarget] at h
              cases h
          | _ => cases h
      | _ => cases h

theorem calleeOf_eq_function {ctx : Context} {scope : Scope} {name : String} {operands : Nat}
    {f : Function} {m m' : Machine}
    (h : ctx.calleeOf scope name operands m = some (.ok (.function f), m')) :
    ∃ target : String, ctx.functions[target]? = some f := by
  rw [calleeOf] at h
  cases hname : Builtin.ofName? name with
  | some b =>
    simp only [hname] at h
    split at h <;> cases h
  | none =>
    simp only [hname] at h
    rw [Action.bind_apply] at h
    split at h
    · cases h
    · next g _ hg =>
      cases h
      exact functionOf_eq_ok hg
    · cases h

end Context

/-- Calls what a name was found to stand for. -/
def Callee.apply (calls : Calls) (scope : Scope) (args : List Value) : Callee → Eval Value
  | .builtin b => b.apply args
  | .function f => do return (← calls scope f args).value

/-! ## Expressions -/

mutual

/-- Evaluates an expression. -/
def Expr.eval (ctx : Context) (calls : Calls) (scope : Scope) : Expr → Eval Value
  | .int n => pure (.int n)
  | .float x => pure (.float x)
  | .text s => Eval.change (·.internText s)
  | .bool b => pure (.bool b)
  | .ident name => ctx.valueOf scope name
  | .arith op a b => do
    let x ← a.eval ctx calls scope
    let y ← b.eval ctx calls scope
    x.arithmetic op y
  | .neg e => do
    let x ← e.eval ctx calls scope
    x.negate
  | .eq a b => do
    let x ← a.eval ctx calls scope
    let y ← b.eval ctx calls scope
    return .bool (← x.equal y)
  | .ne a b => do
    let x ← a.eval ctx calls scope
    let y ← b.eval ctx calls scope
    return .bool (!(← x.equal y))
  | .compare op a b => do
    let x ← a.eval ctx calls scope
    let y ← b.eval ctx calls scope
    x.compared op y
  | .logic op a b => do
    let x ← a.eval ctx calls scope
    let p ← x.truth (.connective op)
    if p = op.decisive then return .bool p
    else
      let y ← b.eval ctx calls scope
      return .bool (← y.truth (.connective op))
  | .not e => do
    let x ← e.eval ctx calls scope
    return .bool (!(← x.truth .logicalNot))
  | .call name args => do
    let callee ← ctx.calleeOf scope name args.length
    let vs ← Expr.evalAll ctx calls scope args
    callee.apply calls scope vs
  | .list elements => do
    let vs ← Expr.evalAll ctx calls scope elements
    Eval.alloc (.list vs.toArray)
  | .index base position => do
    let b ← base.eval ctx calls scope
    let p ← position.eval ctx calls scope
    let i ← p.position
    b.index i

/-- Evaluates expressions from left to right. -/
def Expr.evalAll (ctx : Context) (calls : Calls) (scope : Scope) : List Expr → Eval (List Value)
  | [] => pure []
  | e :: es => do
    let v ← e.eval ctx calls scope
    let vs ← Expr.evalAll ctx calls scope es
    return v :: vs

end

end Imperative
