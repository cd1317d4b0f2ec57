import Imperative.Expression
import Imperative.Heap.Display

/-!
# Execution of statements

A body is executed statement by statement, and its value is the value of the last one.
Execution is a recursion on the statements and takes the meaning of calls as a parameter,
as evaluation does, together with its *patience*: how often a loop without a limit on its
turns may test its condition before the execution counts as unfinished.  A loop with a
limit never needs it, and neither does a loop over a range, whose turns are known from
its bounds.

The two loops are written over arbitrary actions (`Loop.whileTrue`, `Loop.range`), as
recursions on the number of turns that are left.  They know nothing of statements, so
what holds of them holds for every test and every body.
-/

namespace Imperative

/-! ## Loops -/

namespace Loop

/-- Takes turns while a test holds and the turns go on: at most `tests` tests, with `taken`
turns taken so far. -/
def whileTrue (limits : Limits) (test : Exec Bool) (body : Exec Bool) : Nat → Nat → Exec Unit
  | 0, _ => Exec.unfinished
  | tests + 1, taken => do
    if ← test then
      Exec.require (limits.admitTurn taken)
      if ← body then whileTrue limits test body tests (taken + 1)
      else pure ()
    else pure ()

/-- Takes a turn for each of `left` integers from `i` upwards, as long as the turns go on.
The name is bound anew before each turn, whatever the turn before did to it. -/
def range (limits : Limits) (name : String) (body : Exec Bool) : Nat → Nat → Int64 → Exec Unit
  | 0, _, _ => pure ()
  | left + 1, taken, i => do
    Exec.require (limits.admitTurn taken)
    Exec.define name { value := .int i, ty := some .int }
    if ← body then range limits name body left (taken + 1) (i + 1)
    else pure ()

/-- How many integers there are from `start` up to, and without, `stop`. -/
def turns (start stop : Int64) : Nat := (stop.toInt - start.toInt).toNat

/-- The bounds of a range. -/
def bounds (start stop : Value) : Eval (Int64 × Int64) :=
  match start, stop with
  | .int a, .int b => pure (a, b)
  | a, b => Eval.mismatch fun h => .bounds (h.shape a) (h.shape b)

end Loop

/-- The text of a value, for a statement that fails with it. -/
def Value.shown (v : Value) : Eval String := Eval.observe (·.show? v)

/-! ## Statements -/

mutual

/-- Executes a statement. -/
def Stmt.exec (ctx : Context) (calls : Calls) (patience : Nat) : Stmt → Exec Value
  | .declare name ty e => do
    let v ← Exec.eval fun scope => e.eval ctx calls scope
    Exec.rescope (·.declare · name ty v)
    return .unit
  | .assign name e => do
    let v ← Exec.eval fun scope => e.eval ctx calls scope
    Exec.rescope (·.assign · name v)
    return .unit
  | .ret none => throw (.returned .unit)
  | .ret (some e) => do
    let v ← Exec.eval fun scope => e.eval ctx calls scope
    throw (.returned (.ofValue v))
  | .cond test yes no => do
    let p ← Exec.eval fun scope => test.eval ctx calls scope >>= Value.truth (.condition .cond)
    if p then Stmt.execAll ctx calls patience .unit yes
    else Stmt.execAll ctx calls patience .unit no
  | .whileDo test body => Exec.inLoop do
    Loop.whileTrue ctx.limits
      (Exec.eval fun scope =>
        test.eval ctx calls scope >>= Value.truth (.condition .whileDo))
      (Exec.turn (Stmt.execAll ctx calls patience .unit body))
      (ctx.limits.testBound patience) 0
    return .unit
  | .forRange name start stop body => Exec.inLoop do
    let (i, j) ← Exec.eval fun scope => do
      let a ← start.eval ctx calls scope
      let b ← stop.eval ctx calls scope
      Loop.bounds a b
    Loop.range ctx.limits name (Exec.turn (Stmt.execAll ctx calls patience .unit body))
      (Loop.turns i j) 0 i
    return .unit
  | .breakLoop => throw .broke
  | .continueLoop => throw .continued
  | .block body => Stmt.execAll ctx calls patience .unit body
  | .guarded body name handler =>
    Exec.guarded (Stmt.execAll ctx calls patience .unit body) fun f => do
      let text ← Exec.change fun m => (m.emit (.faultCaught f)).alloc (.string f.message)
      Exec.inChild name { value := text } (Stmt.execAll ctx calls patience .unit handler)
  | .raise e => do
    let text ← Exec.eval fun scope => e.eval ctx calls scope >>= Value.shown
    throw (.failed (.thrown text))
  | .expr e => Exec.eval fun scope => e.eval ctx calls scope

/-- Executes statements in order.  The value is that of the last one, and `last` if there
is none. -/
def Stmt.execAll (ctx : Context) (calls : Calls) (patience : Nat) (last : Value) :
    List Stmt → Exec Value
  | [] => pure last
  | s :: rest => do
    let v ← s.exec ctx calls patience
    Stmt.execAll ctx calls patience v rest

end

end Imperative
