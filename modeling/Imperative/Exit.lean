import Imperative.Fault

/-!
# Early exits

A statement either completes with a value or exits early, and an early exit abandons
every construct between the statement and the one that catches it.  There are four
exits and each has its own catcher: a *return* is caught by the innermost call, a
*break* and a *continue* by the innermost loop, and a *failure* by the innermost handler
that may see it.  An exit that reaches a boundary without having met its catcher is
itself a fault (`Exit.fault`).

A return carries a `Signal`: a value sorted into one of five kinds.  Nothing on the way
out looks inside it.  The kind exists for the record, which counts returns by kind, and
`Signal.toValue_ofValue` says that sorting loses nothing.
-/

namespace Imperative

/-! ## Signals -/

/-- The five kinds of returned values. -/
inductive Kind where
  | reference
  | integer
  | float
  | boolean
  | unit
deriving DecidableEq, Repr, Inhabited

namespace Kind

/-- All kinds, in the order in which records list them. -/
def all : List Kind := [reference, integer, float, boolean, unit]

/-- The name of a kind. -/
def name : Kind → String
  | reference => "reference"
  | integer => "integer"
  | float => "float"
  | boolean => "boolean"
  | unit => "unit"

/-- The kind of a given name, if there is one. -/
def ofName? (s : String) : Option Kind := all.find? fun k => k.name = s

theorem mem_all (k : Kind) : k ∈ all := by cases k <;> decide

end Kind

/-- What a return carries. -/
inductive Signal where
  | reference (h : Handle)
  | integer (n : Int64)
  | float (x : Float)
  | boolean (b : Bool)
  /-- A return without an operand, or of the unit value. -/
  | unit
deriving BEq, Repr, Inhabited

namespace Signal

/-- The kind of a signal. -/
def kind : Signal → Kind
  | reference _ => .reference
  | integer _ => .integer
  | float _ => .float
  | boolean _ => .boolean
  | unit => .unit

/-- The signal that carries a value. -/
def ofValue : Value → Signal
  | .ref h => reference h
  | .int n => integer n
  | .float x => float x
  | .bool b => boolean b
  | .unit => unit

/-- The value that a signal carries. -/
def toValue : Signal → Value
  | reference h => .ref h
  | integer n => .int n
  | float x => .float x
  | boolean b => .bool b
  | unit => .unit

@[simp] theorem toValue_ofValue (v : Value) : (ofValue v).toValue = v := by
  cases v <;> rfl

@[simp] theorem ofValue_toValue (s : Signal) : ofValue s.toValue = s := by
  cases s <;> rfl

end Signal

/-! ## Exits -/

/-- The ways to leave a statement without completing it. -/
inductive Exit where
  | returned (signal : Signal)
  | broke
  | continued
  | failed (fault : Fault)
deriving BEq, Repr, Inhabited

namespace Exit

/-- The fault of an exit that met no catcher: the failure itself, or the complaint that
a return, a break or a continue stands where nothing can catch it. -/
def fault : Exit → Fault
  | returned _ => .returnOutsideFunction
  | broke => .breakOutsideLoop
  | continued => .continueOutsideLoop
  | failed f => f

end Exit

/-! ## Catchers -/

/-- How the body of a function ended: by a return, or by running to its end, with the
value of the last statement. -/
inductive Completion where
  | returned (signal : Signal)
  | fellThrough (value : Value)
deriving BEq, Repr, Inhabited

/-- The value of a call whose body ended so. -/
def Completion.value : Completion → Value
  | returned s => s.toValue
  | fellThrough v => v

/-- What a call makes of the outcome of its body.  It catches returns, and lets every
other exit pass. -/
def catchReturn : Except Exit Value → Except Exit Completion
  | .ok v => .ok (.fellThrough v)
  | .error (.returned s) => .ok (.returned s)
  | .error e => .error e

/-- What a handler makes of the outcome of the statements it guards.  It catches
failures, and lets every other exit pass. -/
def catchFault {α : Type} : Except Exit α → Except Exit (Except Fault α)
  | .ok a => .ok (.ok a)
  | .error (.failed f) => .ok (.error f)
  | .error e => .error e

end Imperative
