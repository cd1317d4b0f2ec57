import Imperative.Value

/-!
# Faults

Why an evaluation fails.  A fault records the cause, with the data that the cause
involves; the text shown for it is a function of the cause (`Fault.message`), and no
rule of the language reads that text back, except that a handler receives it as a string.

Most faults are the program's own doing and a handler may intercept them.  A few mean
that a boundary was crossed which nothing may cross: a handle that names no object, or
an early exit that found no construct to end.  These are *internal*
(`Fault.isInternal`), and no handler sees them.
-/

namespace Imperative

/-! ## Mismatches -/

/-- The two statements that test a condition. -/
inductive Conditional where
  | cond
  | whileDo
deriving DecidableEq, Repr, Inhabited

/-- The keyword of a conditional statement. -/
def Conditional.keyword : Conditional → String
  | .cond => "if"
  | .whileDo => "while"

/-- The ways in which a value can be of the wrong shape for what is asked of it. -/
inductive Mismatch where
  /-- An annotation does not admit the value. -/
  | unfit (found : Shape) (wanted : Ty)
  | condition (construct : Conditional) (found : Shape)
  | bounds (start stop : Shape)
  | arithmetic (op : ArithOp) (left right : Shape)
  | negation (found : Shape)
  | comparison (op : CompareOp) (left right : Shape)
  | connective (op : LogicOp) (found : Shape)
  | logicalNot (found : Shape)
  | position (found : Shape)
  | indexed (found : Shape)
  | measured (found : Shape)
  | extended (found : Shape)
  /-- A mismatch that a host reports in its own words. -/
  | described (text : String)
deriving DecidableEq, Repr, Inhabited

/-- The text of a mismatch. -/
def Mismatch.message : Mismatch → String
  | .unfit found wanted => s!"value of type {found.name} does not match type {wanted.name}"
  | .condition construct found => s!"{construct.keyword} condition must be bool, got {found.name}"
  | .bounds start stop => s!"for bounds must be ints, got {start.name} and {stop.name}"
  | .arithmetic op left right => s!"Cannot {op.verb} {left.name} and {right.name}"
  | .negation found => s!"cannot negate {found.name}"
  | .comparison op left right => s!"{op.sign} expects numbers, got {left.name} and {right.name}"
  | .connective op found => s!"{op.sign} expects bool, got {found.name}"
  | .logicalNot found => s!"! expects bool, got {found.name}"
  | .position found => s!"index expects int, got {found.name}"
  | .indexed found => s!"indexing not supported for {found.name}"
  | .measured found => s!"len() expects string or list, got {found.name}"
  | .extended found => s!"push() expects a list, got {found.name}"
  | .described text => text

/-! ## Faults -/

/-- The causes of failure. -/
inductive Fault where
  | undefinedVariable (name : String)
  | undefinedFunction (name : String)
  | assignToUndefined (name : String)
  | typeMismatch (what : Mismatch)
  | arityMismatch (name : String) (expected received : Nat)
  | indexOutOfBounds (index : Int64) (length : Nat)
  | divisionByZero
  /-- A handle names no object. -/
  | danglingReference (handle : Handle)
  | callDepthExceeded (limit : Nat)
  | loopLimitExceeded (limit : Nat)
  /-- The program failed on purpose. -/
  | thrown (text : String)
  | returnOutsideFunction
  | breakOutsideLoop
  | continueOutsideLoop
deriving DecidableEq, Repr, Inhabited

namespace Fault

/-- The text of a fault. -/
def message : Fault → String
  | undefinedVariable name => s!"Undefined variable '{name}'"
  | undefinedFunction name => s!"Undefined function '{name}'"
  | assignToUndefined name => s!"Assignment to undefined variable '{name}'"
  | typeMismatch what => s!"Type mismatch: {what.message}"
  | arityMismatch name expected received =>
    s!"Function '{name}' expected {expected} args, got {received}"
  | indexOutOfBounds index length => s!"index {index.toInt} out of bounds for length {length}"
  | divisionByZero => "division by zero"
  | danglingReference handle => s!"dangling object reference {handle.text}"
  | callDepthExceeded limit => s!"maximum call depth of {limit} exceeded"
  | loopLimitExceeded limit => s!"loop exceeded the configured limit of {limit} iterations"
  | thrown text => text
  | returnOutsideFunction => "'return' outside of function"
  | breakOutsideLoop => "'break' outside of loop"
  | continueOutsideLoop => "'continue' outside of loop"

/-- Whether a fault is out of reach of handlers. -/
def isInternal : Fault → Bool
  | danglingReference _ => true
  | returnOutsideFunction => true
  | breakOutsideLoop => true
  | continueOutsideLoop => true
  | _ => false

end Fault

end Imperative
