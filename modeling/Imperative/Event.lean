import Imperative.Exit

/-!
# Events

The trace of a run records the four things that can happen to an early exit besides
passing by: a call catches a return, a return leaves a loop on its way out, a handler
takes over from a fault, and a return reaches the top level, where nothing can catch it.
Events are recorded in the order in which they happen.  They are part of what a run
does: the laws about early exits are laws about the trace.
-/

namespace Imperative

/-- What a trace records. -/
inductive Event where
  /-- A call caught the return of its body. -/
  | returnCaught (function : String) (kind : Kind)
  /-- A return left a loop; `depth` loops are still in progress. -/
  | loopReleased (kind : Kind) (depth : Nat)
  /-- A handler took over from a fault. -/
  | faultCaught (fault : Fault)
  /-- A return reached the top level of a program. -/
  | returnEscaped (kind : Kind)
deriving DecidableEq, Repr, Inhabited

namespace Event

/-- How much attention an event deserves. -/
inductive Level where
  | trace
  | debug
  | warn
deriving DecidableEq, Repr, Inhabited

/-- The name of a level. -/
def Level.name : Level → String
  | .trace => "TRACE"
  | .debug => "DEBUG"
  | .warn => "WARN"

/-- The level of an event. -/
def level : Event → Level
  | returnCaught _ _ => .trace
  | loopReleased _ _ => .trace
  | faultCaught _ => .debug
  | returnEscaped _ => .warn

/-- The text of an event, without its details. -/
def message : Event → String
  | returnCaught _ _ => "caught return signal"
  | loopReleased _ _ => "loop released during return unwind"
  | faultCaught _ => "try handler caught error"
  | returnEscaped _ => "return signal escaped past the outermost call"

/-- The details of an event, each with its name. -/
def fields : Event → List (String × String)
  | returnCaught function kind => [("function", function), ("kind", kind.name)]
  | loopReleased kind depth => [("kind", kind.name), ("depth", toString depth)]
  | faultCaught fault => [("error", fault.message)]
  | returnEscaped kind => [("kind", kind.name)]

end Event

end Imperative
