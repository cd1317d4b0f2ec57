import Imperative.Interpreter

/-!
# Sessions

A host's dealings with one interpreter over time.  The host keeps scopes under names of
its choice; a scope that has not been mentioned before is empty.  It issues commands, and
each command is answered and leaves a session for the next one.

Some commands reach into the heap directly.  A host may replace any object, also a shared
literal or function object, and evaluation will see the new one.
-/

namespace Imperative

/-- A session. -/
structure Session where
  interpreter : Interpreter := {}
  scopes : Std.ExtTreeMap String Scope := ∅
deriving Inhabited

/-- What a host can ask for. -/
inductive Command where
  | declare (f : Function)
  /-- Runs a program in a named scope. -/
  | run (p : Program) (scope : String)
  /-- Runs a program in a scope of its own. -/
  | runAlone (p : Program)
  | call (name : String) (args : List Value)
  /-- Calls a function and asks how its body ended. -/
  | complete (name : String) (args : List Value)
  | store (o : Object)
  | fetch (h : Handle)
  /-- Replaces an object, and asks for the one replaced. -/
  | replace (h : Handle) (o : Object)
  /-- Asks for all objects. -/
  | objects
  | describe (v : Value)
  | compare (a b : Value)
  | check (v : Value) (t : Ty)
  | snapshot (scope : String)
  | lookup (name : String) (scope : String)
  /-- Copies a scope to another name. -/
  | copy (source target : String)
deriving Inhabited

/-- What a command is answered with. -/
inductive Reply where
  | done
  | failed (f : Fault)
  | value (v : Value)
  /-- The value of a program, which has none if it has no statements. -/
  | last (v : Option Value)
  | completion (c : Completion)
  | stored (h : Handle)
  | object (o : Object)
  | objects (os : List Object)
  /-- The shape of a value through its handle and on its own, and its text as a string. -/
  | description (v : Value) (seen plain : Shape) (text : Option String)
  /-- Equality in content, and equality without looking behind handles. -/
  | equality (deep shallow : Bool)
  | variables (bindings : List (String × Value))
  | binding (b : Option Binding)
deriving Inhabited

namespace Reply

/-- The answer to a check, or to a command that yields nothing when it succeeds. -/
def ofUnit : Except Fault Unit → Reply
  | .ok _ => done
  | .error f => failed f

/-- The answer to a command that succeeds with something or fails. -/
def ofExcept {α : Type} (answer : α → Reply) : Except Fault α → Reply
  | .ok a => answer a
  | .error f => failed f

end Reply

namespace Session

/-- A new session under the given limits. -/
def start (limits : Limits) : Session := { interpreter := { limits } }

/-- The scope of a name, empty if it has not been mentioned. -/
def scope (s : Session) (name : String) : Scope := s.scopes[name]?.getD .root

/-- The heap. -/
def heap (s : Session) : Heap := s.interpreter.machine.heap

/-- Carries out a command, with an amount of fuel for what may not terminate. -/
def perform (fuel : Nat) (s : Session) : Command → Option (Reply × Session)
  | .declare f => some (.done, { s with interpreter := s.interpreter.declare f })
  | .run p name =>
    (s.interpreter.runIn fuel (s.scope name) p).map fun r =>
      (.ofExcept .last r.result,
        { interpreter := r.interpreter, scopes := s.scopes.insert name r.scope })
  | .runAlone p =>
    (s.interpreter.run fuel p).map fun (r, i) => (.ofUnit r, { s with interpreter := i })
  | .call name args =>
    (s.interpreter.call fuel name args).map fun (r, i) =>
      (.ofExcept .value r, { s with interpreter := i })
  | .complete name args =>
    (s.interpreter.complete fuel name args).map fun (r, i) =>
      (.ofExcept .completion r, { s with interpreter := i })
  | .store o =>
    some (.stored s.heap.next, { s with interpreter := s.interpreter.withHeap (·.alloc o) })
  | .fetch h => some (.ofExcept .object (s.heap.fetch h), s)
  | .replace h o =>
    match s.heap.fetch h with
    | .ok old =>
      some (.object old, { s with interpreter := s.interpreter.withHeap (·.replace h o) })
    | .error f => some (.failed f, s)
  | .objects => some (.objects s.heap.objects.toList, s)
  | .describe v => some (.description v (s.heap.shape v) v.shape (s.heap.text? v), s)
  | .compare a b => (s.heap.equal? a b).map fun deep => (.equality deep (a == b), s)
  | .check v t => some (.ofUnit (s.heap.check v t), s)
  | .snapshot name => some (.variables (s.scope name).snapshot, s)
  | .lookup x name => some (.binding ((s.scope name).lookup x), s)
  | .copy source target =>
    some (.done, { s with scopes := s.scopes.insert target (s.scope source) })

/-- The events of a session from a point of its trace onwards. -/
def eventsFrom (s : Session) (start : Nat) : List Event :=
  (s.interpreter.machine.trace.extract start).toList

end Session

end Imperative
