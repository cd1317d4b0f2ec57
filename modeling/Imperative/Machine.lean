import Imperative.Event
import Imperative.Heap
import Imperative.Tally
import Std.Data.ExtTreeMap

/-!
# The machine

Everything that a run changes apart from its scopes: the heap, the tables of shared
objects, the tally of calls, the two counters of what is in progress, and the trace.

Two kinds of expression share objects instead of creating a new one each time they are
evaluated.  A string literal yields one object for each text, and a function used as a
value yields one object for each name.  The tables remember which object that is; an
entry, once made, is never changed (`Machine.internText`, `Machine.internFunction`).

A machine changes by the operations below and by no others, so a property of every run
is shown by looking at each of them once.
-/

namespace Imperative

/-- The state of a run. -/
structure Machine where
  heap : Heap := {}
  /-- The shared string object of each literal text. -/
  texts : Std.ExtTreeMap String Handle := ∅
  /-- The shared function object of each function used as a value. -/
  functionRefs : Std.ExtTreeMap String Handle := ∅
  tally : Tally := {}
  /-- How many bodies are in progress. -/
  callDepth : Nat := 0
  /-- How many loops are in progress, in all bodies together. -/
  activeLoops : Nat := 0
  trace : Array Event := #[]
deriving Inhabited

namespace Machine

/-- Records an event. -/
def emit (m : Machine) (e : Event) : Machine := { m with trace := m.trace.push e }

/-- Stores a new object and yields a value that refers to it. -/
def alloc (m : Machine) (o : Object) : Value × Machine :=
  (.ref m.heap.next, { m with heap := m.heap.alloc o })

/-- The shared string object of a literal, created on first use. -/
def internText (m : Machine) (s : String) : Value × Machine :=
  match m.texts[s]? with
  | some h => (.ref h, m)
  | none =>
    (.ref m.heap.next,
      { m with heap := m.heap.alloc (.string s), texts := m.texts.insert s m.heap.next })

/-- The shared function object of a name, created on first use. -/
def internFunction (m : Machine) (name : String) : Value × Machine :=
  match m.functionRefs[name]? with
  | some h => (.ref h, m)
  | none =>
    (.ref m.heap.next,
      { m with
        heap := m.heap.alloc (.function name)
        functionRefs := m.functionRefs.insert name m.heap.next })

/-- Enters a body. -/
def enterCall (m : Machine) : Machine :=
  { m with callDepth := m.callDepth + 1, tally := m.tally.addCall }

/-- Leaves a body, whatever its outcome. -/
def leaveCall (m : Machine) : Machine := { m with callDepth := m.callDepth - 1 }

/-- Takes note of how a body ended. -/
def record (m : Machine) (function : String) : Completion → Machine
  | .returned s =>
    { m with
      trace := m.trace.push (.returnCaught function s.kind)
      tally := m.tally.addReturn s.kind }
  | .fellThrough _ => { m with tally := m.tally.addFallThrough }

/-- Enters a loop. -/
def enterLoop (m : Machine) : Machine := { m with activeLoops := m.activeLoops + 1 }

/-- Leaves a loop, whatever its outcome.  A return on its way out is recorded. -/
def leaveLoop {α : Type} (m : Machine) : Except Exit α → Machine
  | .error (.returned s) =>
    { m with
      activeLoops := m.activeLoops - 1
      trace := m.trace.push (.loopReleased s.kind (m.activeLoops - 1)) }
  | _ => { m with activeLoops := m.activeLoops - 1 }

/-! What is kept count of, and what is traced, leaves the heap alone. -/

@[simp] theorem heap_emit (m : Machine) (e : Event) : (m.emit e).heap = m.heap := rfl

@[simp] theorem heap_enterCall (m : Machine) : m.enterCall.heap = m.heap := rfl

@[simp] theorem heap_leaveCall (m : Machine) : m.leaveCall.heap = m.heap := rfl

@[simp] theorem heap_record (m : Machine) (function : String) (c : Completion) :
    (m.record function c).heap = m.heap := by
  cases c <;> rfl

@[simp] theorem heap_enterLoop (m : Machine) : m.enterLoop.heap = m.heap := rfl

@[simp] theorem heap_leaveLoop {α : Type} (m : Machine) (r : Except Exit α) :
    (m.leaveLoop r).heap = m.heap := by
  unfold leaveLoop
  split <;> rfl

end Machine

end Imperative
