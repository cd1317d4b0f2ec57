import Imperative.Session

/-!
# Commands and reachable sessions

A session starts with an interpreter that has run nothing, and every command that is
answered leaves a session for the next one.  What can come about in this way, with
whatever fuel, is a reachable session.  A law of all sessions is shown by looking at the
start and at one command.

What one command does is laid out in `Session.Performed`, case by case: which operation of
the interpreter it comes down to, what it is answered with, and what session it leaves.
`Session.performed_of_perform` says that nothing else happens.  Five of the commands only
ask something, and are one case here; they never fail.
-/

namespace Imperative

/-- The commands that ask something of a session that it can always answer. -/
def Command.asks : Command → Bool
  | .objects => true
  | .describe _ => true
  | .compare _ _ => true
  | .snapshot _ => true
  | .lookup _ _ => true
  | _ => false

/-- What a command does to a session, and how it is answered. -/
inductive Session.Performed (fuel : Nat) (s : Session) : Command → Reply → Session → Prop where
  | declare (f : Function) :
    Performed fuel s (.declare f) .done { s with interpreter := s.interpreter.declare f }
  | run {p : Program} {name : String} {ran : Interpreter.Ran} :
    s.interpreter.runIn fuel (s.scope name) p = some ran →
      Performed fuel s (.run p name) (.ofExcept .last ran.result)
        { interpreter := ran.interpreter, scopes := s.scopes.insert name ran.scope }
  | runAlone {p : Program} {ran : Interpreter.Ran} :
    s.interpreter.runIn fuel .root p = some ran →
      Performed fuel s (.runAlone p) (.ofUnit (ran.result.map fun _ => ()))
        { s with interpreter := ran.interpreter }
  | call {name : String} {args : List Value} {r : Except Fault Completion} {i : Interpreter} :
    s.interpreter.complete fuel name args = some (r, i) →
      Performed fuel s (.call name args) (.ofExcept .value (r.map Completion.value))
        { s with interpreter := i }
  | complete {name : String} {args : List Value} {r : Except Fault Completion}
      {i : Interpreter} :
    s.interpreter.complete fuel name args = some (r, i) →
      Performed fuel s (.complete name args) (.ofExcept .completion r) { s with interpreter := i }
  | store (o : Object) :
    Performed fuel s (.store o) (.stored s.heap.next)
      { s with interpreter := s.interpreter.withHeap (·.alloc o) }
  | replace {h : Handle} {old : Object} (o : Object) :
    s.heap.fetch h = .ok old →
      Performed fuel s (.replace h o) (.object old)
        { s with interpreter := s.interpreter.withHeap (·.replace h o) }
  | refused {h : Handle} {f : Fault} (o : Object) :
    s.heap.fetch h = .error f → Performed fuel s (.replace h o) (.failed f) s
  | fetch (h : Handle) : Performed fuel s (.fetch h) (.ofExcept .object (s.heap.fetch h)) s
  | check (v : Value) (t : Ty) : Performed fuel s (.check v t) (.ofUnit (s.heap.check v t)) s
  | ask {command : Command} {reply : Reply} :
    command.asks = true → (∀ f, reply ≠ .failed f) → Performed fuel s command reply s
  | copy (source target : String) :
    Performed fuel s (.copy source target) .done
      { s with scopes := s.scopes.insert target (s.scope source) }

theorem map_ne_error {ε α β : Type} {r : Except ε α} {e : ε} (hr : r ≠ .error e) (g : α → β) :
    r.map g ≠ .error e := by
  intro h
  cases r with
  | ok a => cases h
  | error e' =>
    cases h
    exact hr rfl

namespace Reply

/-- A result is reported as a failure only if it is that failure. -/
theorem ofExcept_ne_failed {α : Type} {answer : α → Reply} (hanswer : ∀ a g, answer a ≠ .failed g)
    {r : Except Fault α} {f : Fault} (hr : r ≠ .error f) : ofExcept answer r ≠ .failed f := by
  intro h
  cases r with
  | ok a => exact hanswer a f h
  | error g =>
    cases h
    exact hr rfl

theorem ofUnit_ne_failed {r : Except Fault Unit} {f : Fault} (hr : r ≠ .error f) :
    ofUnit r ≠ .failed f := by
  intro h
  cases r with
  | ok u => cases h
  | error g =>
    cases h
    exact hr rfl

end Reply

namespace Session

@[simp] theorem scope_start (limits : Limits) (name : String) :
    (start limits).scope name = .root := by
  rw [scope, start, Std.ExtTreeMap.getElem?_empty, Option.getD_none]

theorem scope_insert (s : Session) (name : String) (scope : Scope) (i : Interpreter)
    (other : String) :
    Session.scope { interpreter := i, scopes := s.scopes.insert name scope } other =
      if name = other then scope else s.scope other := by
  by_cases h : name = other <;> simp [Session.scope, Std.ExtTreeMap.getElem?_insert, h]

/-- What `perform` does is what is laid out, and nothing else. -/
theorem performed_of_perform {fuel : Nat} {s s' : Session} {command : Command} {reply : Reply}
    (h : s.perform fuel command = some (reply, s')) : Performed fuel s command reply s' := by
  cases command with
  | declare f =>
    cases h
    exact .declare f
  | run p name =>
    obtain ⟨ran, hran, he⟩ := Option.map_eq_some_iff.mp h
    cases he
    exact .run hran
  | runAlone p =>
    obtain ⟨q, hq, he⟩ := Option.map_eq_some_iff.mp h
    obtain ⟨ran, hran, rfl⟩ := Option.map_eq_some_iff.mp hq
    cases he
    exact .runAlone hran
  | call name args =>
    obtain ⟨q, hq, he⟩ := Option.map_eq_some_iff.mp h
    obtain ⟨⟨r, i⟩, hcomplete, rfl⟩ := Option.map_eq_some_iff.mp hq
    cases he
    exact .call hcomplete
  | complete name args =>
    obtain ⟨⟨r, i⟩, hcomplete, he⟩ := Option.map_eq_some_iff.mp h
    cases he
    exact .complete hcomplete
  | store o =>
    cases h
    exact .store o
  | fetch r =>
    cases h
    exact .fetch r
  | replace r o =>
    rw [perform] at h
    split at h
    · next old hold =>
      cases h
      exact .replace o hold
    · next f hf =>
      cases h
      exact .refused o hf
  | objects =>
    cases h
    exact .ask rfl fun f hf => by cases hf
  | describe v =>
    cases h
    exact .ask rfl fun f hf => by cases hf
  | compare a b =>
    obtain ⟨deep, -, he⟩ := Option.map_eq_some_iff.mp h
    cases he
    exact .ask rfl fun f hf => by cases hf
  | check v t =>
    cases h
    exact .check v t
  | snapshot name =>
    cases h
    exact .ask rfl fun f hf => by cases hf
  | lookup name scope =>
    cases h
    exact .ask rfl fun f hf => by cases hf
  | copy source target =>
    cases h
    exact .copy source target

/-- The sessions that can come about under the given limits, if a host only issues commands
that are allowed in the session at hand. -/
inductive Reachable (allowed : Session → Command → Prop) (limits : Limits) : Session → Prop where
  | start : Reachable allowed limits (Session.start limits)
  | step {s s' : Session} {fuel : Nat} {command : Command} {reply : Reply} :
    Reachable allowed limits s → allowed s command →
      s.perform fuel command = some (reply, s') → Reachable allowed limits s'

/-- **Laws of all sessions.**  What holds at the start, and is kept by every command that is
allowed, holds of every session that can come about. -/
theorem Reachable.induct {allowed : Session → Command → Prop} {limits : Limits}
    {P : Session → Prop} (hstart : P (Session.start limits))
    (hstep : ∀ {s s' : Session} {fuel : Nat} {command : Command} {reply : Reply},
      P s → allowed s command → Performed fuel s command reply s' → P s')
    {s : Session} (h : Reachable allowed limits s) : P s := by
  induction h with
  | start => exact hstart
  | step _ hallowed hperform ih => exact hstep ih hallowed (performed_of_perform hperform)

/-- The sessions that can come about from a given one, if a host only issues commands that are
allowed in the session at hand. -/
inductive Later (allowed : Session → Command → Prop) (s : Session) : Session → Prop where
  | refl : Later allowed s s
  | step {t t' : Session} {fuel : Nat} {command : Command} {reply : Reply} :
    Later allowed s t → allowed t command → t.perform fuel command = some (reply, t') →
      Later allowed s t'

end Session

end Imperative
