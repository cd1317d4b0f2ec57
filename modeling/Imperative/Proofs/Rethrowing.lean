import Imperative.Proofs.Moments.Ending

/-!
# Guards that do nothing

A guard is transparent unless its handler starts: whatever else the body ends with, the guarded
statement ends with it as well, in the same state, and what the handler says does not matter
(`Stmt.run_guarded_of_unseen`).

A handler that starts and does nothing but fail with the text that it was given is almost
transparent.  The fault that comes out is another one, since a fault of any kind goes in and a
thrown one comes out, but it has the same text, and from then on even the fault stays the same.
Around a body, each such guard leaves one string and one event (`Stmt.run_rethrowing`).
-/

namespace Imperative

open Imperative.Action

/-- A body inside of guards that throw what they catch: one guard, and `more` around it. -/
def Stmt.rethrowing (name : String) (body : List Stmt) : Nat → Stmt
  | 0 => .guarded body name [.raise (.ident name)]
  | more + 1 => .guarded [Stmt.rethrowing name body more] name [.raise (.ident name)]

/-- The state of a run after `more + 1` guards have caught a fault and have thrown its text. -/
def Machine.rethrown (m : Machine) (f : Fault) (more : Nat) : Machine :=
  { m with
    heap := ⟨m.heap.objects ++ Array.replicate (more + 1) (.string f.message)⟩
    trace :=
      m.trace ++ #[.faultCaught f] ++ Array.replicate more (.faultCaught (.thrown f.message)) }

namespace Machine

theorem rethrown_zero (m : Machine) (f : Fault) :
    ((m.emit (.faultCaught f)).alloc (.string f.message)).2 = m.rethrown f 0 := by
  simp [rethrown, emit, alloc, Heap.alloc]

theorem rethrown_succ (m : Machine) (f : Fault) (more : Nat) :
    (((m.rethrown f more).emit (.faultCaught (.thrown f.message))).alloc (.string f.message)).2 =
      m.rethrown f (more + 1) := by
  simp only [rethrown, emit, alloc, Heap.alloc, Array.replicate_succ, Array.append_push]

end Machine

section Guards

variable {ctx : Context} {fuel : Nat} {body : List Stmt} {a b : Activation} {f : Fault}

/-- A guard does nothing if there is nothing for its handler to see. -/
theorem Stmt.run_guarded_of_unseen
    (hbody : ∀ f b, Stmt.execAll ctx (ctx.calls fuel) fuel .unit body a =
      some (.error (.failed f), b) → f.isInternal = true) (name : String) (handler : List Stmt) :
    (Stmt.guarded body name handler).run ctx fuel a =
      Stmt.execAll ctx (ctx.calls fuel) fuel .unit body a := by
  rw [run, exec, Exec.guarded_apply]
  split
  · next hnone => rw [hnone]
  · next f b hfails => rw [if_pos (hbody f b hfails), hfails]
  · next hother => rw [hother]

/-- Throwing the value of a variable that is a string. -/
theorem Stmt.run_raise_text {name text : String} {r : Handle}
    (hlookup : a.scope.lookup name = some { value := .ref r })
    (hr : a.machine.heap.get? r = some (.string text)) :
    (Stmt.raise (.ident name)).run ctx fuel a = some (.error (.failed (.thrown text)), a) := by
  have hshown : (Value.ref r).shown a.machine = some (.ok text, a.machine) := by
    simp only [Value.shown, Eval.observe, Heap.show?, Heap.showWithin?, hr, Option.map_some]
  have hident : (Expr.ident name).run ctx fuel a.scope a.machine = some (.ok (.ref r), a.machine) :=
    Expr.run_ident hlookup
  rw [run, exec]
  refine bind_eq_error.mpr (.inr ⟨text, a, Exec.eval_eq_ok.mpr ⟨?_, rfl⟩, rfl⟩)
  exact bind_eq_ok.mpr ⟨_, a.machine, hident, hshown⟩

/-- One guard that throws what it catches. -/
theorem Stmt.run_rethrowing_once (name : String)
    (hbody : Stmt.execAll ctx (ctx.calls fuel) fuel .unit body a = some (.error (.failed f), b))
    (hf : f.isInternal = false) :
    (Stmt.guarded body name [.raise (.ident name)]).run ctx fuel a =
      some (.error (.failed (.thrown f.message)),
        ⟨b.scope, ((b.machine.emit (.faultCaught f)).alloc (.string f.message)).2⟩) := by
  let m := b.machine.emit (.faultCaught f)
  let inside : Activation :=
    ⟨b.scope.child.define name { value := .ref m.heap.next }, (m.alloc (.string f.message)).2⟩
  have hstart : handlerStart? ctx fuel body name a = some (b.scope, inside) := by
    simp only [handlerStart?, hbody, hf, Bool.false_eq_true, if_false]
    rfl
  have hlookup : inside.scope.lookup name = some { value := .ref m.heap.next } := by
    rw [Scope.lookup_define, if_pos rfl]
  have hstored : inside.machine.heap.get? m.heap.next = some (.string f.message) := by
    show (m.heap.alloc (.string f.message)).get? m.heap.next = _
    rw [Heap.get?_alloc, if_pos rfl]
  have hhandler : Stmt.execAll ctx (ctx.calls fuel) fuel .unit [.raise (.ident name)] inside =
      some (.error (.failed (.thrown f.message)), inside) := by
    rw [execAll]
    exact bind_eq_error.mpr (.inl (run_raise_text hlookup hstored))
  rw [run_guarded, hstart]
  simp only [hhandler, Option.map_some]
  rfl

/-- **Throwing what was caught keeps the text.** -/
theorem Stmt.run_rethrowing (name : String)
    (hbody : Stmt.execAll ctx (ctx.calls fuel) fuel .unit body a = some (.error (.failed f), b))
    (hf : f.isInternal = false) (more : Nat) :
    (Stmt.rethrowing name body more).run ctx fuel a =
      some (.error (.failed (.thrown f.message)), ⟨b.scope, b.machine.rethrown f more⟩) := by
  induction more with
  | zero =>
    rw [rethrowing, run_rethrowing_once name hbody hf, Machine.rethrown_zero]
  | succ more ih =>
    have hinner : Stmt.execAll ctx (ctx.calls fuel) fuel .unit [rethrowing name body more] a =
        some (.error (.failed (.thrown f.message)), ⟨b.scope, b.machine.rethrown f more⟩) := by
      rw [execAll]
      exact bind_eq_error.mpr (.inl ih)
    have houter := run_rethrowing_once name hinner rfl
    rw [rethrowing, houter, ← Machine.rethrown_succ]
    rfl

end Guards

/-- **Guards are transparent, and throwing again keeps the text.**  A guarded body that does not end
in a fault that a handler sees is the body, whatever the handler is.  If it does end in such a fault,
then any number of guards around it, at least one, that throw what they catch end in a thrown fault
with the same text, in the scope that the body has left, and with nothing done to the machine but
that each of them has stored the text and has recorded an event. -/
theorem guards_transparent (ctx : Context) (fuel : Nat) (body : List Stmt) (a : Activation) :
    ((∀ f b, Stmt.execAll ctx (ctx.calls fuel) fuel .unit body a = some (.error (.failed f), b) →
        f.isInternal = true) →
      ∀ (name : String) (handler : List Stmt),
        (Stmt.guarded body name handler).run ctx fuel a =
          Stmt.execAll ctx (ctx.calls fuel) fuel .unit body a) ∧
    ∀ f b, Stmt.execAll ctx (ctx.calls fuel) fuel .unit body a = some (.error (.failed f), b) →
      f.isInternal = false → ∀ (name : String) (more : Nat),
        ∃ g c, (Stmt.rethrowing name body more).run ctx fuel a = some (.error (.failed g), c) ∧
          g = .thrown f.message ∧ g.message = f.message ∧ c.scope = b.scope ∧
            c.machine = { b.machine with
              heap := ⟨b.machine.heap.objects ++ Array.replicate (more + 1) (.string f.message)⟩
              trace := b.machine.trace ++ #[.faultCaught f] ++
                Array.replicate more (.faultCaught (.thrown f.message)) } := by
  refine ⟨Stmt.run_guarded_of_unseen, fun f b hbody hf name more => ?_⟩
  exact ⟨_, _, Stmt.run_rethrowing name hbody hf more, rfl, rfl, rfl, rfl⟩

/-- A return passes a guard whose handler would have ended a loop.  A division by zero that is thrown
again twice, out of variables of the same name, is still called a division by zero. -/
theorem guards_transparent_thrownTwice :
    (Stmt.guarded [.ret (some (.int 7))] "x" [.breakLoop]).run {} 0 {} =
        some (.error (.returned (.integer 7)), {}) ∧
    ∃ g c, (Stmt.rethrowing "x" [.expr (.arith .div (.int 1) (.int 0))] 1).run {} 0 {} =
        some (.error (.failed g), c) ∧
      g = .thrown "division by zero" ∧ c.scope = .root ∧
        c.machine.heap.objects = #[.string "division by zero", .string "division by zero"] ∧
        c.machine.trace =
          #[.faultCaught .divisionByZero, .faultCaught (.thrown "division by zero")] := by
  have hreturns : ∀ f b, Stmt.execAll {} (Context.calls {} 0) 0 .unit [.ret (some (.int 7))] {} =
      some (.error (.failed f), b) → f.isInternal = true := by
    intro f b h
    cases h
  obtain ⟨g, c, hrun, hg, -, hscope, hm⟩ := (guards_transparent {} 0
    [.expr (.arith .div (.int 1) (.int 0))] {}).2 .divisionByZero {} rfl rfl "x" 1
  refine ⟨(guards_transparent {} 0 [.ret (some (.int 7))] {}).1 hreturns "x" [.breakLoop],
    g, c, hrun, hg, hscope, ?_, ?_⟩
  · rw [hm]
    rfl
  · rw [hm]
    rfl

end Imperative
