import Imperative.Proofs.Discipline.Execution

/-!
# The inside of statements

Three constructs start something in the middle of an execution: a guarded statement starts
its handler, a loop statement starts its loop, and a call starts the body of a function.
This file says from which activation each of them starts, and that under every discipline
it is one that is ready, so that what is shown of whole executions applies to the inside
as well.

* `run_guarded`: a guarded statement is its body and then its handler, from
  `Stmt.handlerStart?` if there is such an activation;
* `run_of_loop?`: a loop statement is its loop, `Stmt.loop?`, with the bookkeeping around
  it;
* the body of a call starts from `Call.entry`, as `Call.dispatch_apply` says.
-/

namespace Imperative

/-! ## Handlers -/

/-- Where the handler of a guarded statement starts, if it does: from the machine that the
body leaves, with the text of the fault stored, and in a scope inside the one that the body
leaves.  That one is given as well, since the statement ends in it. -/
def Stmt.handlerStart? (ctx : Context) (fuel : Nat) (body : List Stmt) (name : String)
    (a : Activation) : Option (Scope × Activation) :=
  match Stmt.execAll ctx (ctx.calls fuel) fuel .unit body a with
  | some (.error (.failed f), b) =>
    if f.isInternal then none
    else
      match (b.machine.emit (.faultCaught f)).alloc (.string f.message) with
      | (text, m) => some (b.scope, ⟨b.scope.child.define name { value := text }, m⟩)
  | _ => none

/-- A guarded statement is its body, and after that its handler, if the handler starts. -/
theorem run_guarded (ctx : Context) (fuel : Nat) (body : List Stmt) (name : String)
    (handler : List Stmt) (a : Activation) :
    (Stmt.guarded body name handler).run ctx fuel a =
      match Stmt.handlerStart? ctx fuel body name a with
      | none => Stmt.execAll ctx (ctx.calls fuel) fuel .unit body a
      | some (scope, b) =>
        (Stmt.execAll ctx (ctx.calls fuel) fuel .unit handler b).map
          fun (r, c) => (r, ⟨scope, c.machine⟩) := by
  rw [Stmt.run, Stmt.exec, Exec.guarded_apply, Stmt.handlerStart?]
  cases hbody : Stmt.execAll ctx (ctx.calls fuel) fuel .unit body a with
  | none => rfl
  | some p =>
    obtain ⟨r, b⟩ := p
    cases r with
    | ok v => rfl
    | error e =>
      cases e with
      | returned s => rfl
      | broke => rfl
      | continued => rfl
      | failed f =>
        by_cases hf : f.isInternal = true
        · simp only [hf, if_true]
        · simp only [hf, Bool.false_eq_true, if_false, Action.bind_apply, Exec.change,
            Exec.inChild]
          generalize (b.machine.emit (.faultCaught f)).alloc (.string f.message) = p
          obtain ⟨text, m⟩ := p
          generalize Stmt.execAll ctx (ctx.calls fuel) fuel .unit handler _ = q
          cases q <;> rfl

/-- A handler starts from an activation that is ready, one step from where the guarded
statement started. -/
theorem Discipline.Lawful.handlerStart? {D : Discipline} {ctx : Context} (L : D.Lawful ctx)
    {fuel : Nat} {body : List Stmt} {name : String} {a b : Activation} {scope : Scope}
    (hallow : D.Allows .guarded) (hbody : ∀ c, Stmt.anyHas c body = true → D.Allows c)
    (ha : D.Ready a) (h : Stmt.handlerStart? ctx fuel body name a = some (scope, b)) :
    D.Ready b ∧ D.Step a.machine none b.machine := by
  unfold Stmt.handlerStart? at h
  split at h
  · next f c hc =>
    obtain ⟨hready, hstep, -⟩ := (L.runs_body fuel hbody ha).error _ c hc
    split at h
    · cases h
    · next hf =>
      cases h
      exact (L.handler_ready hallow (by simpa using hf) hready hstep name).2
  · cases h

/-! ## Loops -/

/-- What a loop statement does between the time its loop is counted as in progress and the
time it no longer is; nothing for a statement that is no loop. -/
def Stmt.loop? (ctx : Context) (fuel : Nat) : Stmt → Option (Exec Value)
  | .whileDo test body => some do
    Loop.whileTrue ctx.limits
      (Exec.eval fun scope =>
        test.eval ctx (ctx.calls fuel) scope >>= Value.truth (.condition .whileDo))
      (Exec.turn (Stmt.execAll ctx (ctx.calls fuel) fuel .unit body))
      (ctx.limits.testBound fuel) 0
    return .unit
  | .forRange name start stop body => some do
    let (i, j) ← Exec.eval fun scope => do
      let a ← start.eval ctx (ctx.calls fuel) scope
      let b ← stop.eval ctx (ctx.calls fuel) scope
      Loop.bounds a b
    Loop.range ctx.limits name
      (Exec.turn (Stmt.execAll ctx (ctx.calls fuel) fuel .unit body)) (Loop.turns i j) 0 i
    return .unit
  | _ => none

theorem run_of_loop? {ctx : Context} {fuel : Nat} {s : Stmt} {x : Exec Value}
    (h : s.loop? ctx fuel = some x) : s.run ctx fuel = Exec.inLoop x := by
  cases s <;> cases h
  · rw [Stmt.run, Stmt.exec]
  · rw [Stmt.run, Stmt.exec]

/-- The inside of a loop statement is in order under every discipline that the statement
obeys. -/
theorem Discipline.Lawful.runs_loop? {D : Discipline} {ctx : Context} (L : D.Lawful ctx)
    {fuel : Nat} {s : Stmt} {x : Exec Value} (h : s.loop? ctx fuel = some x)
    (hs : ∀ c, s.has c = true → D.Allows c) {a : Activation} (ha : D.Ready a) :
    D.Runs a x D.Yields := by
  have hcalls := L.covers_calls fuel
  cases s <;> cases h
  · next test body =>
    refine Runs.whileLoop L ?_ ?_ _ ha
    · intro b hb
      exact Runs.evalTest L hcalls (fun c hc => hs c (by simp [Stmt.has, hc])) _ hb
    · intro b hb
      exact Runs.turn L (L.runs_body fuel (fun c hc => hs c (by simp [Stmt.has, hc])) hb)
  · next name start stop body =>
    refine Runs.rangeLoop L (Runs.evalBounds L hcalls
      (fun c hc => hs c (by simp [Stmt.has, hc])) (fun c hc => hs c (by simp [Stmt.has, hc]))
      ha) ?_
    intro b hb
    exact Runs.turn L (L.runs_body fuel (fun c hc => hs c (by simp [Stmt.has, hc])) hb)

end Imperative
