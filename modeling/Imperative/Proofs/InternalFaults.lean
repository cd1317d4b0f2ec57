import Imperative.Proofs.Moments.Depth
import Imperative.Proofs.Moments.Failing

/-!
# Internal faults are final

An internal fault means that something has happened that no program can answer for: a handle names
no object, or a break or a continue has got out of a body.  No handler sees such a fault, so a run
that comes to one is over: it ends in that fault, whatever the construct is in which the fault
comes up and whatever surrounds it, and between the one and the other nothing is carried out
(`internal_faults_final`).  What is left behind is what was there when the fault came up, except
that the counts of what is in progress are again those of the start.

That a fault goes from every part of a moment to the moment itself is `Starts.fails`; this file
reads it off for all that can be run.
-/

namespace Imperative

/-- A run comes to a moment that fails with an internal fault, at this activation. -/
structure Moment.Hits (ctx : Context) (c d : Moment) (f : Fault) (b : Activation) : Prop where
  reaches : c.Reaches ctx d
  fails : d.Fails ctx f b
  internal : f.isInternal = true

/-- A run is over as soon as one of its moments is, which leaves the first activation: nothing else
is carried out, the run ends at the second activation, and up to there nothing happens but that
what is in progress is discounted. -/
structure Moment.OverWith (ctx : Context) (c d : Moment) (b b' : Activation) : Prop where
  last : d.timeline ctx <:+ c.timeline ctx
  leaves : b.Leaves b'
  restored : b'.machine.progress = c.start.machine.progress

namespace Moment.Hits

variable {ctx : Context} {c d : Moment} {fuel : Nat} {f : Fault} {b : Activation}

theorem fails_with (h : Moment.Hits ctx c d f b) :
    ∃ b', c.Fails ctx f b' ∧ Moment.OverWith ctx c d b b' := by
  obtain ⟨b', hfails, hleaves, hlast⟩ := h.fails.of_reaches h.reaches h.internal
  exact ⟨b', hfails, hlast, hleaves, Moment.progress_of_run hfails⟩

/-- What is evaluated in a scope leaves the scope alone. -/
theorem eval_fails_with {α : Type} {x : Scope → Eval α} {task : Task} {scope : Scope} {m : Machine}
    (htask : task.run ctx fuel = (fun _ => ()) <$> Exec.eval x)
    (h : Moment.Hits ctx ⟨fuel, task, ⟨scope, m⟩⟩ d f b) :
    ∃ m', x scope m = some (.error f, m') ∧
      Moment.OverWith ctx ⟨fuel, task, ⟨scope, m⟩⟩ d b ⟨scope, m'⟩ := by
  obtain ⟨⟨scope', m'⟩, hfails, hover⟩ := h.fails_with
  simp only [Moment.Fails, htask] at hfails
  obtain ⟨hx, rfl⟩ := Exec.eval_eq_failed.mp (Action.map_eq_error.mp hfails)
  exact ⟨m', hx, hover⟩

end Moment.Hits

namespace Interpreter

variable {i : Interpreter} {fuel : Nat} {f : Fault}

theorem runIn_of_failed {scope : Scope} {p : Program} {b : Activation}
    (h : Moment.Fails (i.declareAll p.functions).context
      ⟨fuel, .execAll .unit p.statements, ⟨scope, i.machine⟩⟩ f b) :
    i.runIn fuel scope p =
      some ⟨.error f, b.scope, { i.declareAll p.functions with machine := b.machine }⟩ := by
  have hexec : Program.exec (i.declareAll p.functions).context fuel p.statements
      ⟨scope, (i.declareAll p.functions).machine⟩ = some (.error (.failed f), b) := by
    rw [machine_declareAll]
    exact Program.exec_eq_error.mpr (Moment.fails_execAll.mp h)
  exact execute_of_error hexec

end Interpreter

/-- **Internal faults are final.**  If anything that comes up in a run fails with an internal
fault, then the run ends in the same fault, and it is over from then on: nothing else is carried
out, and nothing changes except that the counts of what is in progress become again what they
were.  This holds of statements, of expressions and of calls, and of programs and calls of a
host. -/
theorem internal_faults_final (fuel : Nat) (d : Moment) (f : Fault) (b : Activation) :
    (∀ (ctx : Context) (s : Stmt) (a : Activation),
      Moment.Hits ctx ⟨fuel, .exec s, a⟩ d f b →
        ∃ b', s.run ctx fuel a = some (.error (.failed f), b') ∧
          Moment.OverWith ctx ⟨fuel, .exec s, a⟩ d b b') ∧
    (∀ (ctx : Context) (e : Expr) (scope : Scope) (m : Machine),
      Moment.Hits ctx ⟨fuel, .eval e, ⟨scope, m⟩⟩ d f b →
        ∃ m', e.run ctx fuel scope m = some (.error f, m') ∧
          Moment.OverWith ctx ⟨fuel, .eval e, ⟨scope, m⟩⟩ d b ⟨scope, m'⟩) ∧
    (∀ (ctx : Context) (caller : Scope) (g : Function) (args : List Value) (m : Machine),
      Moment.Hits ctx ⟨fuel, .call g args, ⟨caller, m⟩⟩ d f b →
        ∃ m', ctx.calls fuel caller g args m = some (.error f, m') ∧
          Moment.OverWith ctx ⟨fuel, .call g args, ⟨caller, m⟩⟩ d b ⟨caller, m'⟩) ∧
    (∀ (i : Interpreter) (scope : Scope) (p : Program),
      Moment.Hits (i.declareAll p.functions).context
          ⟨fuel, .execAll .unit p.statements, ⟨scope, i.machine⟩⟩ d f b →
        ∃ b', i.runIn fuel scope p =
            some ⟨.error f, b'.scope, { i.declareAll p.functions with machine := b'.machine }⟩ ∧
          Moment.OverWith (i.declareAll p.functions).context
            ⟨fuel, .execAll .unit p.statements, ⟨scope, i.machine⟩⟩ d b b') ∧
    (∀ (i : Interpreter) (name : String) (g : Function) (args : List Value),
      i.functions[name]? = some g →
        Moment.Hits i.context ⟨fuel, .call g args, ⟨.root, i.machine⟩⟩ d f b →
          ∃ m', i.complete fuel name args = some (.error f, { i with machine := m' }) ∧
            Moment.OverWith i.context ⟨fuel, .call g args, ⟨.root, i.machine⟩⟩ d b
              ⟨.root, m'⟩) := by
  refine ⟨?stmt, ?expr, ?call, ?program, ?host⟩
  case stmt =>
    intro ctx s a h
    obtain ⟨b', hfails, hover⟩ := h.fails_with
    exact ⟨b', Moment.fails_exec.mp hfails, hover⟩
  case expr =>
    intro ctx e scope m h
    exact h.eval_fails_with rfl
  case call =>
    intro ctx caller g args m h
    exact h.eval_fails_with rfl
  case program =>
    intro i scope p h
    obtain ⟨b', hfails, hover⟩ := h.fails_with
    exact ⟨b', Interpreter.runIn_of_failed hfails, hover⟩
  case host =>
    intro i name g args hg h
    obtain ⟨m', hcall, hover⟩ := h.eval_fails_with rfl
    exact ⟨m', Interpreter.complete_of_calls hg hcall, hover⟩

/-- A function with a break that stands in no loop of its own. -/
def breaksOut : Function where
  name := "f"
  params := []
  body := [.breakLoop]

/-- The call of the function, under guard. -/
def guardedBreak : Stmt :=
  .guarded [.expr (.call "f" [])] "e" [.expr (.list [])]

/-- A loop without end that calls the function under guard, under guard in turn. -/
def guardedLoop : Stmt :=
  .guarded [.whileDo (.bool true) [guardedBreak]] "e" [.expr (.call "f" [])]

/-- The function is declared. -/
def breakingContext : Context where
  functions := (∅ : Std.ExtTreeMap String Function).insert "f" breaksOut

/-- The call that the break gets out of is the last thing that happens: the loop does not go on,
and neither handler starts. -/
theorem internal_faults_final_guardedLoop :
    ∃ b', guardedLoop.run breakingContext 2 ⟨.root, {}⟩ =
        some (.error (.failed .breakOutsideLoop), b') ∧
      b'.machine.tally.calls = 1 ∧ b'.machine.trace = #[] ∧ b'.machine.progress = (0, 0) := by
  have hf : breakingContext.functions["f"]? = some breaksOut := by
    simp [breakingContext]
  have hcallee : breakingContext.calleeOf .root "f" 0 (Machine.enterLoop {}) =
      some (.ok (.function breaksOut), Machine.enterLoop {}) := by
    rw [Context.calleeOf, Context.functionOf_eq hf]
    rfl
  have hcall : Starts breakingContext
      ⟨2, .eval (.call "f" []), ⟨.root, Machine.enterLoop {}⟩⟩
      ⟨2, .call breaksOut [], ⟨.root, Machine.enterLoop {}⟩⟩ := .call hcallee rfl
  have hinner : Moment.Reaches breakingContext ⟨2, .exec guardedBreak, ⟨.root, Machine.enterLoop {}⟩⟩
      ⟨2, .call breaksOut [], ⟨.root, Machine.enterLoop {}⟩⟩ :=
    .head .guarded (.head .head (.head (.operand rfl) (.single hcall)))
  have hreaches : Moment.Reaches breakingContext ⟨2, .exec guardedLoop, ⟨.root, {}⟩⟩
      ⟨2, .call breaksOut [], ⟨.root, Machine.enterLoop {}⟩⟩ :=
    .head .guarded (.head .head (.head .whileDo (.head (.whileTurn rfl rfl) (.head .head hinner))))
  have hfails : Moment.Fails breakingContext
      ⟨2, .call breaksOut [], ⟨.root, Machine.enterLoop {}⟩⟩ .breakOutsideLoop
      ⟨.root, (Machine.enterLoop {}).enterCall.leaveCall⟩ := rfl
  obtain ⟨b', hrun, hover⟩ := (internal_faults_final 2 _ _ _).1 breakingContext guardedLoop
    ⟨.root, {}⟩ ⟨hreaches, hfails, rfl⟩
  refine ⟨b', hrun, ?_, ?_, hover.restored⟩
  · rw [hover.leaves.machine]
    rfl
  · rw [hover.leaves.machine]
    rfl

end Imperative
