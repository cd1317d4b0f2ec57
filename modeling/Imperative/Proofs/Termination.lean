import Imperative.Proofs.Moments.Depth
import Imperative.Proofs.Moments.Ending
import Imperative.Proofs.Refinement

/-!
# Runs within limits end

Three things could keep a run from ending: calls inside calls without end, a while loop that goes
on, and a comparison or a text of a value that contains itself.  The limit on calls rules out the
first, whatever else a program does, and also if it catches the fault and calls again: a fault at
the limit is a fault of the call, and the bodies around it are still counted.  The second is ruled
out by a limit on turns, or because there is no while loop.  Only the third is left
(`limited_runs_end`).

The argument is about the moments of a run.  The fuel of a moment and the number of bodies in
progress have the same sum at all moments, because a part of a call has less fuel by one and one
body more in progress (`Starts.depth`).  As long as bodies are only entered below the limit, fuel
that exceeds the limit at the start is therefore never used up.  Together with the count of a
loop's turns this is an invariant of all moments, `Moment.Sustained`, under which no moment is
exhausted.
-/

namespace Imperative

/-! ## While loops -/

mutual

/-- Whether a while loop occurs in a statement. -/
def Stmt.hasWhile : Stmt → Bool
  | .cond _ yes no => Stmt.anyHasWhile yes || Stmt.anyHasWhile no
  | .whileDo _ _ => true
  | .forRange _ _ _ body => Stmt.anyHasWhile body
  | .block body => Stmt.anyHasWhile body
  | .guarded body _ handler => Stmt.anyHasWhile body || Stmt.anyHasWhile handler
  | _ => false

/-- Whether a while loop occurs in one of several statements. -/
def Stmt.anyHasWhile : List Stmt → Bool
  | [] => false
  | s :: rest => s.hasWhile || Stmt.anyHasWhile rest

end

/-- Whether a while loop occurs in the code of a task. -/
def Task.hasWhile : Task → Bool
  | .exec s => s.hasWhile
  | .execAll _ body => Stmt.anyHasWhile body
  | .whileTrue _ _ _ _ => true
  | .range _ body _ _ _ => Stmt.anyHasWhile body
  | .call f _ => Stmt.anyHasWhile f.body
  | _ => false

/-- There is a limit on the turns of a loop, and a counter of 64 bits can exceed it. -/
def Limits.BoundTurns (l : Limits) : Prop := ∃ n, l.turns = some n ∧ n < UInt64.size - 1

/-- No loop can go on for ever in this code, nor in a function that it may call: the turns are
limited, or there are no while loops. -/
def Context.BoundsLoops (ctx : Context) (hasWhile : Bool) : Prop :=
  ctx.limits.BoundTurns ∨ hasWhile = false ∧
    ∀ (name : String) (f : Function), ctx.functions[name]? = some f →
      Stmt.anyHasWhile f.body = false

/-- What is part of bounded code is bounded. -/
theorem Context.BoundsLoops.part {ctx : Context} {p q : Bool} (h : ctx.BoundsLoops p)
    (hpart : p = false → q = false) : ctx.BoundsLoops q :=
  h.imp_right fun ⟨hp, hfunctions⟩ => ⟨hpart hp, hfunctions⟩

theorem Context.BoundsLoops.callee {ctx : Context} {p : Bool} (h : ctx.BoundsLoops p)
    {name : String} {f : Function} (hf : ctx.functions[name]? = some f) :
    ctx.BoundsLoops (Stmt.anyHasWhile f.body) :=
  h.imp_right fun ⟨_, hfunctions⟩ => ⟨hfunctions name f hf, hfunctions⟩

/-- What a moment starts is part of its code, or it is a declared function. -/
theorem Starts.boundsLoops {ctx : Context} {c d : Moment} (h : Starts ctx c d)
    (hc : ctx.BoundsLoops c.task.hasWhile) : ctx.BoundsLoops d.task.hasWhile := by
  cases h with
  | call hcallee _ =>
    obtain ⟨target, hf⟩ := Context.calleeOf_eq_function hcallee
    exact hc.callee hf
  | branch _ =>
    refine hc.part fun h => ?_
    simp only [Task.hasWhile, Stmt.hasWhile, Bool.or_eq_false_iff] at h ⊢
    split
    · exact h.1
    · exact h.2
  | _ => exact hc.part fun h => by simp_all [Task.hasWhile, Stmt.hasWhile, Stmt.anyHasWhile]

/-! ## Sustained moments -/

/-- The tests that a while loop has left are those that its turns can need, with one more at the
end. -/
def Task.Counted (l : Limits) : Task → Prop
  | .whileTrue _ _ tests taken => ∃ n, l.turns = some n ∧ taken ≤ n ∧ taken + tests = n + 1
  | _ => True

theorem Limits.lt_of_admitTurn {l : Limits} {n taken : Nat} (hn : l.turns = some n)
    (h : l.admitTurn taken = .ok ()) : taken < n := by
  simp only [admitTurn, hn] at h
  split at h
  · assumption
  · cases h

/-- A moment from which on neither fuel nor tests run out. -/
structure Moment.Sustained (ctx : Context) (c : Moment) : Prop where
  fuel_pos : 0 < c.fuel
  fuel_ample : ctx.limits.callDepth < c.fuel + c.start.machine.callDepth
  loops : ctx.BoundsLoops c.task.hasWhile
  counted : c.task.Counted ctx.limits

namespace Moment.Sustained

variable {ctx : Context} {c d : Moment}

theorem not_exhausted (h : c.Sustained ctx) : c.exhausted = false := by
  obtain ⟨fuel, task, s⟩ := c
  cases task with
  | call f args => exact beq_eq_false_iff_ne.mpr (Nat.ne_of_gt h.fuel_pos)
  | whileTrue test body tests taken =>
    obtain ⟨n, -, htaken, htests⟩ := h.counted
    exact beq_eq_false_iff_ne.mpr (by omega)
  | _ => rfl

theorem starts (h : c.Sustained ctx) (hd : Starts ctx c d) : d.Sustained ctx where
  fuel_pos := by
    have hample := h.fuel_ample
    rcases hd.depth with ⟨hfuel, -⟩ | ⟨hfuel, -, hadmit⟩
    · exact hfuel ▸ h.fuel_pos
    · omega
  fuel_ample := by
    have hample := h.fuel_ample
    rcases hd.depth with ⟨hfuel, hdepth⟩ | ⟨hfuel, hdepth, -⟩ <;> omega
  loops := hd.boundsLoops h.loops
  counted := by
    cases hd with
    | whileDo =>
      rcases h.loops with ⟨n, hn, -⟩ | ⟨hnone, -⟩
      · refine ⟨n, hn, Nat.zero_le n, ?_⟩
        simp only [Limits.testBound, hn, Nat.zero_add]
      · cases hnone
    | whileNext _ hadmit _ =>
      obtain ⟨n, hn, htaken, htests⟩ := h.counted
      exact ⟨n, hn, Limits.lt_of_admitTurn hn hadmit, by omega⟩
    | _ => trivial

theorem of_reaches (h : c.Sustained ctx) (hd : c.Reaches ctx d) : d.Sustained ctx := by
  induction hd with
  | refl => exact h
  | tail _ hstarts ih => exact ih.starts hstarts

/-- A sustained run ends exactly if it never comes to a question without an answer. -/
theorem ends_iff (h : c.Sustained ctx) :
    c.Ends ctx ↔ ∀ d, c.Reaches ctx d → d.Answered := by
  refine Moment.ends_iff.trans (forall_congr' fun d => imp_congr_right fun hd => ?_)
  exact and_iff_right (h.of_reaches hd).not_exhausted

end Moment.Sustained

/-! ## Termination -/

/-- Whatever the run comes to that asks a question has an answer. -/
def Moment.AllAnswered (ctx : Context) (c : Moment) : Prop := ∀ d, c.Reaches ctx d → d.Answered

section Runs

variable {ctx : Context} {fuel : Nat}

/-- With fuel above the limit on calls, a task in bounded code is sustained from wherever it
starts. -/
theorem Moment.sustained_of_lt (task : Task) (hfuel : ctx.limits.callDepth < fuel)
    (hloops : ctx.BoundsLoops task.hasWhile) (htask : task.Counted ctx.limits) (s : Activation) :
    Moment.Sustained ctx ⟨fuel, task, s⟩ where
  fuel_pos := Nat.zero_lt_of_lt hfuel
  fuel_ample := Nat.lt_add_right _ hfuel
  loops := hloops
  counted := htask

/-- What keeps its outcome with more fuel has one for good as soon as it has one. -/
theorem settled_iff {α : Type} {x : Nat → Option α}
    (hmore : ∀ more p, fuel ≤ more → x fuel = some p → x more = some p) :
    (∃ p, ∀ more, fuel ≤ more → x more = some p) ↔ x fuel ≠ none := by
  constructor
  · rintro ⟨p, hp⟩
    exact Option.ne_none_iff_exists'.mpr ⟨p, hp fuel (Nat.le_refl fuel)⟩
  · intro h
    obtain ⟨p, hp⟩ := Option.ne_none_iff_exists'.mp h
    exact ⟨p, fun more hle => hmore more p hle hp⟩

theorem ends_of_stmt {s : Stmt} {a : Activation} (hfuel : ctx.limits.callDepth < fuel)
    (hloops : ctx.BoundsLoops s.hasWhile) :
    (∃ p, ∀ more, fuel ≤ more → s.run ctx more a = some p) ↔
      Moment.AllAnswered ctx ⟨fuel, .exec s, a⟩ := by
  refine (settled_iff fun more p hle h => Stmt.run_of_le hle h).trans ?_
  refine Moment.ends_exec.symm.trans ?_
  exact (Moment.sustained_of_lt (.exec s) hfuel hloops trivial a).ends_iff

theorem ends_of_expr {e : Expr} {scope : Scope} {m : Machine}
    (hfuel : ctx.limits.callDepth < fuel) (hloops : ctx.BoundsLoops false) :
    (∃ p, ∀ more, fuel ≤ more → e.run ctx more scope m = some p) ↔
      Moment.AllAnswered ctx ⟨fuel, .eval e, ⟨scope, m⟩⟩ := by
  refine (settled_iff fun more p hle h => Expr.run_of_le hle h).trans ?_
  refine (Moment.ends_eval (s := ⟨scope, m⟩)).symm.trans ?_
  exact (Moment.sustained_of_lt (.eval e) hfuel hloops trivial ⟨scope, m⟩).ends_iff

theorem ends_of_call {caller : Scope} {f : Function} {args : List Value} {m : Machine}
    (hfuel : ctx.limits.callDepth < fuel) (hloops : ctx.BoundsLoops (Stmt.anyHasWhile f.body)) :
    (∃ p, ∀ more, fuel ≤ more → ctx.calls more caller f args m = some p) ↔
      Moment.AllAnswered ctx ⟨fuel, .call f args, ⟨caller, m⟩⟩ := by
  refine (settled_iff fun more p hle h => ?_).trans ?_
  · exact ctx.calls_of_le hle caller f args m p.1 p.2 h fun _ _ => trivial
  · refine (Moment.ends_call (s := ⟨caller, m⟩)).symm.trans ?_
    exact (Moment.sustained_of_lt (.call f args) hfuel hloops trivial ⟨caller, m⟩).ends_iff

end Runs

namespace Interpreter

variable {fuel : Nat} {i : Interpreter}

theorem execute_ne_none {scope : Scope} {body : List Stmt} :
    i.execute fuel scope body ≠ none ↔
      Moment.Ends i.context ⟨fuel, .execAll .unit body, ⟨scope, i.machine⟩⟩ := by
  obtain ⟨limits, functions, machine⟩ := i
  have hexec : Action.Ends (Program.exec ⟨limits, functions⟩ fuel body) ⟨scope, machine⟩ ↔
      Moment.Ends ⟨limits, functions⟩ ⟨fuel, .execAll .unit body, ⟨scope, machine⟩⟩ := by
    refine Iff.trans ?_ Moment.ends_execAll.symm
    cases body with
    | nil =>
      rw [Stmt.execAll]
      exact iff_of_true (Action.prompt_pure _ _) (Action.prompt_pure _ _)
    | cons s rest => exact Action.ends_map
  refine Iff.trans ?_ hexec
  simp only [execute, Action.Ends]
  cases Program.exec ⟨limits, functions⟩ fuel body ⟨scope, machine⟩ with
  | none => simp
  | some p =>
    obtain ⟨r, b⟩ := p
    cases r <;> simp

theorem evaluate_ne_none {α : Type} {x : Context → Eval α} :
    i.evaluate x ≠ none ↔ Action.Ends (x i.context) i.machine := by
  obtain ⟨limits, functions, machine⟩ := i
  simp only [evaluate, Action.Ends, context]
  cases x ⟨limits, functions⟩ machine <;> simp

theorem ends_of_runIn {scope : Scope} {p : Program} (hfuel : i.limits.callDepth < fuel)
    (hloops : (i.declareAll p.functions).context.BoundsLoops (Stmt.anyHasWhile p.statements)) :
    (∃ ran, ∀ more, fuel ≤ more → i.runIn more scope p = some ran) ↔
      Moment.AllAnswered (i.declareAll p.functions).context
        ⟨fuel, .execAll .unit p.statements, ⟨scope, i.machine⟩⟩ := by
  refine (settled_iff fun more ran hle h => runIn_of_le hle h).trans ?_
  refine execute_ne_none.trans ?_
  rw [machine_declareAll]
  refine (Moment.sustained_of_lt (.execAll .unit p.statements) ?_ hloops trivial _).ends_iff
  rw [context, limits_declareAll]
  exact hfuel

theorem ends_of_complete {name : String} {args : List Value} (hfuel : i.limits.callDepth < fuel)
    (hloops : i.context.BoundsLoops false) :
    (∃ p, ∀ more, fuel ≤ more → i.complete more name args = some p) ↔
      ∀ f, i.functions[name]? = some f →
        Moment.AllAnswered i.context ⟨fuel, .call f args, ⟨.root, i.machine⟩⟩ := by
  refine (settled_iff fun more p hle h => complete_of_le hle h).trans ?_
  refine evaluate_ne_none.trans ?_
  cases hname : i.functions[name]? with
  | some f =>
    have hcallee : i.context.functionOf .root name = pure f := Context.functionOf_eq hname .root
    rw [hcallee, pure_bind]
    simp only [Option.some.injEq, forall_eq']
    refine (Moment.ends_call (s := ⟨.root, i.machine⟩)).symm.trans ?_
    have hbody : i.context.BoundsLoops (Stmt.anyHasWhile f.body) := hloops.callee hname
    exact (Moment.sustained_of_lt (.call f args) hfuel hbody trivial _).ends_iff
  | none =>
    have hcallee : i.context.functionOf .root name = throw (.undefinedFunction name) := by
      simp only [Context.functionOf, context, hname, Scope.lookup_root]
    rw [hcallee]
    exact iff_of_true (Action.prompt_throw _ _) fun f hf => by cases hf

end Interpreter

/-- **Runs within limits end.**  Let the turns of loops be limited, or let there be no while loop
in the code and in the functions declared.  Then with every limit on calls, whatever is carried
out, from wherever, comes to an end and has one outcome for good, provided that every comparison
and every text that it comes to ask for exists; and if one of them does not exist, it does not
come to an end.  Any fuel above the limit on calls is enough. -/
theorem limited_runs_end (fuel : Nat) :
    (∀ (ctx : Context) (s : Stmt) (a : Activation), ctx.limits.callDepth < fuel →
      ctx.BoundsLoops s.hasWhile →
        ((∃ p, ∀ more, fuel ≤ more → s.run ctx more a = some p) ↔
          Moment.AllAnswered ctx ⟨fuel, .exec s, a⟩)) ∧
    (∀ (ctx : Context) (e : Expr) (scope : Scope) (m : Machine), ctx.limits.callDepth < fuel →
      ctx.BoundsLoops false →
        ((∃ p, ∀ more, fuel ≤ more → e.run ctx more scope m = some p) ↔
          Moment.AllAnswered ctx ⟨fuel, .eval e, ⟨scope, m⟩⟩)) ∧
    (∀ (ctx : Context) (caller : Scope) (f : Function) (args : List Value) (m : Machine),
      ctx.limits.callDepth < fuel → ctx.BoundsLoops (Stmt.anyHasWhile f.body) →
        ((∃ p, ∀ more, fuel ≤ more → ctx.calls more caller f args m = some p) ↔
          Moment.AllAnswered ctx ⟨fuel, .call f args, ⟨caller, m⟩⟩)) ∧
    (∀ (i : Interpreter) (scope : Scope) (p : Program), i.limits.callDepth < fuel →
      (i.declareAll p.functions).context.BoundsLoops (Stmt.anyHasWhile p.statements) →
        ((∃ ran, ∀ more, fuel ≤ more → i.runIn more scope p = some ran) ↔
          Moment.AllAnswered (i.declareAll p.functions).context
            ⟨fuel, .execAll .unit p.statements, ⟨scope, i.machine⟩⟩)) ∧
    (∀ (i : Interpreter) (name : String) (args : List Value), i.limits.callDepth < fuel →
      i.context.BoundsLoops false →
        ((∃ p, ∀ more, fuel ≤ more → i.complete more name args = some p) ↔
          ∀ f, i.functions[name]? = some f →
            Moment.AllAnswered i.context ⟨fuel, .call f args, ⟨.root, i.machine⟩⟩)) := by
  refine ⟨?stmt, ?expr, ?call, ?program, ?host⟩
  case stmt =>
    intro ctx s a hfuel hloops
    exact ends_of_stmt hfuel hloops
  case expr =>
    intro ctx e scope m hfuel hloops
    exact ends_of_expr hfuel hloops
  case call =>
    intro ctx caller f args m hfuel hloops
    exact ends_of_call hfuel hloops
  case program =>
    intro i scope p hfuel hloops
    exact Interpreter.ends_of_runIn hfuel hloops
  case host =>
    intro i name args hfuel hloops
    exact Interpreter.ends_of_complete hfuel hloops

/-- A function that calls itself, and calls itself again when that fails, after a comparison of
the text of the fault. -/
def callsAgain : Function where
  name := "f"
  params := []
  body := [
    .guarded [.expr (.call "f" [])] "e" [
      .expr (.eq (.ident "e") (.text "maximum call depth exceeded")),
      .expr (.call "f" [])]]

/-- A loop without end that calls the function and ignores its failures.  What ends the loop is
handled in turn, and thrown again. -/
def triesAgain : Stmt :=
  .guarded [.whileDo (.bool true) [.guarded [.expr (.call "f" [])] "e" []]] "e"
    [.raise (.ident "e")]

/-- At most three bodies in progress, and two turns of a loop. -/
def tightContext : Context where
  limits := { callDepth := 3, turns := some 2 }
  functions := (∅ : Std.ExtTreeMap String Function).insert "f" callsAgain

/-- Although every fault at a limit is caught and what led to it is tried again, there is an
outcome for good after fourteen calls. -/
theorem limited_runs_end_triesAgain :
    ∃ p, (∀ more, 4 ≤ more → triesAgain.run tightContext more ⟨.root, {}⟩ = some p) ∧
      p.2.machine.tally.calls = 14 := by
  have hcalls : (triesAgain.run tightContext 4 ⟨.root, {}⟩).map (·.2.machine.tally.calls) =
      some 14 := by
    decide +kernel
  obtain ⟨p, hrun, hfourteen⟩ := Option.map_eq_some_iff.mp hcalls
  have hends : Moment.Ends tightContext ⟨4, .exec triesAgain, ⟨.root, {}⟩⟩ :=
    Moment.ends_exec.mpr (Option.ne_none_iff_exists'.mpr ⟨p, hrun⟩)
  obtain ⟨p', hp'⟩ := ((limited_runs_end 4).1 tightContext triesAgain ⟨.root, {}⟩ (by decide)
    (.inl ⟨2, rfl, by decide⟩)).mpr fun d hd => (hends.of_reaches hd).answered
  have hsame : p' = p := Option.some.inj ((hp' 4 (Nat.le_refl 4)).symm.trans hrun)
  exact ⟨p', hp', hsame ▸ hfourteen⟩

end Imperative
