import Imperative.Proofs.Primitives
import Imperative.Proofs.Refinement

/-!
# Looser limits

A limit cuts a run short, and that is all it does.  A run that has ended under some limits without
exceeding one is the same run under all looser limits: the same outcome, the same scopes, and the
same machine with its heap, its tables, its tally and its trace (`looser_limits_agree`).  This is
sharp at both limits: a loop may take exactly as many turns as it is allowed, and a call may enter
the last body that is allowed, and nothing changes.

It holds of code without handlers.  A handler sees the fault of a limit like any other, and what it
does then can be anything.

The work has been done in `Imperative.Proofs.Refinement`, where a fault may be declared not to
count.  Here the faults of limits are those that do not.
-/

namespace Imperative

open Imperative.Action

namespace Limits

variable {l l' : Limits}

/-- One pair of limits lies within another.  No limit on turns is the loosest one. -/
structure Within (l l' : Limits) : Prop where
  callDepth : l.callDepth ≤ l'.callDepth
  turns : ∀ n', l'.turns = some n' → ∃ n, l.turns = some n ∧ n ≤ n'

/-- How much more fuel makes up for a limit on turns that falls away. -/
def slack (l : Limits) : Nat :=
  match l.turns with
  | none => 0
  | some n => n + 1

theorem Within.admitCall (h : l.Within l') (depth : Nat) :
    l.admitCall depth = l'.admitCall depth ∨
      ∃ f, l.admitCall depth = .error f ∧ ¬ f.isLimit = false := by
  unfold Limits.admitCall
  by_cases hdepth : depth < l.callDepth
  · have hloose : depth < l'.callDepth := Nat.lt_of_lt_of_le hdepth h.callDepth
    rw [if_pos hdepth, if_pos hloose]
    exact .inl rfl
  · rw [if_neg hdepth]
    exact .inr ⟨_, rfl, ne_false_of_eq_true rfl⟩

theorem Within.admitTurn (h : l.Within l') (taken : Nat) :
    l.admitTurn taken = l'.admitTurn taken ∨
      ∃ f, l.admitTurn taken = .error f ∧ ¬ f.isLimit = false := by
  cases hturns' : l'.turns with
  | none =>
    simp only [Limits.admitTurn, hturns']
    cases l.turns with
    | none => exact .inl rfl
    | some n =>
      by_cases htaken : taken < n
      · exact .inl (if_pos htaken)
      · exact .inr ⟨_, if_neg htaken, ne_false_of_eq_true rfl⟩
  | some n' =>
    obtain ⟨n, hturns, hle⟩ := h.turns n' hturns'
    simp only [Limits.admitTurn, hturns, hturns']
    by_cases htaken : taken < n
    · have hloose : taken < n' := Nat.lt_of_lt_of_le htaken hle
      rw [if_pos htaken, if_pos hloose]
      exact .inl rfl
    · exact .inr ⟨_, if_neg htaken, ne_false_of_eq_true rfl⟩

theorem Within.testBound_le (h : l.Within l') (fuel : Nat) :
    l.testBound fuel ≤ l'.testBound (fuel + l.slack) := by
  cases hturns' : l'.turns with
  | none =>
    cases hturns : l.turns with
    | none => simp only [testBound, slack, hturns, hturns', Nat.add_zero, Nat.le_refl]
    | some n =>
      simp only [testBound, slack, hturns, hturns']
      omega
  | some n' =>
    obtain ⟨n, hturns, hle⟩ := h.turns n' hturns'
    simp only [testBound, hturns, hturns']
    omega

end Limits

/-- Limits that lie within looser ones are loosened by them, in code without handlers. -/
theorem Context.loosens_of_within {ctx : Context} {l : Limits} (hl : ctx.limits.Within l)
    (hctx : ctx.Lacks .guarded) : ctx.Loosens (·.isLimit = false) l ctx.limits.slack where
  limits := ⟨hl.admitCall, hl.admitTurn⟩
  tests := hl.testBound_le
  functions name f hf := .inr (hctx name f hf)

/-- **Looser limits agree.**  Code without handlers that has come to an end under some limits,
and not because one of them was exceeded, comes to the same end under all looser limits: with the
same outcome and in the same state. -/
theorem looser_limits_agree (l : Limits) (fuel : Nat) :
    (∀ (ctx : Context) (s : Stmt) (a b : Activation) (r : Except Exit Value),
      ctx.limits.Within l → ctx.Lacks .guarded → s.has .guarded = false →
        s.run ctx fuel a = some (r, b) → (∀ f, r = .error (.failed f) → f.isLimit = false) →
          ∃ least, ∀ more, least ≤ more → s.run (ctx.under l) more a = some (r, b)) ∧
    (∀ (ctx : Context) (body : List Stmt) (a b : Activation) (r : Except Exit Value),
      ctx.limits.Within l → ctx.Lacks .guarded → Stmt.anyHas .guarded body = false →
        Stmt.execAll ctx (ctx.calls fuel) fuel .unit body a = some (r, b) →
          (∀ f, r = .error (.failed f) → f.isLimit = false) →
            ∃ least, ∀ more, least ≤ more →
              Stmt.execAll (ctx.under l) ((ctx.under l).calls more) more .unit body a =
                some (r, b)) ∧
    (∀ (ctx : Context) (e : Expr) (scope : Scope) (m m' : Machine) (r : Except Fault Value),
      ctx.limits.Within l → ctx.Lacks .guarded → e.run ctx fuel scope m = some (r, m') →
        (∀ f, r = .error f → f.isLimit = false) →
          ∃ least, ∀ more, least ≤ more → e.run (ctx.under l) more scope m = some (r, m')) ∧
    (∀ (ctx : Context) (caller : Scope) (f : Function) (args : List Value) (m m' : Machine)
        (r : Except Fault Completion),
      ctx.limits.Within l → ctx.Lacks .guarded → Stmt.anyHas .guarded f.body = false →
        ctx.calls fuel caller f args m = some (r, m') →
          (∀ g, r = .error g → g.isLimit = false) →
            ∃ least, ∀ more, least ≤ more →
              (ctx.under l).calls more caller f args m = some (r, m')) ∧
    (∀ (i : Interpreter) (scope : Scope) (p : Program) (ran : Interpreter.Ran),
      i.limits.Within l → i.context.Lacks .guarded → p.Lacks .guarded →
        i.runIn fuel scope p = some ran → (∀ f, ran.result = .error f → f.isLimit = false) →
          ∃ least, ∀ more, least ≤ more →
            (i.under l).runIn more scope p = some (ran.under l)) ∧
    (∀ (i i' : Interpreter) (name : String) (args : List Value) (r : Except Fault Completion),
      i.limits.Within l → i.context.Lacks .guarded → i.complete fuel name args = some (r, i') →
        (∀ f, r = .error f → f.isLimit = false) →
          ∃ least, ∀ more, least ≤ more →
            (i.under l).complete more name args = some (r, i'.under l)) := by
  refine ⟨?stmt, ?body, ?expr, ?call, ?program, ?host⟩
  case stmt =>
    intro ctx s a b r hl hctx hs h hr
    have hloose := (Context.loosens_of_within hl hctx).stmt fuel (.inr hs) a r b h
      fun e he f hf => hr f (by rw [he, hf])
    exact ⟨_, fun more hle => Stmt.run_of_le hle hloose⟩
  case body =>
    intro ctx body a b r hl hctx hbody h hr
    have hloose := (Context.loosens_of_within hl hctx).body fuel .unit (.inr hbody) a r b h
      fun e he f hf => hr f (by rw [he, hf])
    exact ⟨_, fun more hle => Stmt.execAll_of_le hle hloose⟩
  case expr =>
    intro ctx e scope m m' r hl hctx h hr
    have hloose := (Context.loosens_of_within hl hctx).expr fuel scope e m r m' h hr
    exact ⟨_, fun more hle => Expr.run_of_le hle hloose⟩
  case call =>
    intro ctx caller f args m m' r hl hctx hf h hr
    have hloose := (Context.loosens_of_within hl hctx).calls fuel (.inr hf) caller args m r m' h hr
    exact ⟨_, fun more hle =>
      (ctx.under l).calls_of_le hle caller f args m r m' hloose fun _ _ => trivial⟩
  case program =>
    intro i scope p ran hl hi hp h hr
    have hctx : (i.declareAll p.functions).context.limits.Within l := by
      rw [show (i.declareAll p.functions).context.limits = i.limits from
        i.limits_declareAll p.functions]
      exact hl
    have hloose := Interpreter.runIn_refines
      (Context.loosens_of_within hctx (Interpreter.lacks_declareAll hi hp.functions))
      (.inr hp.statements) h hr
    exact ⟨_, fun more hle => Interpreter.runIn_of_le hle hloose⟩
  case host =>
    intro i i' name args r hl hi h hr
    have hloose := Interpreter.complete_refines (Context.loosens_of_within hl hi) h hr
    exact ⟨_, fun more hle => Interpreter.complete_of_le hle hloose⟩

/-- A function that calls another one in each turn of a loop. -/
def callsInTurns : Function where
  name := "outer"
  params := []
  body := [
    .declare "k" none (.int 0),
    .whileDo (.compare .lt (.ident "k") (.int 3)) [
      .expr (.call "inner" []),
      .assign "k" (.arith .add (.ident "k") (.int 1))],
    .ret (some (.ident "k"))]

/-- The other function. -/
def entersLast : Function where
  name := "inner"
  params := []
  body := [.forRange "j" (.int 0) (.int 3) [.expr (.list [.ident "j"])]]

/-- An interpreter whose limits the two functions just keep. -/
def exactLimits : Interpreter :=
  { limits := { callDepth := 2, turns := some 3 } : Interpreter }.declareAll
    [callsInTurns, entersLast]

/-- A run that takes all turns and enters all bodies that it may is the same run where there is
room for more bodies and no limit on turns. -/
theorem looser_limits_agree_exactLimits :
    ∃ c i, exactLimits.complete 4 "outer" [] = some (.ok c, i) ∧
      i.machine.tally.calls = 4 ∧ i.machine.heap.size = 9 ∧
        ∃ least, ∀ more, least ≤ more →
          (exactLimits.under {}).complete more "outer" [] = some (.ok c, i.under {}) := by
  have hcounts : (exactLimits.complete 4 "outer" []).map
      (fun p => (p.1.toOption.isSome, p.2.machine.tally.calls, p.2.machine.heap.size)) =
        some (true, 4, 9) := by
    decide +kernel
  obtain ⟨⟨r, i⟩, hrun, hcounts⟩ := Option.map_eq_some_iff.mp hcounts
  cases r with
  | error f => cases congrArg Prod.fst hcounts
  | ok c =>
    have hcalls := congrArg (·.2.1) hcounts
    have hsize := congrArg (·.2.2) hcounts
    have hwithin : exactLimits.limits.Within {} := ⟨by decide, nofun⟩
    have hlacks : exactLimits.context.Lacks .guarded := by
      refine Interpreter.lacks_declareAll (fun name f hf => ?_) fun f hf => ?_
      · have hnone : (∅ : Std.ExtTreeMap String Function)[name]? = none :=
          Std.ExtTreeMap.getElem?_empty
        cases hnone.symm.trans hf
      · have hmem : f = callsInTurns ∨ f = entersLast := by simpa using hf
        rcases hmem with rfl | rfl <;> rfl
    exact ⟨c, i, hrun, hcalls, hsize, (looser_limits_agree {} 4).2.2.2.2.2 exactLimits i "outer" []
      (.ok c) hwithin hlacks hrun nofun⟩

end Imperative
