import Imperative.Proofs.Moments.Serving

/-!
# Where faults come up

A moment that fails either passes on the fault of its last part or *raises* the fault itself
(`Moment.Raises`), and going down from what fails to the part that made it fail leads to a moment
that raises the fault (`Moment.Fails.reaches_raises`).

The fault of a limit is raised in three places only, because no expression and no statement that is
served fails because of a limit (`Imperative.Proofs.Moments.Serving`): a call raises it if the limit
on bodies refuses the call, and the two loops do if the limit on turns refuses a turn
(`Moment.Raises.refused`).
-/

namespace Imperative

open Imperative.Action

namespace Moment

/-- A moment fails with a fault that its last part does not fail with. -/
structure Raises (ctx : Context) (c : Moment) (f : Fault) : Prop where
  fails : ∃ b, c.Fails ctx f b
  anew : ∀ d b, (c.parts ctx).getLast? = some d → ¬ d.Fails ctx f b

/-- A limit refuses what the task does next, with this fault. -/
def Refused (ctx : Context) (c : Moment) (f : Fault) : Prop :=
  match c.task with
  | .call _ _ => ctx.limits.admitCall c.start.machine.callDepth = .error f
  | .whileTrue _ _ _ taken => ctx.limits.admitTurn taken = .error f
  | .range _ _ _ taken _ => ctx.limits.admitTurn taken = .error f
  | _ => False

/-- Every fault is raised somewhere. -/
theorem Fails.reaches_raises {ctx : Context} {c : Moment} {f : Fault} {b : Activation}
    (h : c.Fails ctx f b) : ∃ d, c.Reaches ctx d ∧ d.Raises ctx f := by
  induction c using (starts_wf ctx).induction generalizing b with
  | _ c ih =>
    by_cases hpassed : ∃ d b', (c.parts ctx).getLast? = some d ∧ d.Fails ctx f b'
    · obtain ⟨d, b', hlast, hfails⟩ := hpassed
      have hstarts : Starts ctx c d := mem_parts.mp (List.mem_of_getLast? hlast)
      obtain ⟨e, hreaches, hraises⟩ := ih d hstarts hfails
      exact ⟨e, .head hstarts hreaches, hraises⟩
    · exact ⟨c, .refl, ⟨b, h⟩, fun d b' hlast hfails => hpassed ⟨d, b', hlast, hfails⟩⟩

end Moment

/-! ## The faults of limits -/

section Limits

variable {ctx : Context} {fuel : Nat} {s b : Activation} {m m' : Machine} {scope : Scope} {f : Fault}

/-- **An expression raises no fault of a limit.** -/
theorem Expr.hasFailing {e : Expr} (hf : f.isLimit = true)
    (h : e.run ctx fuel s.scope s.machine = some (.error f, m')) :
    Moment.HasFailing ctx ⟨fuel, .eval e, s⟩ f := by
  refine (fails_served h).resolve_right fun hdeclines => ?_
  rw [hdeclines.limit] at hf
  cases hf

theorem Expr.hasFailing_all {es : List Expr}
    (h : Expr.evalAll ctx (ctx.calls fuel) s.scope es s.machine = some (.error f, m')) :
    Moment.HasFailing ctx ⟨fuel, .evalAll es, s⟩ f := by
  cases es with
  | nil =>
    rw [evalAll] at h
    cases h
  | cons e es =>
    rw [evalAll] at h
    rcases bind_eq_error.mp h with h | ⟨v, m₁, hv, h⟩
    · exact ⟨_, ⟨s.scope, m'⟩, .firstOf, Moment.fails_eval.mpr ⟨h, rfl⟩⟩
    · rcases bind_eq_error.mp h with h | ⟨vs, m₂, -, h⟩
      · exact ⟨_, ⟨s.scope, m'⟩, .restOf hv, Moment.fails_evalAll.mpr ⟨h, rfl⟩⟩
      · cases h

/-- **A statement raises no fault of a limit.**  Its loop may, but that is a part of it. -/
theorem Stmt.hasFailing {t : Stmt} (hf : f.isLimit = true)
    (h : t.run ctx fuel s = some (.error (.failed f), b)) :
    Moment.HasFailing ctx ⟨fuel, .exec t, s⟩ f := by
  refine (fails_served h).resolve_right ?_
  rintro ⟨m, hdeclines, -, -⟩
  rw [hdeclines.limit] at hf
  cases hf

theorem Stmt.hasFailing_all {last : Value} {body : List Stmt}
    (h : Stmt.execAll ctx (ctx.calls fuel) fuel last body s = some (.error (.failed f), b)) :
    Moment.HasFailing ctx ⟨fuel, .execAll last body, s⟩ f := by
  cases body with
  | nil =>
    rw [execAll] at h
    cases h
  | cons t rest =>
    rw [execAll] at h
    rcases bind_eq_error.mp h with h | ⟨v, b₁, hv, h⟩
    · exact ⟨_, b, .head, Moment.fails_exec.mpr h⟩
    · exact ⟨_, b, .tail hv, Moment.fails_execAll.mpr h⟩

theorem Exec.require_eq_failed {α : Type} {c : Except Fault α}
    (h : Exec.require c s = some (.error (.failed f), b)) : c = .error f := by
  cases c <;> cases h
  rfl

theorem Task.whileTrue_fails {test : Expr} {body : List Stmt} {tests taken : Nat}
    (hf : f.isLimit = true)
    (h : Moment.Fails ctx ⟨fuel, .whileTrue test body tests taken, s⟩ f b) :
    Moment.HasFailing ctx ⟨fuel, .whileTrue test body tests taken, s⟩ f ∨
      ctx.limits.admitTurn taken = .error f := by
  cases tests with
  | zero => cases h
  | succ tests =>
    simp only [Moment.Fails, run] at h
    rw [Loop.whileTrue] at h
    rcases bind_eq_error.mp h with h | ⟨go, b₁, hgo, h⟩
    · rcases Exec.eval_bind_fails (fun v => (v.primitive_truth _).clean) h with
        htest | ⟨hlimit, -⟩
      · exact .inl ⟨_, b, .test, htest⟩
      · rw [hlimit] at hf
        cases hf
    · obtain ⟨m, htest, rfl⟩ := Expr.test_eq_ok.mp hgo
      cases go with
      | false => cases h
      | true =>
        rcases bind_eq_error.mp h with h | ⟨u, b₁, hrequire, h⟩
        · exact .inr (Exec.require_eq_failed h)
        · cases hallow : ctx.limits.admitTurn taken with
          | error g =>
            rw [hallow] at hrequire
            cases hrequire
          | ok u' =>
            rw [hallow] at hrequire
            cases hrequire
            rcases bind_eq_error.mp h with h | ⟨on, b₂, hturn, h⟩
            · exact .inl ⟨_, b, .whileTurn htest hallow,
                Moment.fails_execAll.mpr (turn_eq_failed.mp h)⟩
            · cases on with
              | false => cases h
              | true => exact .inl ⟨_, b, .whileNext htest hallow hturn, h⟩

theorem Task.range_fails {name : String} {body : List Stmt} {left taken : Nat} {i : Int64}
    (h : Moment.Fails ctx ⟨fuel, .range name body left taken i, s⟩ f b) :
    Moment.HasFailing ctx ⟨fuel, .range name body left taken i, s⟩ f ∨
      ctx.limits.admitTurn taken = .error f := by
  cases left with
  | zero => cases h
  | succ left =>
    cases hallow : ctx.limits.admitTurn taken with
    | error g =>
      simp only [Moment.Fails, run] at h
      rw [Loop.range, bind_apply, hallow, Exec.require] at h
      cases h
      exact .inr rfl
    | ok u =>
      rcases bind_eq_error.mp ((run_range hallow).symm.trans h) with h | ⟨on, b₂, hturn, h⟩
      · exact .inl ⟨_, b, .rangeTurn hallow, Moment.fails_execAll.mpr (turn_eq_failed.mp h)⟩
      · cases on with
        | false => cases h
        | true => exact .inl ⟨_, b, .rangeNext hallow hturn, h⟩

theorem Call.entry_fails {g : Function} {args : List Value} (hf : f.isLimit = true)
    (h : Call.entry ctx scope g args m = .error f) : ctx.limits.admitCall m.callDepth = .error f := by
  unfold entry at h
  split at h
  · cases h
    cases hf
  · split at h
    · rw [isLimit_of_bind h] at hf
      cases hf
    · next g' hg =>
      cases h
      exact hg

theorem Task.call_fails {g : Function} {args : List Value} (hf : f.isLimit = true)
    (h : Moment.Fails ctx ⟨fuel, .call g args, s⟩ f b) :
    Moment.HasFailing ctx ⟨fuel, .call g args, s⟩ f ∨
      ctx.limits.admitCall s.machine.callDepth = .error f := by
  obtain ⟨h, -⟩ := Moment.fails_call.mp h
  cases fuel with
  | zero => cases h
  | succ fuel =>
    rcases Call.dispatch_eq_error h with ⟨hentry, -⟩ | ⟨scope, outcome, b₁, hentry, hbody, hcatch⟩
    · exact .inr (Call.entry_fails hf hentry)
    · rcases hcatch with ⟨c, -, hcheck, -⟩ | ⟨e, he, rfl, -⟩
      · rw [Heap.isLimit_of_checkTyped hcheck] at hf
        cases hf
      · cases e with
        | failed f =>
          rw [(Discipline.catchReturn_error he).1] at hbody
          exact .inl ⟨_, b₁, .body hentry, Moment.fails_execAll.mpr hbody⟩
        | _ => cases hf

end Limits

/-- **What fails at a limit was refused, or its last part has failed so.** -/
theorem Moment.Fails.refused_or_last {ctx : Context} {c : Moment} {f : Fault} {b : Activation}
    (h : c.Fails ctx f b) (hf : f.isLimit = true) :
    c.Refused ctx f ∨ ∃ d b', (c.parts ctx).getLast? = some d ∧ d.Fails ctx f b' := by
  have hlast (hhandles : c.task.handles = false) (hpart : c.HasFailing ctx f) :
      ∃ d b', (c.parts ctx).getLast? = some d ∧ d.Fails ctx f b' := by
    obtain ⟨d, b', hstarts, hfails⟩ := hpart
    exact ⟨d, b', hstarts.last (.inl hhandles) hfails, hfails⟩
  obtain ⟨fuel, task, s⟩ := c
  cases task with
  | eval e => exact .inr (hlast rfl (Expr.hasFailing hf (fails_eval.mp h).1))
  | evalAll es => exact .inr (hlast rfl (Expr.hasFailing_all (fails_evalAll.mp h).1))
  | exec t =>
    cases hhandles : (Task.exec t).handles with
    | false => exact .inr (hlast hhandles (Stmt.hasFailing hf (fails_exec.mp h)))
    | true =>
      cases t with
      | guarded body name handler => exact .inr (Stmt.guarded_fails (fails_exec.mp h))
      | _ => cases hhandles
  | execAll last body => exact .inr (hlast rfl (Stmt.hasFailing_all (fails_execAll.mp h)))
  | whileTrue test body tests taken =>
    rcases Task.whileTrue_fails hf h with hpart | hrefused
    · exact .inr (hlast rfl hpart)
    · exact .inl hrefused
  | range name body left taken i =>
    rcases Task.range_fails h with hpart | hrefused
    · exact .inr (hlast rfl hpart)
    · exact .inl hrefused
  | call g args =>
    rcases Task.call_fails hf h with hpart | hrefused
    · exact .inr (hlast rfl hpart)
    · exact .inl hrefused
  | equal x y => exact absurd h not_fails_equal
  | shown v => exact absurd h not_fails_shown

/-- **The fault of a limit is raised only where the limit refuses something.** -/
theorem Moment.Raises.refused {ctx : Context} {c : Moment} {f : Fault} (h : c.Raises ctx f)
    (hf : f.isLimit = true) : c.Refused ctx f := by
  obtain ⟨b, hfails⟩ := h.fails
  rcases hfails.refused_or_last hf with hrefused | ⟨d, b', hlast, hd⟩
  · exact hrefused
  · exact absurd hd (h.anew d b' hlast)

end Imperative
