import Imperative.Proofs.Moments.Ending
import Imperative.Proofs.Moments.Timeline
import Imperative.Proofs.Targets

/-!
# Moments that fail

A moment *fails* if its task ends in a fault.  A fault that no handler sees goes from a part to the
whole, whatever the part is a part of (`Starts.fails`): the part is the last one, and on the way
out nothing happens but that scopes are left, and loops and bodies are discounted
(`Activation.Leaves`).  By going out from moment to moment the same holds of everything that a
moment reaches (`Moment.Fails.of_reaches`).
-/

namespace Imperative

open Imperative.Action

/-! ## Failing -/

namespace Moment

/-- The task ends in a fault, at this activation. -/
def Fails (ctx : Context) (c : Moment) (f : Fault) (b : Activation) : Prop :=
  c.task.run ctx c.fuel c.start = some (.error (.failed f), b)

variable {ctx : Context} {fuel : Nat} {s b : Activation} {f : Fault}

theorem fails_eval {e : Expr} :
    Moment.Fails ctx ⟨fuel, .eval e, s⟩ f b ↔
      e.run ctx fuel s.scope s.machine = some (.error f, b.machine) ∧ b.scope = s.scope :=
  map_eq_error.trans Exec.eval_eq_failed

theorem fails_evalAll {es : List Expr} :
    Moment.Fails ctx ⟨fuel, .evalAll es, s⟩ f b ↔
      Expr.evalAll ctx (ctx.calls fuel) s.scope es s.machine = some (.error f, b.machine) ∧
        b.scope = s.scope :=
  map_eq_error.trans Exec.eval_eq_failed

theorem fails_exec {t : Stmt} :
    Moment.Fails ctx ⟨fuel, .exec t, s⟩ f b ↔ t.run ctx fuel s = some (.error (.failed f), b) :=
  map_eq_error

theorem fails_execAll {last : Value} {body : List Stmt} :
    Moment.Fails ctx ⟨fuel, .execAll last body, s⟩ f b ↔
      Stmt.execAll ctx (ctx.calls fuel) fuel last body s = some (.error (.failed f), b) :=
  map_eq_error

theorem fails_call {g : Function} {args : List Value} :
    Moment.Fails ctx ⟨fuel, .call g args, s⟩ f b ↔
      ctx.calls fuel s.scope g args s.machine = some (.error f, b.machine) ∧ b.scope = s.scope :=
  map_eq_error.trans Exec.eval_eq_failed

theorem not_fails_equal {x y : Value} : ¬ Moment.Fails ctx ⟨fuel, .equal x y, s⟩ f b := by
  intro h
  have hobserve := (Exec.eval_eq_failed.mp (map_eq_error.mp h)).1
  simp [Value.equal, Eval.observe] at hobserve

theorem not_fails_shown {v : Value} : ¬ Moment.Fails ctx ⟨fuel, .shown v, s⟩ f b := by
  intro h
  have hobserve := (Exec.eval_eq_failed.mp (map_eq_error.mp h)).1
  simp [Value.shown, Eval.observe] at hobserve

end Moment

/-- The statements of a program fail as a body does. -/
theorem Program.exec_eq_error {ctx : Context} {fuel : Nat} {body : List Stmt} {a b : Activation}
    {e : Exit} :
    Program.exec ctx fuel body a = some (.error e, b) ↔
      Stmt.execAll ctx (ctx.calls fuel) fuel .unit body a = some (.error e, b) := by
  cases body with
  | nil =>
    rw [Stmt.execAll]
    exact iff_of_false nofun nofun
  | cons s rest => exact map_eq_error

/-! ## What happens on the way out -/

/-- Nothing happens from one activation to the other but that scopes are left, and that what is in
progress is discounted. -/
structure Activation.Leaves (a b : Activation) : Prop where
  frames : b.scope.frames <:+ a.scope.frames
  machine : b.machine = { a.machine with
    callDepth := b.machine.callDepth, activeLoops := b.machine.activeLoops }

namespace Activation.Leaves

variable {a b c : Activation}

theorem refl (a : Activation) : a.Leaves a where
  frames := List.suffix_rfl
  machine := rfl

theorem trans (hab : a.Leaves b) (hbc : b.Leaves c) : a.Leaves c where
  frames := hbc.frames.trans hab.frames
  machine := by
    have hc := hbc.machine
    rw [hab.machine] at hc
    exact hc

/-- A loop is left. -/
theorem leaveLoop (a : Activation) :
    a.Leaves ⟨a.scope, { a.machine with activeLoops := a.machine.activeLoops - 1 }⟩ where
  frames := List.suffix_rfl
  machine := rfl

/-- A call is left for the scope of the caller. -/
theorem leaveCall {caller : Scope} (h : a.scope.outer = caller.frames) :
    a.Leaves ⟨caller, a.machine.leaveCall⟩ where
  frames := ⟨[a.scope.own], by rw [← h]; rfl⟩
  machine := rfl

/-- A handler is left for the scope of the statement that it belongs to. -/
theorem leaveHandler {scope : Scope} (h : a.scope.outer = scope.frames) :
    a.Leaves ⟨scope, a.machine⟩ where
  frames := ⟨[a.scope.own], by rw [← h]; rfl⟩
  machine := rfl

end Activation.Leaves

/-! ## From a part to the whole -/

section Parts

variable {ctx : Context} {fuel : Nat} {f : Fault}

theorem Expr.fails_of_first {e a : Expr} (h : e.first? = some a) {scope : Scope} {m m' : Machine}
    (ha : a.run ctx fuel scope m = some (.error f, m')) :
    e.run ctx fuel scope m = some (.error f, m') := by
  cases e <;> cases h <;> rw [run, eval] <;> exact bind_eq_error.mpr (.inl ha)

theorem Expr.fails_of_second {e a b : Expr} {x : Value} (h : e.first? = some a)
    (hb : e.second? x = some b) {scope : Scope} {m m₁ m' : Machine}
    (hx : a.run ctx fuel scope m = some (.ok x, m₁))
    (hfails : b.run ctx fuel scope m₁ = some (.error f, m')) :
    e.run ctx fuel scope m = some (.error f, m') := by
  cases e with
  | logic op a' b' =>
    cases h
    cases x with
    | bool p =>
      simp only [second?, Option.ite_none_left_eq_some, Option.some.injEq] at hb
      obtain ⟨hdecisive, rfl⟩ := hb
      rw [run, eval]
      refine bind_eq_error.mpr (.inr ⟨_, m₁, hx, bind_eq_error.mpr (.inr ⟨p, m₁, rfl, ?_⟩)⟩)
      rw [if_neg hdecisive]
      exact bind_eq_error.mpr (.inl hfails)
    | _ => cases hb
  | _ =>
    cases h <;> cases hb <;> rw [run, eval] <;>
      exact bind_eq_error.mpr (.inr ⟨x, m₁, hx, bind_eq_error.mpr (.inl hfails)⟩)

theorem Stmt.fails_of_operand {t : Stmt} {e : Expr} (h : t.operand? = some e) {s b : Activation}
    (he : e.run ctx fuel s.scope s.machine = some (.error f, b.machine)) (hb : b.scope = s.scope) :
    t.run ctx fuel s = some (.error (.failed f), b) := by
  have heval : Exec.eval (fun scope => e.eval ctx (ctx.calls fuel) scope) s =
      some (.error (.failed f), b) := Exec.eval_eq_failed.mpr ⟨he, hb⟩
  have hbind {α β : Type} (next : Value → Eval α) (k : α → Exec β) :
      (Exec.eval (fun scope => e.eval ctx (ctx.calls fuel) scope >>= next) >>= k) s =
        some (.error (.failed f), b) :=
    bind_eq_error.mpr (.inl (Exec.eval_eq_failed.mpr ⟨bind_eq_error.mpr (.inl he), hb⟩))
  cases t with
  | cond test yes no =>
    cases h
    rw [run, exec]
    exact hbind _ _
  | raise e =>
    cases h
    rw [run, exec]
    exact hbind _ _
  | expr e =>
    cases h
    rw [run, exec]
    exact heval
  | ret value =>
    cases h
    rw [run, exec]
    exact bind_eq_error.mpr (.inl heval)
  | _ =>
    cases h <;> rw [run, exec] <;> exact bind_eq_error.mpr (.inl heval)

/-- What fails inside of a loop makes the loop statement fail. -/
theorem Exec.fails_inLoop {α : Type} {x : Exec α} {s b : Activation}
    (h : x ⟨s.scope, s.machine.enterLoop⟩ = some (.error (.failed f), b)) :
    inLoop x s = some (.error (.failed f),
      ⟨b.scope, { b.machine with activeLoops := b.machine.activeLoops - 1 }⟩) := by
  rw [inLoop, h]
  rfl

/-- What a loop does with a test that holds and a turn that is admitted. -/
theorem Task.run_whileTrue {test : Expr} {body : List Stmt} {tests taken : Nat} {s : Activation}
    {m : Machine} (htest : test.run ctx fuel s.scope s.machine = some (.ok (.bool true), m))
    (hallow : ctx.limits.admitTurn taken = .ok ()) :
    (Task.whileTrue test body (tests + 1) taken).run ctx fuel s =
      (do
        if ← turn ctx fuel body then (Task.whileTrue test body tests (taken + 1)).run ctx fuel
        else pure ()) ⟨s.scope, m⟩ := by
  simp only [run]
  rw [Loop.whileTrue, bind_apply, Expr.test_eq_ok.mpr ⟨m, htest, rfl⟩]
  simp only [if_true]
  rw [bind_apply, hallow, Exec.require]

theorem Task.run_range {name : String} {body : List Stmt} {left taken : Nat} {i : Int64}
    {s : Activation} (hallow : ctx.limits.admitTurn taken = .ok ()) :
    (Task.range name body (left + 1) taken i).run ctx fuel s =
      (do
        if ← turn ctx fuel body then (Task.range name body left (taken + 1) (i + 1)).run ctx fuel
        else pure ()) ⟨s.scope.define name { value := .int i, ty := some .int }, s.machine⟩ := by
  simp only [run]
  rw [Loop.range, bind_apply, hallow, Exec.require]
  rfl

theorem Task.turn_eq_failed {body : List Stmt} {s b : Activation} :
    turn ctx fuel body s = some (.error (.failed f), b) ↔
      Stmt.execAll ctx (ctx.calls fuel) fuel .unit body s = some (.error (.failed f), b) := by
  rw [turn, Exec.turn]
  split <;> simp_all

theorem Stmt.handlerStart?_eq_none {body : List Stmt} {name : String} {s b : Activation}
    (hf : f.isInternal = true)
    (h : Stmt.execAll ctx (ctx.calls fuel) fuel .unit body s = some (.error (.failed f), b)) :
    handlerStart? ctx fuel body name s = none := by
  simp only [handlerStart?, h, hf, if_true]

/-- The scope of a handler lies inside the scope that the body leaves. -/
theorem Stmt.outer_handlerStart? {body : List Stmt} {name : String} {s b : Activation}
    {scope : Scope} (h : handlerStart? ctx fuel body name s = some (scope, b)) :
    b.scope.outer = scope.frames := by
  unfold handlerStart? at h
  split at h
  · split at h <;> cases h
    rfl
  · cases h

end Parts

/-- **An internal fault goes from a part to the whole**, and on the way nothing happens. -/
theorem Starts.fails {ctx : Context} {c d : Moment} {f : Fault} {b : Activation}
    (h : Starts ctx c d) (hf : f.isInternal = true) (hd : d.Fails ctx f b) :
    ∃ b', c.Fails ctx f b' ∧ b.Leaves b' := by
  cases h with
  /- Expressions end where their parts do. -/
  | first ha =>
    obtain ⟨hfails, hscope⟩ := Moment.fails_eval.mp hd
    exact ⟨b, Moment.fails_eval.mpr ⟨Expr.fails_of_first ha hfails, hscope⟩, .refl b⟩
  | second ha hx hb =>
    obtain ⟨hfails, hscope⟩ := Moment.fails_eval.mp hd
    exact ⟨b, Moment.fails_eval.mpr ⟨Expr.fails_of_second ha hb hx hfails, hscope⟩, .refl b⟩
  | equal _ _ _ _ _ => exact absurd hd Moment.not_fails_equal
  | args hcallee =>
    obtain ⟨hfails, hscope⟩ := Moment.fails_evalAll.mp hd
    refine ⟨b, Moment.fails_eval.mpr ⟨?_, hscope⟩, .refl b⟩
    rw [Expr.run, Expr.eval]
    exact bind_eq_error.mpr (.inr ⟨_, _, hcallee, bind_eq_error.mpr (.inl hfails)⟩)
  | call hcallee hvs =>
    obtain ⟨hfails, hscope⟩ := Moment.fails_call.mp hd
    refine ⟨b, Moment.fails_eval.mpr ⟨?_, hscope⟩, .refl b⟩
    rw [Expr.run, Expr.eval]
    refine bind_eq_error.mpr (.inr ⟨_, _, hcallee, bind_eq_error.mpr (.inr ⟨_, _, hvs, ?_⟩)⟩)
    exact bind_eq_error.mpr (.inl hfails)
  | elements =>
    obtain ⟨hfails, hscope⟩ := Moment.fails_evalAll.mp hd
    refine ⟨b, Moment.fails_eval.mpr ⟨?_, hscope⟩, .refl b⟩
    rw [Expr.run, Expr.eval]
    exact bind_eq_error.mpr (.inl hfails)
  | firstOf =>
    obtain ⟨hfails, hscope⟩ := Moment.fails_eval.mp hd
    refine ⟨b, Moment.fails_evalAll.mpr ⟨?_, hscope⟩, .refl b⟩
    rw [Expr.evalAll]
    exact bind_eq_error.mpr (.inl hfails)
  | restOf hv =>
    obtain ⟨hfails, hscope⟩ := Moment.fails_evalAll.mp hd
    refine ⟨b, Moment.fails_evalAll.mpr ⟨?_, hscope⟩, .refl b⟩
    rw [Expr.evalAll]
    exact bind_eq_error.mpr (.inr ⟨_, _, hv, bind_eq_error.mpr (.inl hfails)⟩)
  /- Statements. -/
  | operand ht =>
    obtain ⟨hfails, hscope⟩ := Moment.fails_eval.mp hd
    exact ⟨b, Moment.fails_exec.mpr (Stmt.fails_of_operand ht hfails hscope), .refl b⟩
  | @branch _ _ _ _ _ p _ htest =>
    refine ⟨b, Moment.fails_exec.mpr ?_, .refl b⟩
    rw [Stmt.run, Stmt.exec]
    refine bind_eq_error.mpr (.inr ⟨p, _, Expr.test_eq_ok.mpr ⟨_, htest, rfl⟩, ?_⟩)
    have hfails := Moment.fails_execAll.mp hd
    cases p <;> exact hfails
  | shown _ => exact absurd hd Moment.not_fails_shown
  | block =>
    refine ⟨b, Moment.fails_exec.mpr ?_, .refl b⟩
    rw [Stmt.run, Stmt.exec]
    exact Moment.fails_execAll.mp hd
  | guarded =>
    have hfails := Moment.fails_execAll.mp hd
    refine ⟨b, Moment.fails_exec.mpr ?_, .refl b⟩
    rw [run_guarded, Stmt.handlerStart?_eq_none hf hfails]
    exact hfails
  | @handler _ _ b₀ _ _ _ scope hstart =>
    have hfails := Moment.fails_execAll.mp hd
    have houter : b.scope.outer = scope.frames :=
      (outer_execAll hfails).trans (Stmt.outer_handlerStart? hstart)
    refine ⟨⟨scope, b.machine⟩, Moment.fails_exec.mpr ?_, .leaveHandler houter⟩
    rw [run_guarded, hstart]
    simp only [hfails, Option.map_some]
  | head =>
    refine ⟨b, Moment.fails_execAll.mpr ?_, .refl b⟩
    rw [Stmt.execAll]
    exact bind_eq_error.mpr (.inl (Moment.fails_exec.mp hd))
  | tail hv =>
    refine ⟨b, Moment.fails_execAll.mpr ?_, .refl b⟩
    rw [Stmt.execAll]
    exact bind_eq_error.mpr (.inr ⟨_, _, hv, Moment.fails_execAll.mp hd⟩)
  /- Loops. -/
  | whileDo =>
    refine ⟨_, Moment.fails_exec.mpr ?_, .leaveLoop b⟩
    rw [Stmt.run, Stmt.exec]
    exact Exec.fails_inLoop (bind_eq_error.mpr (.inl hd))
  | test =>
    obtain ⟨hfails, hscope⟩ := Moment.fails_eval.mp hd
    refine ⟨b, ?_, .refl b⟩
    simp only [Moment.Fails, Task.run]
    rw [Loop.whileTrue]
    refine bind_eq_error.mpr (.inl (Exec.eval_eq_failed.mpr ⟨?_, hscope⟩))
    exact bind_eq_error.mpr (.inl hfails)
  | whileTurn htest hadmit =>
    refine ⟨b, (Task.run_whileTrue htest hadmit).trans ?_, .refl b⟩
    exact bind_eq_error.mpr (.inl (Task.turn_eq_failed.mpr (Moment.fails_execAll.mp hd)))
  | whileNext htest hadmit hb =>
    refine ⟨b, (Task.run_whileTrue htest hadmit).trans ?_, .refl b⟩
    exact bind_eq_error.mpr (.inr ⟨true, _, hb, hd⟩)
  | lower =>
    obtain ⟨hfails, hscope⟩ := Moment.fails_eval.mp hd
    refine ⟨_, Moment.fails_exec.mpr ?_, .leaveLoop b⟩
    rw [Stmt.run, Stmt.exec]
    refine Exec.fails_inLoop (bind_eq_error.mpr (.inl (Exec.eval_eq_failed.mpr ⟨?_, hscope⟩)))
    exact bind_eq_error.mpr (.inl hfails)
  | upper hx =>
    obtain ⟨hfails, hscope⟩ := Moment.fails_eval.mp hd
    refine ⟨_, Moment.fails_exec.mpr ?_, .leaveLoop b⟩
    rw [Stmt.run, Stmt.exec]
    refine Exec.fails_inLoop (bind_eq_error.mpr (.inl (Exec.eval_eq_failed.mpr ⟨?_, hscope⟩)))
    exact bind_eq_error.mpr (.inr ⟨_, _, hx, bind_eq_error.mpr (.inl hfails)⟩)
  | @range _ s _ start stop _ i j _ m' hx hy =>
    refine ⟨_, Moment.fails_exec.mpr ?_, .leaveLoop b⟩
    rw [Stmt.run, Stmt.exec]
    refine Exec.fails_inLoop (bind_eq_error.mpr (.inr ⟨(i, j), ⟨s.scope, m'⟩, ?_, ?_⟩))
    · refine Exec.eval_eq_ok.mpr ⟨bind_eq_ok.mpr ⟨_, _, hx, bind_eq_ok.mpr ⟨_, _, hy, ?_⟩⟩, rfl⟩
      exact Loop.bounds_eq_ok.mpr ⟨rfl, rfl, rfl⟩
    · exact bind_eq_error.mpr (.inl hd)
  | rangeTurn hadmit =>
    refine ⟨b, (Task.run_range hadmit).trans ?_, .refl b⟩
    exact bind_eq_error.mpr (.inl (Task.turn_eq_failed.mpr (Moment.fails_execAll.mp hd)))
  | rangeNext hadmit hb =>
    refine ⟨b, (Task.run_range hadmit).trans ?_, .refl b⟩
    exact bind_eq_error.mpr (.inr ⟨true, _, hb, hd⟩)
  /- Calls. -/
  | @body _ s _ _ _ hentry =>
    have hfails := Moment.fails_execAll.mp hd
    have houter : b.scope.outer = s.scope.frames :=
      (outer_execAll hfails).trans (Call.outer_entry hentry)
    refine ⟨⟨s.scope, b.machine.leaveCall⟩, Moment.fails_call.mpr ⟨?_, rfl⟩, .leaveCall houter⟩
    rw [Context.calls, Call.dispatch_apply, hentry]
    simp only [hfails]
    rfl

/-- Whether a task has a handler for what a part of it fails with. -/
def Task.handles : Task → Bool
  | .exec (.guarded _ _ _) => true
  | _ => false

/-- **A part that fails is the last one**, unless there is a handler that sees the fault. -/
theorem Starts.last {ctx : Context} {c d : Moment} {f : Fault} {b : Activation}
    (h : Starts ctx c d) (hf : c.task.handles = false ∨ f.isInternal = true)
    (hd : d.Fails ctx f b) : (c.parts ctx).getLast? = some d := by
  have hturn {fuel : Nat} {body : List Stmt} {s : Activation}
      (hbody : Moment.Fails ctx ⟨fuel, .execAll .unit body, s⟩ f b) :
      Task.turn ctx fuel body s = some (.error (.failed f), b) :=
    Task.turn_eq_failed.mpr (Moment.fails_execAll.mp hbody)
  cases h with
  | first ha => simp [Moment.parts, Expr.parts, ha, (Moment.fails_eval.mp hd).1]
  | second ha hx hb => simp [Moment.parts, Expr.parts, ha, hx, hb, (Moment.fails_eval.mp hd).1]
  | equal _ _ _ _ _ => exact absurd hd Moment.not_fails_equal
  | args hcallee =>
    simp [Moment.parts, Expr.parts, Expr.first?, hcallee, (Moment.fails_evalAll.mp hd).1]
  | call hcallee hvs => simp [Moment.parts, Expr.parts, Expr.first?, hcallee, hvs]
  | elements => rfl
  | firstOf => simp [Moment.parts, (Moment.fails_eval.mp hd).1]
  | restOf hv => simp [Moment.parts, hv]
  | @operand _ _ t e ht =>
    have hfails := (Moment.fails_eval.mp hd).1
    cases t <;> cases ht <;> simp [Moment.parts, Stmt.parts, Stmt.operand?, hfails]
  | branch htest => simp [Moment.parts, Stmt.parts, htest]
  | shown _ => exact absurd hd Moment.not_fails_shown
  | block => rfl
  | guarded =>
    rcases hf with hf | hf
    · cases hf
    · simp [Moment.parts, Stmt.parts, Stmt.handlerStart?_eq_none hf (Moment.fails_execAll.mp hd)]
  | handler hstart => simp [Moment.parts, Stmt.parts, hstart]
  | head => simp [Moment.parts, Moment.fails_exec.mp hd]
  | tail hv => simp [Moment.parts, hv]
  | whileDo => rfl
  | test => simp [Moment.parts, (Moment.fails_eval.mp hd).1]
  | whileTurn htest hadmit => simp [Moment.parts, htest, hadmit, hturn hd]
  | whileNext htest hadmit hb => simp [Moment.parts, htest, hadmit, hb]
  | lower => simp [Moment.parts, Stmt.parts, (Moment.fails_eval.mp hd).1]
  | upper hx => simp [Moment.parts, Stmt.parts, hx, (Moment.fails_eval.mp hd).1]
  | range hx hy => simp [Moment.parts, Stmt.parts, hx, hy]
  | rangeTurn hadmit => simp [Moment.parts, hadmit, hturn hd]
  | rangeNext hadmit hb => simp [Moment.parts, hadmit, hb]
  | body hentry => simp [Moment.parts, hentry]

/-- **An internal fault goes all the way out.**  Whatever a moment reaches that fails with an
internal fault, the moment fails with the same fault, nothing happens on the way out, and nothing
is carried out any more. -/
theorem Moment.Fails.of_reaches {ctx : Context} {c d : Moment} {f : Fault} {b : Activation}
    (hd : d.Fails ctx f b) (h : c.Reaches ctx d) (hf : f.isInternal = true) :
    ∃ b', c.Fails ctx f b' ∧ b.Leaves b' ∧ d.timeline ctx <:+ c.timeline ctx := by
  induction h using Relation.ReflTransGen.head_induction_on with
  | refl => exact ⟨b, hd, .refl b, List.suffix_rfl⟩
  | head hstarts _ ih =>
    obtain ⟨b₁, hfails, hleaves, hsuffix⟩ := ih
    obtain ⟨b₂, hfails', hleaves'⟩ := hstarts.fails hf hfails
    have hlast := Moment.timeline_suffix (hstarts.last (.inr hf) hfails)
    exact ⟨b₂, hfails', hleaves.trans hleaves', hsuffix.trans hlast⟩

end Imperative
