import Imperative.Proofs.Discipline.Interior
import Imperative.Proofs.Sessions

/-!
# What is in progress is balanced

A machine counts the bodies and the loops in progress.  Each is counted when it is entered
and discounted when it is left, and this file shows that no way of leaving misses the
discount: whatever is evaluated, and however the evaluation ends, the two counts are
afterwards what they were before (`progress_balanced`).

As a discipline, `balance`, this is about as simple as a discipline can be: all machines,
scopes and values will do, and a step may do anything that leaves the counts alone.  The
two laws with content are those for a loop and for a call, where a count goes up, the body
keeps it, and it goes down again.

Two consequences need the balance inside a construct and not only across it.  A handler
starts with the counts of the statement it belongs to, although the failure it handles may
have come from any depth of loops and calls.  And when a loop or a call is left, the count
to be lowered is positive, so that lowering it is the exact inverse of raising it.
-/

namespace Imperative

/-- What is in progress: how many bodies, and how many loops in all of them together. -/
def Machine.progress (m : Machine) : Nat × Nat := (m.callDepth, m.activeLoops)

namespace Machine

@[simp] theorem progress_internText (m : Machine) (s : String) :
    (m.internText s).2.progress = m.progress := by
  unfold internText
  split <;> rfl

@[simp] theorem progress_internFunction (m : Machine) (name : String) :
    (m.internFunction name).2.progress = m.progress := by
  unfold internFunction
  split <;> rfl

@[simp] theorem progress_record (m : Machine) (function : String) (c : Completion) :
    (m.record function c).progress = m.progress := by
  cases c <;> rfl

@[simp] theorem progress_escape (m : Machine) (e : Exit) : (m.escape e).progress = m.progress := by
  cases e <;> rfl

theorem progress_leaveLoop {α : Type} (m : Machine) (r : Except Exit α) :
    (m.leaveLoop r).progress = (m.callDepth, m.activeLoops - 1) := by
  unfold leaveLoop
  split <;> rfl

theorem progress_of_enterLoop {α : Type} {m m' : Machine} {r : Except Exit α}
    (h : m'.progress = m.enterLoop.progress) : (m'.leaveLoop r).progress = m.progress := by
  have hcalls : m'.callDepth = m.callDepth := congrArg Prod.fst h
  have hloops : m'.activeLoops = m.activeLoops + 1 := congrArg Prod.snd h
  rw [progress_leaveLoop, hcalls, hloops, Nat.add_sub_cancel]
  rfl

theorem progress_of_enterCall {m m' : Machine} (h : m'.progress = m.enterCall.progress) :
    m'.leaveCall.progress = m.progress := by
  have hcalls : m'.callDepth = m.callDepth + 1 := congrArg Prod.fst h
  have hloops : m'.activeLoops = m.activeLoops := congrArg Prod.snd h
  show (m'.callDepth - 1, m'.activeLoops) = (m.callDepth, m.activeLoops)
  rw [hcalls, hloops, Nat.add_sub_cancel]

end Machine

/-! ## The discipline -/

/-- The discipline of leaving what is in progress as it was. -/
def balance : Discipline where
  Sound _ := True
  Keeps _ _ := True
  Holds _ _ := True
  Step m _ m' := m'.progress = m.progress
  Allows _ := True
  Callable _ := True

theorem balance_lawful (ctx : Context) : balance.Lawful ctx where
  refl _ := rfl
  trans h₁ h₂ := h₂.trans h₁
  keeps_mono _ _ := trivial
  holds_mono _ _ := trivial
  holds_plain _ := trivial
  holds_lookup _ _ := trivial
  holds_item _ _ _ := trivial
  keeps_root _ := trivial
  keeps_child _ := trivial
  keeps_define _ _ _ := trivial
  internText {m} text _ := ⟨⟨trivial, m.progress_internText text⟩, trivial⟩
  internFunction {m} name _ := ⟨⟨trivial, m.progress_internFunction name⟩, trivial⟩
  alloc _ _ _ _ _ := ⟨⟨trivial, rfl⟩, trivial⟩
  append _ _ _ _ _ := ⟨trivial, rfl⟩
  raise _ _ := rfl
  dangling _ _ _ := rfl
  caught _ _ h := ⟨trivial, h.2⟩
  turn _ h := h
  enterLoop _ := trivial
  leaveLoop _ h := ⟨trivial, Machine.progress_of_enterLoop h.2⟩
  enterCall _ _ := trivial
  complete _ _ _ h :=
    ⟨trivial, (Machine.progress_record _ _ _).trans (Machine.progress_of_enterCall h.2)⟩
  abandon _ _ _ _ _ h := ⟨trivial, Machine.progress_of_enterCall h.2⟩
  callable _ := trivial
  allows_body _ _ := trivial

theorem balance_ready (a : Activation) : balance.Ready a := ⟨trivial, trivial⟩

section Balance

variable {ctx : Context} {fuel : Nat}

theorem progress_of_expr {e : Expr} {scope : Scope} {m m' : Machine} {r : Except Fault Value}
    (h : e.run ctx fuel scope m = some (r, m')) : m'.progress = m.progress :=
  (((balance_lawful ctx).from_run fuel (fun _ _ => trivial) trivial trivial).ends h).2

theorem progress_of_stmt {s : Stmt} {a b : Activation} {r : Except Exit Value}
    (h : s.run ctx fuel a = some (r, b)) : b.machine.progress = a.machine.progress :=
  (((balance_lawful ctx).runs_run fuel (fun _ _ => trivial) (balance_ready a)).ends h).2

theorem progress_of_body {body : List Stmt} {a b : Activation} {r : Except Exit Value}
    (h : Stmt.execAll ctx (ctx.calls fuel) fuel .unit body a = some (r, b)) :
    b.machine.progress = a.machine.progress :=
  (((balance_lawful ctx).runs_body fuel (fun _ _ => trivial) (balance_ready a)).ends h).2

theorem progress_of_call {caller : Scope} {f : Function} {args : List Value} {m m' : Machine}
    {r : Except Fault Completion} (h : ctx.calls fuel caller f args m = some (r, m')) :
    m'.progress = m.progress :=
  (((balance_lawful ctx).covers_calls fuel f caller args m trivial trivial trivial
    fun _ _ => trivial).ends h).2

end Balance

theorem progress_handlerStart? {ctx : Context} {fuel : Nat} {body : List Stmt} {name : String}
    {a b : Activation} {scope : Scope}
    (h : Stmt.handlerStart? ctx fuel body name a = some (scope, b)) :
    b.machine.progress = a.machine.progress :=
  ((balance_lawful ctx).handlerStart? trivial (fun _ _ => trivial) (balance_ready a) h).2

/-! ## What a host does -/

theorem progress_of_runIn {i : Interpreter} {p : Program} {scope : Scope} {fuel : Nat}
    {ran : Interpreter.Ran} (h : i.runIn fuel scope p = some ran) :
    ran.interpreter.machine.progress = i.machine.progress := by
  obtain ⟨b, -, -, ⟨v, -, hm, hstep, -⟩ | ⟨e, -, hm, hstep⟩⟩ :=
    (balance_lawful _).runIn (fun _ _ => trivial) trivial trivial h
  · rw [hm]
    exact hstep
  · rw [hm, Machine.progress_escape]
    exact hstep

theorem progress_of_complete {i i' : Interpreter} {name : String} {args : List Value}
    {fuel : Nat} {r : Except Fault Completion} (h : i.complete fuel name args = some (r, i')) :
    i'.machine.progress = i.machine.progress :=
  ((balance_lawful _).complete_ends trivial (fun _ _ => trivial) h).2

/-- No command of a session changes what is in progress. -/
theorem progress_of_performed {fuel : Nat} {s s' : Session} {command : Command} {reply : Reply}
    (h : Session.Performed fuel s command reply s') :
    s'.interpreter.machine.progress = s.interpreter.machine.progress := by
  cases h with
  | declare f => rfl
  | run hran => exact progress_of_runIn hran
  | runAlone hran => exact progress_of_runIn hran
  | call hcomplete => exact progress_of_complete hcomplete
  | complete hcomplete => exact progress_of_complete hcomplete
  | store o => rfl
  | replace o _ => rfl
  | refused o _ => rfl
  | fetch r => rfl
  | check v t => rfl
  | ask _ _ => rfl
  | copy source target => rfl

/-- Between the commands of a session nothing is in progress. -/
theorem progress_of_reachable {allowed : Session → Command → Prop} {limits : Limits}
    {s : Session} (h : s.Reachable allowed limits) : s.interpreter.machine.progress = (0, 0) := by
  refine Session.Reachable.induct (P := fun s => s.interpreter.machine.progress = (0, 0)) rfl ?_ h
  intro s s' fuel command reply hs _ hperformed
  rw [progress_of_performed hperformed, hs]

/-! ## The balance -/

/-- **What is in progress is balanced.**  Whatever is evaluated, with whatever functions
and limits, and however the evaluation ends, the counts of bodies and loops in progress are
afterwards what they were before.  They are that already where a handler starts.  Where a
loop or a body is left, the count that is lowered stands exactly one above what it was when
the loop or the body was entered, so it is never zero.  And between the commands of a
session both counts are zero. -/
theorem progress_balanced (ctx : Context) (fuel : Nat) :
    (∀ (s : Stmt) (a b : Activation) (r : Except Exit Value),
      s.run ctx fuel a = some (r, b) → b.machine.progress = a.machine.progress) ∧
    (∀ (e : Expr) (scope : Scope) (m m' : Machine) (r : Except Fault Value),
      e.run ctx fuel scope m = some (r, m') → m'.progress = m.progress) ∧
    (∀ (caller : Scope) (f : Function) (args : List Value) (m m' : Machine)
        (r : Except Fault Completion),
      ctx.calls fuel caller f args m = some (r, m') → m'.progress = m.progress) ∧
    (∀ (body : List Stmt) (name : String) (handler : List Stmt) (a : Activation),
      ((Stmt.guarded body name handler).run ctx fuel a =
        match Stmt.handlerStart? ctx fuel body name a with
        | none => Stmt.execAll ctx (ctx.calls fuel) fuel .unit body a
        | some (scope, b) =>
          (Stmt.execAll ctx (ctx.calls fuel) fuel .unit handler b).map
            fun (r, c) => (r, ⟨scope, c.machine⟩)) ∧
      ∀ scope b, Stmt.handlerStart? ctx fuel body name a = some (scope, b) →
        b.machine.progress = a.machine.progress) ∧
    (∀ (s : Stmt) (x : Exec Value), s.loop? ctx fuel = some x →
      s.run ctx fuel = Exec.inLoop x ∧
      ∀ (a b : Activation) (r : Except Exit Value),
        x ⟨a.scope, a.machine.enterLoop⟩ = some (r, b) →
          b.machine.activeLoops = a.machine.activeLoops + 1) ∧
    (∀ (body : List Stmt) (scope : Scope) (m : Machine) (b : Activation)
        (r : Except Exit Value),
      Stmt.execAll ctx (ctx.calls fuel) fuel .unit body ⟨scope, m.enterCall⟩ = some (r, b) →
        b.machine.callDepth = m.callDepth + 1) ∧
    (∀ (i : Interpreter) (scope : Scope) (p : Program) (ran : Interpreter.Ran),
      i.runIn fuel scope p = some ran →
        ran.interpreter.machine.progress = i.machine.progress) ∧
    (∀ (limits : Limits) (s : Session), s.Reachable (fun _ _ => True) limits →
      s.interpreter.machine.callDepth = 0 ∧ s.interpreter.machine.activeLoops = 0) := by
  refine ⟨?stmt, ?expr, ?call, ?handler, ?loop, ?body, ?program, ?session⟩
  case stmt =>
    intro s a b r h
    exact progress_of_stmt h
  case expr =>
    intro e scope m m' r h
    exact progress_of_expr h
  case call =>
    intro caller f args m m' r h
    exact progress_of_call h
  case handler =>
    intro body name handler a
    exact ⟨run_guarded ctx fuel body name handler a, fun scope b h => progress_handlerStart? h⟩
  case loop =>
    intro s x hx
    refine ⟨run_of_loop? hx, fun a b r h => ?_⟩
    have hin := (balance_lawful ctx).runs_loop? hx (fun _ _ => trivial)
      (balance_ready ⟨a.scope, a.machine.enterLoop⟩)
    exact congrArg Prod.snd (hin.ends h).2
  case body =>
    intro body scope m b r h
    exact congrArg Prod.fst (progress_of_body h)
  case program =>
    intro i scope p ran h
    exact progress_of_runIn h
  case session =>
    intro limits s h
    have hzero := progress_of_reachable h
    exact ⟨congrArg Prod.fst hzero, congrArg Prod.snd hzero⟩

/-- A function that fails inside a loop of its own. -/
def failingInLoop : Function where
  name := "f"
  params := []
  body := [.forRange "i" (.int 0) (.int 2) [.raise (.int 7)]]

/-- The call of a function inside a loop, under a guard whose handler returns. -/
def guardedCallInLoop : Stmt :=
  .guarded [.whileDo (.bool true) [.expr (.call "f" [])]] "e" [.ret (some (.ident "e"))]

/-- A failure passes a loop, a call and another loop before a handler takes it, and the
counts are what they were, here two bodies and five loops. -/
theorem progress_balanced_guardedCallInLoop :
    ∃ r b, guardedCallInLoop.run ⟨{}, (∅ : Std.ExtTreeMap String Function).insert "f" failingInLoop⟩
        3 ⟨.root, { callDepth := 2, activeLoops := 5 }⟩ = some (r, b) ∧
      b.machine.progress = (2, 5) := by
  have hsome : (guardedCallInLoop.run
      ⟨{}, (∅ : Std.ExtTreeMap String Function).insert "f" failingInLoop⟩ 3
      ⟨.root, { callDepth := 2, activeLoops := 5 }⟩).isSome = true := by
    decide +kernel
  obtain ⟨⟨r, b⟩, hrun⟩ := Option.isSome_iff_exists.mp hsome
  exact ⟨r, b, hrun, (progress_balanced _ 3).1 _ _ _ _ hrun⟩

end Imperative
