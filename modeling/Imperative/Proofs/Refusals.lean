import Imperative.Proofs.Moments.Serving
import Imperative.Proofs.Progress

/-!
# Refusals

An operation that does not fit its operands fails, and failing is all that it does.  Once the
operands have been evaluated the machine is as they have left it, even if the operation has looked
at one object before it finds that there is no other, or has accepted one parameter before it comes
to the one that does not fit.  No event is recorded, no object is created, and a call that is not
admitted is not counted (`refusals_traceless`).

For expressions and for most statements this is how a failure of their own was described
(`Expr.fails_served`, `Stmt.fails_served`).  Two constructs enter something before they evaluate
their operands.  A loop over a range is in progress while its bounds are evaluated, and a loop with
a condition while the condition is; both are left again.  A call is entered only after everything
has been looked at, so there is nothing to be undone.
-/

namespace Imperative

open Imperative.Action

section Refusals

variable {ctx : Context} {fuel : Nat} {f : Fault}

/-- An expression that fails by itself leaves what its operands have left. -/
theorem Expr.refuses {e : Expr} {scope : Scope} {m m' : Machine} {s : Activation}
    (hserved : Moment.Served ctx ⟨fuel, .eval e, ⟨scope, m⟩⟩ s)
    (h : e.run ctx fuel scope m = some (.error f, m')) : s = ⟨scope, m'⟩ := by
  rcases fails_served (s := ⟨scope, m⟩) h with hfailing | hdeclines
  · exact absurd hfailing hserved.not_hasFailing
  · exact Moment.AllComplete.unique hserved hdeclines.served

/-- A statement fails because a part of it does, or it leaves what its operands have left, but for
its loop. -/
theorem Stmt.fails_or_refuses {t : Stmt} {a b : Activation}
    (h : t.run ctx fuel a = some (.error (.failed f), b)) :
    Moment.HasFailing ctx ⟨fuel, .exec t, a⟩ f ∨
      ∃ m, Moment.Served ctx ⟨fuel, .exec t, a⟩ ⟨a.scope, m⟩ ∧
        b = ⟨a.scope, { m with activeLoops := a.machine.activeLoops }⟩ := by
  refine (fails_served h).imp_right ?_
  rintro ⟨m, hdeclines, hscope, hm⟩
  have hloops : b.machine.activeLoops = a.machine.activeLoops :=
    congrArg Prod.snd (progress_of_stmt h)
  rw [hloops] at hm
  refine ⟨m, hdeclines.served, ?_⟩
  rw [← hscope, ← hm]

theorem Stmt.refuses {t : Stmt} {a b s : Activation}
    (hserved : Moment.Served ctx ⟨fuel, .exec t, a⟩ s)
    (h : t.run ctx fuel a = some (.error (.failed f), b)) :
    s.scope = a.scope ∧
      b = ⟨a.scope, { s.machine with activeLoops := a.machine.activeLoops }⟩ := by
  rcases fails_or_refuses h with hfailing | ⟨m, hm, rfl⟩
  · exact absurd hfailing hserved.not_hasFailing
  · obtain rfl : s = ⟨a.scope, m⟩ := Moment.AllComplete.unique hserved hm
    exact ⟨rfl, rfl⟩

/-- A loop whose condition is no truth value the first time is left at once. -/
theorem Stmt.whileDo_refuses {test : Expr} {body : List Stmt} {a : Activation} {v : Value}
    {m : Machine} (hbound : 0 < ctx.limits.testBound fuel)
    (hv : test.run ctx fuel a.scope a.machine.enterLoop = some (.ok v, m))
    (hbool : ∀ p, v ≠ .bool p) :
    (Stmt.whileDo test body).run ctx fuel a =
      some (.error (.failed (.typeMismatch (.condition .whileDo (m.heap.shape v)))),
        ⟨a.scope, { m with activeLoops := a.machine.activeLoops }⟩) := by
  obtain ⟨tests, htests⟩ := Nat.exists_eq_add_of_lt hbound
  have htruth : v.truth (.condition .whileDo) m =
      some (.error (.typeMismatch (.condition .whileDo (m.heap.shape v))), m) := by
    cases v with
    | bool p => exact absurd rfl (hbool p)
    | _ => rfl
  have hloop : (Task.whileTrue test body (ctx.limits.testBound fuel) 0).run ctx fuel
      ⟨a.scope, a.machine.enterLoop⟩ =
        some (.error (.failed (.typeMismatch (.condition .whileDo (m.heap.shape v)))),
          ⟨a.scope, m⟩) := by
    rw [htests, Nat.zero_add, Task.run, Loop.whileTrue]
    refine bind_eq_error.mpr (.inl (Exec.eval_eq_failed.mpr ⟨?_, rfl⟩))
    exact bind_eq_error.mpr (.inr ⟨v, m, hv, htruth⟩)
  have hin : m.activeLoops = a.machine.activeLoops + 1 := congrArg Prod.snd (progress_of_expr hv)
  have hloops : m.activeLoops - 1 = a.machine.activeLoops := by omega
  rw [run, exec, ← hloops]
  exact Exec.fails_inLoop (bind_eq_error.mpr (.inl hloop))

section Calls

variable {caller : Scope} {g : Function} {args : List Value} {m : Machine}

/-- A call that is not admitted does nothing. -/
theorem Call.refused (h : Call.entry ctx caller g args m = .error f) :
    ctx.calls (fuel + 1) caller g args m = some (.error f, m) := by
  rw [Context.calls, Call.dispatch_apply, h]

theorem Expr.call_refused {name : String} {es : List Expr} {m₁ m₂ : Machine}
    (hcallee : ctx.calleeOf caller name es.length m = some (.ok (.function g), m₁))
    (hargs : Expr.evalAll ctx (ctx.calls (fuel + 1)) caller es m₁ = some (.ok args, m₂))
    (h : Call.entry ctx caller g args m₂ = .error f) :
    (Expr.call name es).run ctx (fuel + 1) caller m = some (.error f, m₂) := by
  rw [run, eval]
  refine bind_eq_error.mpr (.inr ⟨_, m₁, hcallee, bind_eq_error.mpr (.inr ⟨args, m₂, hargs, ?_⟩)⟩)
  exact bind_eq_error.mpr (.inl (Call.refused h))

/-- A host whose call is not admitted has the same interpreter as before. -/
theorem Interpreter.complete_refused {i : Interpreter} {name : String}
    (hg : i.functions[name]? = some g)
    (h : Call.entry i.context .root g args i.machine = .error f) :
    i.complete (fuel + 1) name args = some (.error f, i) :=
  complete_of_calls hg (Call.refused h)

end Calls

end Refusals

/-- **Refusals leave no trace.**  What fails after its operands were all evaluated leaves the machine
and the scope as the last operand has left them: an expression exactly so, and a statement with as
many loops in progress as there were before it.  Nothing fails in any other way unless a part of it
does.  A loop whose condition is no truth value at its first test is left with what the condition
has left.  A call that is not admitted, because of the number of its operands, because of the limit
on bodies in progress or because of the annotation of any of its parameters, does nothing at all,
whether it comes from an expression or from a host. -/
theorem refusals_traceless (ctx : Context) (fuel : Nat) :
    (∀ (e : Expr) (scope : Scope) (m m' : Machine) (f : Fault),
      e.run ctx fuel scope m = some (.error f, m') →
        (Moment.HasFailing ctx ⟨fuel, .eval e, ⟨scope, m⟩⟩ f ∨
          Moment.Served ctx ⟨fuel, .eval e, ⟨scope, m⟩⟩ ⟨scope, m'⟩) ∧
        ∀ s, Moment.Served ctx ⟨fuel, .eval e, ⟨scope, m⟩⟩ s → m' = s.machine ∧ s.scope = scope) ∧
    (∀ (t : Stmt) (a b : Activation) (f : Fault),
      t.run ctx fuel a = some (.error (.failed f), b) →
        (Moment.HasFailing ctx ⟨fuel, .exec t, a⟩ f ∨
          ∃ s, Moment.Served ctx ⟨fuel, .exec t, a⟩ s) ∧
        ∀ s, Moment.Served ctx ⟨fuel, .exec t, a⟩ s →
          b.scope = a.scope ∧ s.scope = a.scope ∧
            b.machine = { s.machine with activeLoops := a.machine.activeLoops }) ∧
    (∀ (test : Expr) (body : List Stmt) (a : Activation) (v : Value) (m : Machine),
      0 < ctx.limits.testBound fuel →
        test.run ctx fuel a.scope a.machine.enterLoop = some (.ok v, m) → (∀ p, v ≠ .bool p) →
          (Stmt.whileDo test body).run ctx fuel a =
            some (.error (.failed (.typeMismatch (.condition .whileDo (m.heap.shape v)))),
              ⟨a.scope, { m with activeLoops := a.machine.activeLoops }⟩)) ∧
    (∀ (caller : Scope) (g : Function) (args : List Value) (m : Machine) (f : Fault),
      Call.entry ctx caller g args m = .error f →
        ctx.calls (fuel + 1) caller g args m = some (.error f, m)) ∧
    (∀ (name : String) (es : List Expr) (scope : Scope) (g : Function) (args : List Value)
        (m m₁ m₂ : Machine) (f : Fault),
      ctx.calleeOf scope name es.length m = some (.ok (.function g), m₁) →
        Expr.evalAll ctx (ctx.calls (fuel + 1)) scope es m₁ = some (.ok args, m₂) →
          Call.entry ctx scope g args m₂ = .error f →
            (Expr.call name es).run ctx (fuel + 1) scope m = some (.error f, m₂)) ∧
    ∀ (i : Interpreter) (name : String) (args : List Value),
      (∀ (g : Function) (f : Fault), i.functions[name]? = some g →
        Call.entry i.context .root g args i.machine = .error f →
          i.complete (fuel + 1) name args = some (.error f, i) ∧
            i.call (fuel + 1) name args = some (.error f, i)) ∧
      (i.functions[name]? = none →
        i.complete fuel name args = some (.error (.undefinedFunction name), i) ∧
          i.call fuel name args = some (.error (.undefinedFunction name), i)) := by
  refine ⟨fun e scope m m' f h => ⟨?_, fun s hserved => ?_⟩,
    fun t a b f h => ⟨?_, fun s hserved => ?_⟩, fun test body a v m => Stmt.whileDo_refuses,
    fun caller g args m f => Call.refused,
    fun name es scope g args m m₁ m₂ f => Expr.call_refused, fun i name args => ⟨?_, ?_⟩⟩
  · exact (Expr.fails_served (s := ⟨scope, m⟩) h).imp_right Moment.Declines.served
  · obtain rfl := Expr.refuses hserved h
    exact ⟨rfl, rfl⟩
  · exact (Stmt.fails_or_refuses h).imp_right fun ⟨m, hserved, _⟩ => ⟨_, hserved⟩
  · obtain ⟨hscope, rfl⟩ := Stmt.refuses hserved h
    exact ⟨rfl, hscope, rfl⟩
  · intro g f hg h
    have hcomplete : i.complete (fuel + 1) name args = some (.error f, i) :=
      Interpreter.complete_refused hg h
    exact ⟨hcomplete, by rw [Interpreter.call, hcomplete]; rfl⟩
  · intro hname
    have hcomplete : i.complete fuel name args = some (.error (.undefinedFunction name), i) :=
      Interpreter.complete_undefined hname
    exact ⟨hcomplete, by rw [Interpreter.call, hcomplete]; rfl⟩

/-- A function that takes an integer and a string, and that nobody gets to call. -/
def intAndString : Function where
  name := "f"
  params := [{ name := "x", ty := some .int }, { name := "y", ty := some .string }]
  body := [.raise (.ident "x")]

/-- An interpreter that has the function and has created one list. -/
def refusing : Interpreter where
  functions := (∅ : Std.ExtTreeMap String Function).insert "f" intAndString
  machine := (Machine.alloc {} (.list #[.int 1])).2

/-- A new list is found not to have a negative, and is refused as an integer and as a condition, and
in each case all that there is afterwards is the list.  The first of two operands is accepted as a
parameter, but the second one is not. -/
theorem refusals_traceless_secondParameter :
    (∃ m', (Expr.neg (.list [.int 1])).run {} 1 .root {} =
        some (.error (.typeMismatch (.negation .list)), m') ∧ m' = refusing.machine) ∧
    (∃ b, (Stmt.declare "x" (some .int) (.list [.int 1])).run {} 1 {} =
        some (.error (.failed (.typeMismatch (.unfit .list .int))), b) ∧
      b.scope = .root ∧ b.machine = refusing.machine) ∧
    (Stmt.whileDo (.list [.int 1]) []).run {} 1 {} =
        some (.error (.failed (.typeMismatch (.condition .whileDo .list))),
          ⟨.root, refusing.machine⟩) ∧
    refusing.context.calls 1 .root intAndString [.int 1, .int 2] refusing.machine =
      some (.error (.typeMismatch (.unfit .int .string)), refusing.machine) ∧
    (Expr.call "f" [.int 1, .int 2]).run refusing.context 1 .root refusing.machine =
      some (.error (.typeMismatch (.unfit .int .string)), refusing.machine) ∧
    refusing.call 1 "f" [.int 1, .int 2] =
      some (.error (.typeMismatch (.unfit .int .string)), refusing) ∧
    refusing.call 0 "g" [] = some (.error (.undefinedFunction "g"), refusing) := by
  obtain ⟨hexpr, hstmt, hwhile, -⟩ := refusals_traceless {} 1
  obtain ⟨-, -, -, hcall, hcallExpr, hhost⟩ := refusals_traceless refusing.context 0
  have hlist (m : Machine) : (Expr.list [.int 1]).run {} 1 .root m =
      some (.ok (.ref m.heap.next), (m.alloc (.list #[.int 1])).2) := rfl
  have hentry : Call.entry refusing.context .root intAndString [.int 1, .int 2] refusing.machine =
      .error (.typeMismatch (.unfit .int .string)) := rfl
  have hf : refusing.functions["f"]? = some intAndString := by
    rw [refusing, Std.ExtTreeMap.getElem?_insert_self]
  have hg : refusing.functions["g"]? = none := by
    rw [refusing, Std.ExtTreeMap.getElem?_insert]
    rfl
  have hcallee : refusing.context.calleeOf .root "f" 2 refusing.machine =
      some (.ok (.function intAndString), refusing.machine) := by
    have hfunction : refusing.context.functionOf .root "f" = pure intAndString :=
      Context.functionOf_eq hf .root
    rw [Context.calleeOf]
    show (do return Callee.function (← refusing.context.functionOf .root "f") : Eval Callee) _ = _
    rw [hfunction]
    rfl
  refine ⟨⟨_, rfl, ?_⟩, ⟨_, rfl, rfl, ?_⟩, ?_, hcall _ _ _ _ _ hentry,
    hcallExpr "f" _ _ _ _ _ _ _ _ hcallee rfl hentry, ((hhost _ _ _).1 _ _ hf hentry).2,
    ((hhost _ _ _).2 hg).2⟩
  · have hserved : Moment.Served {} ⟨1, .eval (.neg (.list [.int 1])), {}⟩
        ⟨.root, refusing.machine⟩ := Expr.served_first rfl (hlist {}) rfl
    exact ((hexpr _ _ _ _ (.typeMismatch (.negation .list)) rfl).2 _ hserved).1
  · have hserved : Moment.Served {} ⟨1, .exec (.declare "x" (some .int) (.list [.int 1])), {}⟩
        ⟨.root, refusing.machine⟩ :=
      Moment.served_of_one rfl (Moment.completes_eval.mpr ⟨⟨_, hlist {}⟩, rfl⟩)
    exact ((hstmt _ _ _ _ rfl).2 _ hserved).2.2
  · have hbool (p : Bool) : Value.ref (Heap.next {}) ≠ .bool p := Value.noConfusion
    exact hwhile _ _ {} _ _ (by decide) (hlist _) hbool

end Imperative
