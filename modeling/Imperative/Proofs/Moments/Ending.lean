import Imperative.Proofs.Moments
import Imperative.Proofs.Primitives

/-!
# Moments that end

A moment ends if its task has an outcome, and whether it does is a matter of its parts.  Whatever
is started by something that ends does end (`Starts.ends`).  The other way round, something ends
if all its parts do (`Moment.ends_of_starts`), unless it is *exhausted*, that is, out of fuel, or
is a question without an answer.  As parts are smaller, a moment ends exactly if no moment that it
reaches is exhausted and every question has an answer (`Moment.ends_iff`).

Both directions rest on the same lemmas, one for each construct, that say when the construct ends
in terms of the parts it has.
-/

namespace Imperative

open Imperative.Action

/-! ## The parts of what ends -/

section Parts

variable {ctx : Context} {fuel : Nat}

/-- Two operands and an operation that is prompt. -/
theorem Expr.ends_operands {a b : Expr} {scope : Scope} {m : Machine}
    {op : Value → Value → Eval Value} (hop : ∀ x y, Prompt (op x y)) :
    Action.Ends (do op (← a.run ctx fuel scope) (← b.run ctx fuel scope)) m ↔
      Action.Ends (a.run ctx fuel scope) m ∧ ∀ x m₁, a.run ctx fuel scope m = some (.ok x, m₁) →
        Action.Ends (b.run ctx fuel scope) m₁ := by
  rw [ends_bind]
  refine and_congr_right fun _ => forall_congr' fun x => forall_congr' fun m₁ => ?_
  exact imp_congr_right fun _ => ends_bind_of_prompt (hop x)

/-- Two operands and a question about them. -/
theorem Expr.ends_equated {a b : Expr} {scope : Scope} {m : Machine} {answer : Bool → Value} :
    Action.Ends (do
        let x ← a.run ctx fuel scope
        let y ← b.run ctx fuel scope
        return answer (← x.equal y)) m ↔
      Action.Ends (a.run ctx fuel scope) m ∧ ∀ x m₁, a.run ctx fuel scope m = some (.ok x, m₁) →
        Action.Ends (b.run ctx fuel scope) m₁ ∧
          ∀ y m₂, b.run ctx fuel scope m₁ = some (.ok y, m₂) → m₂.heap.equal? x y ≠ none := by
  rw [ends_bind]
  refine and_congr_right fun _ => forall_congr' fun x => forall_congr' fun m₁ => ?_
  refine imp_congr_right fun _ => ends_bind.trans (and_congr_right fun _ => ?_)
  refine forall_congr' fun y => forall_congr' fun m₂ => imp_congr_right fun _ => ?_
  exact (ends_bind_of_prompt fun _ => prompt_pure _).trans Eval.ends_observe

/-- An operator ends if the operands that it evaluates do, and if it has an answer in case that
it asks a question. -/
theorem Expr.ends_operator {e a : Expr} (h : e.first? = some a) {scope : Scope} {m : Machine} :
    Action.Ends (e.run ctx fuel scope) m ↔
      Action.Ends (a.run ctx fuel scope) m ∧
        ∀ x m₁, a.run ctx fuel scope m = some (.ok x, m₁) → ∀ b, e.second? x = some b →
          Action.Ends (b.run ctx fuel scope) m₁ ∧
            (e.equates = true → ∀ y m₂, b.run ctx fuel scope m₁ = some (.ok y, m₂) →
              m₂.heap.equal? x y ≠ none) := by
  cases e with
  | arith op a b =>
    cases h
    rw [run, eval]
    refine (ends_operands fun x y => (x.primitive_arithmetic op y).prompt).trans ?_
    simp [second?, equates]
  | compare op a b =>
    cases h
    rw [run, eval]
    refine (ends_operands fun x y => (x.primitive_compared op y).prompt).trans ?_
    simp [second?, equates]
  | index base position =>
    cases h
    rw [run, eval]
    refine (ends_operands fun x y => (x.primitive_indexAt y).prompt).trans ?_
    simp [second?, equates]
  | neg e =>
    cases h
    rw [run, eval]
    refine (ends_bind_of_prompt fun x => x.primitive_negate.prompt).trans ?_
    simp [second?]
    rfl
  | not e =>
    cases h
    rw [run, eval]
    refine (ends_bind_of_prompt fun x => (x.primitive_truth _).prompt.bind fun _ => prompt_pure _).trans ?_
    simp [second?]
    rfl
  | eq a b =>
    cases h
    rw [run, eval]
    refine ends_equated.trans ?_
    simp [second?, equates]
  | ne a b =>
    cases h
    rw [run, eval]
    refine ends_equated.trans ?_
    simp [second?, equates]
  | logic op a b =>
    cases h
    rw [run, eval]
    refine ends_bind.trans (and_congr_right fun _ => forall_congr' fun x => forall_congr' fun m₁ =>
      imp_congr_right fun _ => ?_)
    refine ends_bind.trans ?_
    simp only [(x.primitive_truth _).prompt m₁, true_and, Value.truth_eq_ok]
    constructor
    · intro hends b' hb'
      cases x with
      | bool p =>
        have hp := hends p m₁ ⟨rfl, rfl⟩
        by_cases hdecisive : p = op.decisive
        · simp [second?, hdecisive] at hb'
        · rw [if_neg hdecisive] at hp
          simp only [second?, if_neg hdecisive, Option.some.injEq] at hb'
          rw [← hb']
          exact ⟨(ends_bind.mp hp).1, fun h => by cases h⟩
      | _ => cases hb'
    · rintro hends p m₂ ⟨rfl, rfl⟩
      by_cases hdecisive : p = op.decisive
      · rw [if_pos hdecisive]
        exact prompt_pure _ _
      · rw [if_neg hdecisive]
        refine (ends_bind_of_prompt fun y => (y.primitive_truth _).prompt.bind fun _ => prompt_pure _).mpr ?_
        exact (hends b (by simp [second?, hdecisive])).1
  | _ => cases h

/-- Something without parts of its own is primitive. -/
theorem Expr.primitive_atom {e : Expr} (hfirst : e.first? = none) (hlisted : e.listed? = none)
    (scope : Scope) : (e.run ctx fuel scope).Primitive := by
  cases e with
  | int n =>
    rw [run, eval]
    exact .pure _
  | float x =>
    rw [run, eval]
    exact .pure _
  | text s =>
    rw [run, eval]
    exact .change _
  | bool b =>
    rw [run, eval]
    exact .pure _
  | ident name =>
    rw [run, eval]
    exact ctx.primitive_valueOf scope name
  | call name args => cases hlisted
  | list es => cases hlisted
  | _ => cases hfirst

theorem Expr.ends_call {name : String} {args : List Expr} {scope : Scope} {m : Machine} :
    Action.Ends ((Expr.call name args).run ctx fuel scope) m ↔
      ∀ callee m₁, ctx.calleeOf scope name args.length m = some (.ok callee, m₁) →
        Action.Ends (Expr.evalAll ctx (ctx.calls fuel) scope args) m₁ ∧
          ∀ vs m₂, Expr.evalAll ctx (ctx.calls fuel) scope args m₁ = some (.ok vs, m₂) →
            ∀ f, callee = .function f → Action.Ends (ctx.calls fuel scope f vs) m₂ := by
  rw [run, eval]
  refine ends_bind.trans ((and_iff_right ((ctx.primitive_calleeOf _ _ _).prompt _)).trans ?_)
  refine forall_congr' fun callee => forall_congr' fun m₁ => imp_congr_right fun _ => ?_
  refine ends_bind.trans (and_congr_right fun _ => ?_)
  refine forall_congr' fun vs => forall_congr' fun m₂ => imp_congr_right fun _ => ?_
  cases callee with
  | builtin b => exact iff_of_true ((b.primitive_apply vs).prompt m₂) fun f h => by cases h
  | function f =>
    refine (ends_bind_of_prompt fun _ => prompt_pure _).trans ⟨?_, fun h => h f rfl⟩
    rintro h g ⟨⟩
    exact h

theorem Expr.ends_list {es : List Expr} {scope : Scope} {m : Machine} :
    Action.Ends ((Expr.list es).run ctx fuel scope) m ↔
      Action.Ends (Expr.evalAll ctx (ctx.calls fuel) scope es) m := by
  rw [run, eval]
  exact ends_bind_of_prompt fun vs => Eval.prompt_alloc _

theorem Expr.ends_evalAll_cons {e : Expr} {es : List Expr} {scope : Scope} {m : Machine} :
    Action.Ends (Expr.evalAll ctx (ctx.calls fuel) scope (e :: es)) m ↔
      Action.Ends (e.run ctx fuel scope) m ∧ ∀ v m₁, e.run ctx fuel scope m = some (.ok v, m₁) →
        Action.Ends (Expr.evalAll ctx (ctx.calls fuel) scope es) m₁ := by
  rw [evalAll]
  refine ends_bind.trans (and_congr_right fun _ => ?_)
  refine forall_congr' fun v => forall_congr' fun m₁ => imp_congr_right fun _ => ?_
  exact ends_bind_of_prompt fun vs => prompt_pure _

/-- A test ends if its expression does. -/
theorem Expr.ends_test {test : Expr} {describe : Shape → Mismatch} {s : Activation} :
    Action.Ends (Exec.eval fun scope =>
        test.run ctx fuel scope >>= Value.truth describe) s ↔
      Action.Ends (test.run ctx fuel s.scope) s.machine :=
  Exec.ends_eval.trans (ends_bind_of_prompt fun x => (x.primitive_truth describe).prompt)

theorem Expr.test_eq_ok {test : Expr} {describe : Shape → Mismatch} {s b : Activation} {p : Bool} :
    Exec.eval (fun scope => test.run ctx fuel scope >>= Value.truth describe) s =
        some (.ok p, b) ↔
      ∃ m, test.run ctx fuel s.scope s.machine = some (.ok (.bool p), m) ∧ b = ⟨s.scope, m⟩ := by
  rw [Exec.eval_eq_ok, bind_eq_ok]
  constructor
  · rintro ⟨⟨x, m, hx, htruth⟩, hscope⟩
    obtain ⟨rfl, hm⟩ := Value.truth_eq_ok.mp htruth
    refine ⟨m, hx, ?_⟩
    rw [← hm, ← hscope]
  · rintro ⟨m, hx, rfl⟩
    exact ⟨⟨_, m, hx, Value.truth_eq_ok.mpr ⟨rfl, rfl⟩⟩, rfl⟩

theorem Expr.run_ident {name : String} {scope : Scope} {b : Binding} {m : Machine}
    (h : scope.lookup name = some b) :
    (Expr.ident name).run ctx fuel scope m = some (.ok b.value, m) := by
  rw [run, eval, Context.valueOf, h]
  rfl

/-- Whether an integer is less than a constant. -/
theorem Expr.run_lt {e : Expr} {n k : Int64} {scope : Scope} {m m' : Machine}
    (h : e.run ctx fuel scope m = some (.ok (.int n), m')) :
    (Expr.compare .lt e (.int k)).run ctx fuel scope m =
      some (.ok (.bool (decide (n.toInt < k.toInt))), m') := by
  have hcompare : (Ord.compare n.toInt k.toInt == .lt) = decide (n.toInt < k.toInt) := by
    rw [Bool.eq_iff_iff, beq_iff_eq, Int.compare_eq_lt, decide_eq_true_iff]
  rw [run, eval, ← hcompare]
  exact bind_eq_ok.mpr ⟨.int n, m', h, bind_eq_ok.mpr ⟨.int k, m', rfl, rfl⟩⟩

theorem Stmt.ends_ret {e : Option Expr} {s : Activation} :
    Action.Ends ((Stmt.ret e).run ctx fuel) s ↔
      ∀ a, e = some a → Action.Ends (a.run ctx fuel s.scope) s.machine := by
  cases e with
  | none =>
    rw [run, exec]
    exact iff_of_true (prompt_throw _ s) fun a ha => by cases ha
  | some e =>
    rw [run, exec]
    refine (Exec.ends_eval_bind fun v => prompt_throw _).trans ?_
    simp only [Option.some.injEq, forall_eq']
    rfl

theorem Stmt.ends_declare {name : String} {ty : Option Ty} {e : Expr} {s : Activation} :
    Action.Ends ((Stmt.declare name ty e).run ctx fuel) s ↔
      Action.Ends (e.run ctx fuel s.scope) s.machine := by
  rw [run, exec]
  exact Exec.ends_eval_bind fun v => (Exec.prompt_rescope _).bind fun _ => prompt_pure _

theorem Stmt.ends_assign {name : String} {e : Expr} {s : Activation} :
    Action.Ends ((Stmt.assign name e).run ctx fuel) s ↔
      Action.Ends (e.run ctx fuel s.scope) s.machine := by
  rw [run, exec]
  exact Exec.ends_eval_bind fun v => (Exec.prompt_rescope _).bind fun _ => prompt_pure _

theorem Stmt.ends_expr {e : Expr} {s : Activation} :
    Action.Ends ((Stmt.expr e).run ctx fuel) s ↔
      Action.Ends (e.run ctx fuel s.scope) s.machine := by
  rw [run, exec]
  exact Exec.ends_eval

theorem Stmt.ends_cond {test : Expr} {yes no : List Stmt} {s : Activation} :
    Action.Ends ((Stmt.cond test yes no).run ctx fuel) s ↔
      Action.Ends (test.run ctx fuel s.scope) s.machine ∧
        ∀ p m, test.run ctx fuel s.scope s.machine = some (.ok (.bool p), m) →
          Action.Ends (Stmt.execAll ctx (ctx.calls fuel) fuel .unit (if p then yes else no))
            ⟨s.scope, m⟩ := by
  rw [run, exec]
  refine ends_bind.trans (and_congr Expr.ends_test ?_)
  constructor
  · intro h p m hp
    have hbranch := h p ⟨s.scope, m⟩ (Expr.test_eq_ok.mpr ⟨m, hp, rfl⟩)
    cases p <;> exact hbranch
  · intro h p b hp
    obtain ⟨m, htest, rfl⟩ := Expr.test_eq_ok.mp hp
    have hbranch := h p m htest
    cases p <;> exact hbranch

theorem Stmt.ends_raise {e : Expr} {s : Activation} :
    Action.Ends ((Stmt.raise e).run ctx fuel) s ↔
      Action.Ends (e.run ctx fuel s.scope) s.machine ∧
        ∀ v m, e.run ctx fuel s.scope s.machine = some (.ok v, m) → m.heap.show? v ≠ none := by
  rw [run, exec]
  refine (Exec.ends_eval_bind fun text => prompt_throw _).trans ?_
  refine ends_bind.trans (and_congr_right fun _ => ?_)
  exact forall_congr' fun v => forall_congr' fun m => imp_congr_right fun _ => Eval.ends_observe

theorem Stmt.ends_guarded {body handler : List Stmt} {name : String} {s : Activation} :
    Action.Ends ((Stmt.guarded body name handler).run ctx fuel) s ↔
      Action.Ends (Stmt.execAll ctx (ctx.calls fuel) fuel .unit body) s ∧
        ∀ scope b, Stmt.handlerStart? ctx fuel body name s = some (scope, b) →
          Action.Ends (Stmt.execAll ctx (ctx.calls fuel) fuel .unit handler) b := by
  unfold Action.Ends
  rw [run_guarded]
  cases hstart : Stmt.handlerStart? ctx fuel body name s with
  | none => simp
  | some p =>
    obtain ⟨scope, b⟩ := p
    have hbody : Stmt.execAll ctx (ctx.calls fuel) fuel .unit body s ≠ none := by
      intro hnone
      rw [handlerStart?, hnone] at hstart
      cases hstart
    simp [hbody]

theorem Stmt.ends_block {body : List Stmt} {s : Activation} :
    Action.Ends ((Stmt.block body).run ctx fuel) s ↔
      Action.Ends (Stmt.execAll ctx (ctx.calls fuel) fuel .unit body) s := by
  rw [run, exec]

/-- The operand of a statement comes first. -/
theorem Stmt.ends_operand {t : Stmt} {e : Expr} (h : t.operand? = some e) {s : Activation}
    (ht : Action.Ends (t.run ctx fuel) s) : Action.Ends (e.run ctx fuel s.scope) s.machine := by
  cases t with
  | declare name ty e =>
    cases h
    exact ends_declare.mp ht
  | assign name e =>
    cases h
    exact ends_assign.mp ht
  | ret value => exact ends_ret.mp ht e h
  | cond test yes no =>
    cases h
    exact (ends_cond.mp ht).1
  | raise e =>
    cases h
    exact (ends_raise.mp ht).1
  | expr e =>
    cases h
    exact ends_expr.mp ht
  | _ => cases h

theorem Stmt.ends_whileDo {test : Expr} {body : List Stmt} {s : Activation} :
    Action.Ends ((Stmt.whileDo test body).run ctx fuel) s ↔
      Moment.Ends ctx ⟨fuel, .whileTrue test body (ctx.limits.testBound fuel) 0,
        ⟨s.scope, s.machine.enterLoop⟩⟩ := by
  rw [run, exec]
  exact Exec.ends_inLoop.trans (ends_bind_of_prompt fun _ => prompt_pure _)

theorem Loop.bounds_eq_ok {x y : Value} {i j : Int64} {m m' : Machine} :
    bounds x y m = some (.ok (i, j), m') ↔ x = .int i ∧ y = .int j ∧ m' = m := by
  unfold bounds
  split
  · next a b =>
    rw [pure_apply]
    simp [eq_comm, and_assoc]
  · next hne =>
    refine iff_of_false (fun h => ?_) fun h => hne i j h.1 h.2.1
    cases h

theorem Stmt.ends_forRange {name : String} {start stop : Expr} {body : List Stmt}
    {s : Activation} :
    Action.Ends ((Stmt.forRange name start stop body).run ctx fuel) s ↔
      Action.Ends (start.run ctx fuel s.scope) s.machine.enterLoop ∧
        ∀ x m, start.run ctx fuel s.scope s.machine.enterLoop = some (.ok x, m) →
          Action.Ends (stop.run ctx fuel s.scope) m ∧
            ∀ y m', stop.run ctx fuel s.scope m = some (.ok y, m') →
              ∀ i j, x = .int i → y = .int j →
                Moment.Ends ctx ⟨fuel, .range name body (Loop.turns i j) 0 i, ⟨s.scope, m'⟩⟩ := by
  rw [run, exec]
  refine Exec.ends_inLoop.trans (ends_bind.trans ?_)
  constructor
  · rintro ⟨hbounds, hrange⟩
    obtain ⟨hstart, hstop⟩ := ends_bind.mp (Exec.ends_eval.mp hbounds)
    refine ⟨hstart, fun x m hx => ?_⟩
    obtain ⟨hstop, -⟩ := ends_bind.mp (hstop x m hx)
    refine ⟨hstop, ?_⟩
    rintro y m' hy i j rfl rfl
    refine (ends_bind_of_prompt fun _ => prompt_pure _).mp (hrange (i, j) ⟨s.scope, m'⟩ ?_)
    refine Exec.eval_eq_ok.mpr ⟨bind_eq_ok.mpr ⟨_, m, hx, ?_⟩, rfl⟩
    exact bind_eq_ok.mpr ⟨_, m', hy, Loop.bounds_eq_ok.mpr ⟨rfl, rfl, rfl⟩⟩
  · rintro ⟨hstart, h⟩
    refine ⟨?_, ?_⟩
    · refine Exec.ends_eval.mpr (ends_bind.mpr ⟨hstart, fun x m hx => ?_⟩)
      exact (ends_bind_of_prompt fun y => (Loop.primitive_bounds x y).prompt).mpr (h x m hx).1
    · rintro ⟨i, j⟩ b hbounds
      obtain ⟨hok, hscope⟩ := Exec.eval_eq_ok.mp hbounds
      obtain ⟨x, m, hx, hok⟩ := bind_eq_ok.mp hok
      obtain ⟨y, m', hy, hok⟩ := bind_eq_ok.mp hok
      obtain ⟨rfl, rfl, hm⟩ := Loop.bounds_eq_ok.mp hok
      have hrange := (h _ m hx).2 _ m' hy i j rfl rfl
      rw [← hm, ← hscope] at hrange
      exact (ends_bind_of_prompt fun _ => prompt_pure _).mpr hrange

theorem Stmt.ends_execAll_cons {last : Value} {t : Stmt} {rest : List Stmt} {s : Activation} :
    Action.Ends (Stmt.execAll ctx (ctx.calls fuel) fuel last (t :: rest)) s ↔
      Action.Ends (t.run ctx fuel) s ∧ ∀ v b, t.run ctx fuel s = some (.ok v, b) →
        Action.Ends (Stmt.execAll ctx (ctx.calls fuel) fuel v rest) b := by
  rw [execAll]
  exact ends_bind

theorem Task.ends_turn {body : List Stmt} {s : Activation} :
    Action.Ends (turn ctx fuel body) s ↔
      Action.Ends (Stmt.execAll ctx (ctx.calls fuel) fuel .unit body) s := Exec.ends_turn

theorem Moment.ends_whileTrue {test : Expr} {body : List Stmt} {tests taken : Nat}
    {s : Activation} :
    Moment.Ends ctx ⟨fuel, .whileTrue test body (tests + 1) taken, s⟩ ↔
      Action.Ends (test.run ctx fuel s.scope) s.machine ∧
        ∀ m, test.run ctx fuel s.scope s.machine = some (.ok (.bool true), m) →
          ctx.limits.admitTurn taken = .ok () →
            Action.Ends (Stmt.execAll ctx (ctx.calls fuel) fuel .unit body) ⟨s.scope, m⟩ ∧
              ∀ b, Task.turn ctx fuel body ⟨s.scope, m⟩ = some (.ok true, b) →
                Moment.Ends ctx ⟨fuel, .whileTrue test body tests (taken + 1), b⟩ := by
  unfold Moment.Ends
  simp only [Task.run]
  rw [Loop.whileTrue]
  refine ends_bind.trans (and_congr Expr.ends_test ?_)
  constructor
  · intro h m htest hadmit
    have hturn := h true ⟨s.scope, m⟩ (Expr.test_eq_ok.mpr ⟨m, htest, rfl⟩)
    rw [if_pos rfl] at hturn
    obtain ⟨hbody, hnext⟩ := ends_bind.mp (Exec.ends_require_bind.mp hturn () hadmit)
    exact ⟨Task.ends_turn.mp hbody, fun b hb => hnext true b hb⟩
  · rintro h go b hgo
    obtain ⟨m, htest, rfl⟩ := Expr.test_eq_ok.mp hgo
    cases go with
    | false => exact prompt_pure _ _
    | true =>
      refine Exec.ends_require_bind.mpr fun _ hadmit => ?_
      obtain ⟨hbody, hnext⟩ := h m htest hadmit
      refine ends_bind.mpr ⟨Task.ends_turn.mpr hbody, fun on b hb => ?_⟩
      cases on with
      | false => exact prompt_pure _ _
      | true => exact hnext b hb

theorem Moment.ends_range {name : String} {body : List Stmt} {left taken : Nat} {i : Int64}
    {s : Activation} :
    Moment.Ends ctx ⟨fuel, .range name body (left + 1) taken i, s⟩ ↔
      (ctx.limits.admitTurn taken = .ok () →
        Action.Ends (Stmt.execAll ctx (ctx.calls fuel) fuel .unit body)
          ⟨s.scope.define name { value := .int i, ty := some .int }, s.machine⟩ ∧
        ∀ b, Task.turn ctx fuel body
            ⟨s.scope.define name { value := .int i, ty := some .int }, s.machine⟩ =
          some (.ok true, b) →
            Moment.Ends ctx ⟨fuel, .range name body left (taken + 1) (i + 1), b⟩) := by
  unfold Moment.Ends
  simp only [Task.run]
  rw [Loop.range]
  refine Exec.ends_require_bind.trans ⟨fun h hadmit => ?_, fun h u hadmit => ?_⟩
  · obtain ⟨hbody, hnext⟩ := ends_bind.mp ((ends_bind.mp (h () hadmit)).2 () _ rfl)
    exact ⟨Task.ends_turn.mp hbody, fun b hb => hnext true b hb⟩
  · obtain ⟨hbody, hnext⟩ := h hadmit
    refine ends_bind.mpr ⟨Exec.prompt_define _ _ s, fun u b hdefine => ?_⟩
    cases hdefine
    refine ends_bind.mpr ⟨Task.ends_turn.mpr hbody, fun on b hb => ?_⟩
    cases on with
    | false => exact prompt_pure _ _
    | true => exact hnext b hb

theorem Moment.ends_call_succ {f : Function} {args : List Value} {s : Activation} :
    Moment.Ends ctx ⟨fuel + 1, .call f args, s⟩ ↔
      ∀ scope, Call.entry ctx s.scope f args s.machine = .ok scope →
        Action.Ends (Stmt.execAll ctx (ctx.calls fuel) fuel .unit f.body)
          ⟨scope, s.machine.enterCall⟩ := by
  refine Moment.ends_call.trans ?_
  unfold Action.Ends
  rw [Context.calls, Call.dispatch_apply]
  cases Call.entry ctx s.scope f args s.machine with
  | error g => simp
  | ok scope =>
    simp only [Except.ok.injEq, forall_eq']
    cases Stmt.execAll ctx (ctx.calls fuel) fuel .unit f.body ⟨scope, s.machine.enterCall⟩ with
    | none => simp
    | some p =>
      obtain ⟨outcome, b⟩ := p
      simp only [ne_eq, reduceCtorEq, not_false_eq_true, iff_true]
      cases catchReturn outcome with
      | ok c =>
        simp only [Call.complete_apply]
        exact Option.some_ne_none _
      | error e => exact Option.some_ne_none _

end Parts

/-! ## Ending is a matter of the parts -/

/-- **What is started by something that ends does end.** -/
theorem Starts.ends {ctx : Context} {c d : Moment} (h : Starts ctx c d) (hc : c.Ends ctx) :
    d.Ends ctx := by
  cases h with
  | first ha =>
    exact Moment.ends_eval.mpr ((Expr.ends_operator ha).mp (Moment.ends_eval.mp hc)).1
  | second ha hx hb =>
    have h := ((Expr.ends_operator ha).mp (Moment.ends_eval.mp hc)).2 _ _ hx _ hb
    exact Moment.ends_eval.mpr h.1
  | equal he ha hx hb hy =>
    have h := ((Expr.ends_operator ha).mp (Moment.ends_eval.mp hc)).2 _ _ hx _ hb
    exact Moment.ends_equal.mpr (h.2 he _ _ hy)
  | args hcallee =>
    exact Moment.ends_evalAll.mpr (Expr.ends_call.mp (Moment.ends_eval.mp hc) _ _ hcallee).1
  | call hcallee hvs =>
    have h := (Expr.ends_call.mp (Moment.ends_eval.mp hc) _ _ hcallee).2 _ _ hvs
    exact Moment.ends_call.mpr (h _ rfl)
  | elements => exact Moment.ends_evalAll.mpr (Expr.ends_list.mp (Moment.ends_eval.mp hc))
  | firstOf =>
    exact Moment.ends_eval.mpr (Expr.ends_evalAll_cons.mp (Moment.ends_evalAll.mp hc)).1
  | restOf hv =>
    have h := (Expr.ends_evalAll_cons.mp (Moment.ends_evalAll.mp hc)).2 _ _ hv
    exact Moment.ends_evalAll.mpr h
  | operand ht => exact Moment.ends_eval.mpr (Stmt.ends_operand ht (Moment.ends_exec.mp hc))
  | branch htest =>
    exact Moment.ends_execAll.mpr ((Stmt.ends_cond.mp (Moment.ends_exec.mp hc)).2 _ _ htest)
  | shown hv => exact Moment.ends_shown.mpr ((Stmt.ends_raise.mp (Moment.ends_exec.mp hc)).2 _ _ hv)
  | block => exact Moment.ends_execAll.mpr (Stmt.ends_block.mp (Moment.ends_exec.mp hc))
  | guarded => exact Moment.ends_execAll.mpr (Stmt.ends_guarded.mp (Moment.ends_exec.mp hc)).1
  | handler hstart =>
    exact Moment.ends_execAll.mpr ((Stmt.ends_guarded.mp (Moment.ends_exec.mp hc)).2 _ _ hstart)
  | head => exact Moment.ends_exec.mpr (Stmt.ends_execAll_cons.mp (Moment.ends_execAll.mp hc)).1
  | tail hv =>
    have h := (Stmt.ends_execAll_cons.mp (Moment.ends_execAll.mp hc)).2 _ _ hv
    exact Moment.ends_execAll.mpr h
  | whileDo => exact Stmt.ends_whileDo.mp (Moment.ends_exec.mp hc)
  | test => exact Moment.ends_eval.mpr (Moment.ends_whileTrue.mp hc).1
  | whileTurn htest hadmit =>
    exact Moment.ends_execAll.mpr ((Moment.ends_whileTrue.mp hc).2 _ htest hadmit).1
  | whileNext htest hadmit hb => exact ((Moment.ends_whileTrue.mp hc).2 _ htest hadmit).2 _ hb
  | lower => exact Moment.ends_eval.mpr (Stmt.ends_forRange.mp (Moment.ends_exec.mp hc)).1
  | upper hx =>
    exact Moment.ends_eval.mpr ((Stmt.ends_forRange.mp (Moment.ends_exec.mp hc)).2 _ _ hx).1
  | range hx hy =>
    have h := ((Stmt.ends_forRange.mp (Moment.ends_exec.mp hc)).2 _ _ hx).2 _ _ hy
    exact h _ _ rfl rfl
  | rangeTurn hadmit => exact Moment.ends_execAll.mpr (Moment.ends_range.mp hc hadmit).1
  | rangeNext hadmit hb => exact (Moment.ends_range.mp hc hadmit).2 _ hb
  | body hentry => exact Moment.ends_execAll.mpr (Moment.ends_call_succ.mp hc _ hentry)

/-- **What is neither exhausted nor without an answer ends if everything does that it starts.** -/
theorem Moment.ends_of_starts {ctx : Context} {c : Moment} (hfuel : c.exhausted = false)
    (hanswer : c.Answered) (h : ∀ d, Starts ctx c d → d.Ends ctx) : c.Ends ctx := by
  obtain ⟨fuel, task, s⟩ := c
  cases task with
  | equal x y => exact ends_equal.mpr hanswer
  | shown v => exact ends_shown.mpr hanswer
  | eval e =>
    refine ends_eval.mpr ?_
    cases hfirst : e.first? with
    | some a =>
      refine (Expr.ends_operator hfirst).mpr ⟨ends_eval.mp (h _ (.first hfirst)), ?_⟩
      intro x m hx b hb
      refine ⟨ends_eval.mp (h _ (.second hfirst hx hb)), fun he y m' hy => ?_⟩
      exact ends_equal.mp (h _ (.equal he hfirst hx hb hy))
    | none =>
      cases e with
      | call name args =>
        refine Expr.ends_call.mpr fun callee m hcallee => ?_
        refine ⟨ends_evalAll.mp (h _ (.args hcallee)), ?_⟩
        rintro vs m' hvs f rfl
        exact ends_call.mp (h _ (.call hcallee hvs))
      | list es => exact Expr.ends_list.mpr (ends_evalAll.mp (h _ .elements))
      | _ => exact (Expr.primitive_atom hfirst rfl _).prompt _
  | evalAll es =>
    refine ends_evalAll.mpr ?_
    cases es with
    | nil =>
      rw [Expr.evalAll]
      exact prompt_pure _ _
    | cons e es =>
      refine Expr.ends_evalAll_cons.mpr ⟨ends_eval.mp (h _ .firstOf), fun v m hv => ?_⟩
      exact ends_evalAll.mp (h _ (.restOf hv))
  | exec t =>
    refine ends_exec.mpr ?_
    cases t with
    | declare name ty e => exact Stmt.ends_declare.mpr (ends_eval.mp (h _ (.operand rfl)))
    | assign name e => exact Stmt.ends_assign.mpr (ends_eval.mp (h _ (.operand rfl)))
    | ret value => exact Stmt.ends_ret.mpr fun e he => ends_eval.mp (h _ (.operand he))
    | cond test yes no =>
      refine Stmt.ends_cond.mpr ⟨ends_eval.mp (h _ (.operand rfl)), fun p m htest => ?_⟩
      exact ends_execAll.mp (h _ (.branch htest))
    | whileDo test body => exact Stmt.ends_whileDo.mpr (h _ .whileDo)
    | forRange name start stop body =>
      refine Stmt.ends_forRange.mpr ⟨ends_eval.mp (h _ .lower), fun x m hx => ?_⟩
      refine ⟨ends_eval.mp (h _ (.upper hx)), ?_⟩
      rintro y m' hy i j rfl rfl
      exact h _ (.range hx hy)
    | breakLoop =>
      rw [Stmt.run, Stmt.exec]
      exact prompt_throw _ _
    | continueLoop =>
      rw [Stmt.run, Stmt.exec]
      exact prompt_throw _ _
    | block body => exact Stmt.ends_block.mpr (ends_execAll.mp (h _ .block))
    | guarded body name handler =>
      refine Stmt.ends_guarded.mpr ⟨ends_execAll.mp (h _ .guarded), fun scope b hstart => ?_⟩
      exact ends_execAll.mp (h _ (.handler hstart))
    | raise e =>
      refine Stmt.ends_raise.mpr ⟨ends_eval.mp (h _ (.operand rfl)), fun v m hv => ?_⟩
      exact ends_shown.mp (h _ (.shown hv))
    | expr e => exact Stmt.ends_expr.mpr (ends_eval.mp (h _ (.operand rfl)))
  | execAll last body =>
    refine ends_execAll.mpr ?_
    cases body with
    | nil =>
      rw [Stmt.execAll]
      exact prompt_pure _ _
    | cons t rest =>
      refine Stmt.ends_execAll_cons.mpr ⟨ends_exec.mp (h _ .head), fun v b hv => ?_⟩
      exact ends_execAll.mp (h _ (.tail hv))
  | whileTrue test body tests taken =>
    cases tests with
    | zero => cases hfuel
    | succ tests =>
      refine ends_whileTrue.mpr ⟨ends_eval.mp (h _ .test), fun m htest hadmit => ?_⟩
      refine ⟨ends_execAll.mp (h _ (.whileTurn htest hadmit)), fun b hb => ?_⟩
      exact h _ (.whileNext htest hadmit hb)
  | range name body left taken i =>
    cases left with
    | zero => exact prompt_pure _ s
    | succ left =>
      refine ends_range.mpr fun hadmit => ⟨ends_execAll.mp (h _ (.rangeTurn hadmit)), ?_⟩
      exact fun b hb => h _ (.rangeNext hadmit hb)
  | call f args =>
    cases fuel with
    | zero => cases hfuel
    | succ fuel =>
      exact ends_call_succ.mpr fun scope hentry => ends_execAll.mp (h _ (.body hentry))

/-! ## Moments that end -/

theorem Moment.Ends.of_reaches {ctx : Context} {c d : Moment} (hc : c.Ends ctx)
    (h : c.Reaches ctx d) : d.Ends ctx := by
  induction h with
  | refl => exact hc
  | tail _ hstarts ih => exact hstarts.ends ih

theorem Moment.Ends.answered {ctx : Context} {c : Moment} (h : c.Ends ctx) : c.Answered := by
  obtain ⟨fuel, task, s⟩ := c
  cases task with
  | equal x y => exact ends_equal.mp h
  | shown v => exact ends_shown.mp h
  | _ => trivial

theorem Moment.Ends.not_exhausted {ctx : Context} {c : Moment} (h : c.Ends ctx) :
    c.exhausted = false := by
  obtain ⟨fuel, task, s⟩ := c
  cases task with
  | call f args =>
    cases fuel with
    | zero => exact absurd rfl (ends_call.mp h)
    | succ fuel => rfl
  | whileTrue test body tests taken =>
    cases tests with
    | zero => exact absurd rfl h
    | succ tests => rfl
  | _ => rfl

/-- **When a run ends.**  A run ends exactly if it never comes to a moment that is exhausted, or to
a question without an answer. -/
theorem Moment.ends_iff {ctx : Context} {c : Moment} :
    c.Ends ctx ↔ ∀ d, c.Reaches ctx d → d.exhausted = false ∧ d.Answered := by
  refine ⟨fun h d hd => ⟨(h.of_reaches hd).not_exhausted, (h.of_reaches hd).answered⟩, fun h => ?_⟩
  induction c using (starts_wf ctx).induction with
  | _ c ih =>
    obtain ⟨hfuel, hanswer⟩ := h c .refl
    refine ends_of_starts hfuel hanswer fun d hd => ih d hd fun e he => ?_
    exact h e (.head hd he)

end Imperative
