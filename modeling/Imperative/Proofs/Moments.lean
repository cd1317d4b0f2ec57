import Imperative.Proofs.Discipline.Interior
import Imperative.Proofs.Endings
import Mathlib.Logic.Relation

/-!
# The moments of a run

Carrying something out means carrying out its parts, one after the other, and which part comes
next may depend on what the parts before it have come to.  A `Task` is something to be carried
out, from a whole statement down to a single comparison, and a `Moment` is a task together with
what it starts from.  `Starts` says which parts a moment starts, and from where: there is one rule
for each place of the language at which something is evaluated, executed, called, compared or
shown.  What a moment leads to in this way are all the moments of the run (`Moment.Reaches`), so
"at every moment of the run" and "whatever the run comes to" are statements about this relation.

The parts of a moment have less fuel, or less code, or are the same loop with fewer turns left
(`Starts.smaller`), so that what holds of a moment whenever it holds of its parts holds of every
moment (`starts_wf`).
-/

namespace Imperative

open Imperative.Action

/-! ## Parts of expressions -/

namespace Expr

/-- The operand that an operator evaluates first. -/
def first? : Expr → Option Expr
  | .arith _ a _ => some a
  | .neg e => some e
  | .eq a _ => some a
  | .ne a _ => some a
  | .compare _ a _ => some a
  | .logic _ a _ => some a
  | .not e => some e
  | .index base _ => some base
  | _ => none

/-- The operand that an operator evaluates second, given the value of the first one. -/
def second? (x : Value) : Expr → Option Expr
  | .arith _ _ b => some b
  | .eq _ b => some b
  | .ne _ b => some b
  | .compare _ _ b => some b
  | .logic op _ b =>
    match x with
    | .bool p => if p = op.decisive then none else some b
    | _ => none
  | .index _ position => some position
  | _ => none

/-- The operands of an expression that evaluates a list of them. -/
def listed? : Expr → Option (List Expr)
  | .call _ args => some args
  | .list elements => some elements
  | _ => none

/-- Whether an operator compares its operands in content. -/
def equates : Expr → Bool
  | .eq _ _ => true
  | .ne _ _ => true
  | _ => false

end Expr

/-- The operand of a statement, if it evaluates one before it does anything else. -/
def Stmt.operand? : Stmt → Option Expr
  | .declare _ _ e => some e
  | .assign _ e => some e
  | .ret value => value
  | .cond test _ _ => some test
  | .raise e => some e
  | .expr e => some e
  | _ => none

/-! ## Tasks and moments -/

/-- Something to be carried out. -/
inductive Task where
  | eval (e : Expr)
  | evalAll (es : List Expr)
  | exec (s : Stmt)
  | execAll (last : Value) (body : List Stmt)
  | whileTrue (test : Expr) (body : List Stmt) (tests taken : Nat)
  | range (name : String) (body : List Stmt) (left taken : Nat) (i : Int64)
  /-- A call from the scope at hand. -/
  | call (f : Function) (args : List Value)
  /-- The question whether two values are equal in content. -/
  | equal (x y : Value)
  /-- The question what the text of a value is. -/
  | shown (v : Value)

namespace Task

/-- One turn of a loop with this body. -/
def turn (ctx : Context) (fuel : Nat) (body : List Stmt) : Exec Bool :=
  Exec.turn (Stmt.execAll ctx (ctx.calls fuel) fuel .unit body)

/-- Carries out a task.  The value is left out, if there is one. -/
def run (ctx : Context) (fuel : Nat) : Task → Exec Unit
  | .eval e => (fun _ => ()) <$> Exec.eval fun scope => e.run ctx fuel scope
  | .evalAll es =>
    (fun _ => ()) <$> Exec.eval fun scope => Expr.evalAll ctx (ctx.calls fuel) scope es
  | .exec s => (fun _ => ()) <$> s.run ctx fuel
  | .execAll last body => (fun _ => ()) <$> Stmt.execAll ctx (ctx.calls fuel) fuel last body
  | .whileTrue test body tests taken =>
    Loop.whileTrue ctx.limits
      (Exec.eval fun scope => test.run ctx fuel scope >>= Value.truth (.condition .whileDo))
      (turn ctx fuel body) tests taken
  | .range name body left taken i => Loop.range ctx.limits name (turn ctx fuel body) left taken i
  | .call f args => (fun _ => ()) <$> Exec.eval fun scope => ctx.calls fuel scope f args
  | .equal x y => (fun _ => ()) <$> Exec.eval fun _ => x.equal y
  | .shown v => (fun _ => ()) <$> Exec.eval fun _ => v.shown

end Task

/-- A task and what it starts from: an amount of fuel, a scope and a machine. -/
structure Moment where
  fuel : Nat
  task : Task
  start : Activation

namespace Moment

/-- The task has an outcome. -/
def Ends (ctx : Context) (c : Moment) : Prop := Action.Ends (c.task.run ctx c.fuel) c.start

/-- The task is a question and has an answer, or it is none. -/
def Answered (c : Moment) : Prop :=
  match c.task with
  | .equal x y => c.start.machine.heap.equal? x y ≠ none
  | .shown v => c.start.machine.heap.show? v ≠ none
  | _ => True

/-- There is no fuel left for a call, or no further test for a loop. -/
def exhausted (c : Moment) : Bool :=
  match c.task with
  | .call _ _ => c.fuel == 0
  | .whileTrue _ _ tests _ => tests == 0
  | _ => false

section Ends

variable {ctx : Context} {fuel : Nat} {s : Activation}

theorem ends_eval {e : Expr} :
    Moment.Ends ctx ⟨fuel, .eval e, s⟩ ↔ Action.Ends (e.run ctx fuel s.scope) s.machine :=
  ends_map.trans Exec.ends_eval

theorem ends_evalAll {es : List Expr} :
    Moment.Ends ctx ⟨fuel, .evalAll es, s⟩ ↔
      Action.Ends (Expr.evalAll ctx (ctx.calls fuel) s.scope es) s.machine :=
  ends_map.trans Exec.ends_eval

theorem ends_exec {t : Stmt} :
    Moment.Ends ctx ⟨fuel, .exec t, s⟩ ↔ Action.Ends (t.run ctx fuel) s := ends_map

theorem ends_execAll {last : Value} {body : List Stmt} :
    Moment.Ends ctx ⟨fuel, .execAll last body, s⟩ ↔
      Action.Ends (Stmt.execAll ctx (ctx.calls fuel) fuel last body) s := ends_map

theorem ends_call {f : Function} {args : List Value} :
    Moment.Ends ctx ⟨fuel, .call f args, s⟩ ↔
      Action.Ends (ctx.calls fuel s.scope f args) s.machine :=
  ends_map.trans Exec.ends_eval

theorem ends_equal {x y : Value} :
    Moment.Ends ctx ⟨fuel, .equal x y, s⟩ ↔ s.machine.heap.equal? x y ≠ none :=
  (ends_map.trans Exec.ends_eval).trans Eval.ends_observe

theorem ends_shown {v : Value} :
    Moment.Ends ctx ⟨fuel, .shown v, s⟩ ↔ s.machine.heap.show? v ≠ none :=
  (ends_map.trans Exec.ends_eval).trans Eval.ends_observe

end Ends

end Moment

/-! ## What a moment starts -/

/-- The parts of a moment. -/
inductive Starts (ctx : Context) : Moment → Moment → Prop where
  /- Expressions. -/
  | first {fuel : Nat} {s : Activation} {e a : Expr} :
    e.first? = some a → Starts ctx ⟨fuel, .eval e, s⟩ ⟨fuel, .eval a, s⟩
  | second {fuel : Nat} {s : Activation} {e a b : Expr} {x : Value} {m : Machine} :
    e.first? = some a → a.run ctx fuel s.scope s.machine = some (.ok x, m) →
      e.second? x = some b → Starts ctx ⟨fuel, .eval e, s⟩ ⟨fuel, .eval b, ⟨s.scope, m⟩⟩
  | equal {fuel : Nat} {s : Activation} {e a b : Expr} {x y : Value} {m m' : Machine} :
    e.equates = true → e.first? = some a → a.run ctx fuel s.scope s.machine = some (.ok x, m) →
      e.second? x = some b → b.run ctx fuel s.scope m = some (.ok y, m') →
        Starts ctx ⟨fuel, .eval e, s⟩ ⟨fuel, .equal x y, ⟨s.scope, m'⟩⟩
  | args {fuel : Nat} {s : Activation} {name : String} {args : List Expr} {callee : Callee}
      {m : Machine} :
    ctx.calleeOf s.scope name args.length s.machine = some (.ok callee, m) →
      Starts ctx ⟨fuel, .eval (.call name args), s⟩ ⟨fuel, .evalAll args, ⟨s.scope, m⟩⟩
  | call {fuel : Nat} {s : Activation} {name : String} {args : List Expr} {f : Function}
      {vs : List Value} {m m' : Machine} :
    ctx.calleeOf s.scope name args.length s.machine = some (.ok (.function f), m) →
      Expr.evalAll ctx (ctx.calls fuel) s.scope args m = some (.ok vs, m') →
        Starts ctx ⟨fuel, .eval (.call name args), s⟩ ⟨fuel, .call f vs, ⟨s.scope, m'⟩⟩
  | elements {fuel : Nat} {s : Activation} {es : List Expr} :
    Starts ctx ⟨fuel, .eval (.list es), s⟩ ⟨fuel, .evalAll es, s⟩
  | firstOf {fuel : Nat} {s : Activation} {e : Expr} {es : List Expr} :
    Starts ctx ⟨fuel, .evalAll (e :: es), s⟩ ⟨fuel, .eval e, s⟩
  | restOf {fuel : Nat} {s : Activation} {e : Expr} {es : List Expr} {v : Value} {m : Machine} :
    e.run ctx fuel s.scope s.machine = some (.ok v, m) →
      Starts ctx ⟨fuel, .evalAll (e :: es), s⟩ ⟨fuel, .evalAll es, ⟨s.scope, m⟩⟩
  /- Statements. -/
  | operand {fuel : Nat} {s : Activation} {t : Stmt} {e : Expr} :
    t.operand? = some e → Starts ctx ⟨fuel, .exec t, s⟩ ⟨fuel, .eval e, s⟩
  | branch {fuel : Nat} {s : Activation} {test : Expr} {yes no : List Stmt} {p : Bool}
      {m : Machine} :
    test.run ctx fuel s.scope s.machine = some (.ok (.bool p), m) →
      Starts ctx ⟨fuel, .exec (.cond test yes no), s⟩
        ⟨fuel, .execAll .unit (if p then yes else no), ⟨s.scope, m⟩⟩
  | shown {fuel : Nat} {s : Activation} {e : Expr} {v : Value} {m : Machine} :
    e.run ctx fuel s.scope s.machine = some (.ok v, m) →
      Starts ctx ⟨fuel, .exec (.raise e), s⟩ ⟨fuel, .shown v, ⟨s.scope, m⟩⟩
  | block {fuel : Nat} {s : Activation} {body : List Stmt} :
    Starts ctx ⟨fuel, .exec (.block body), s⟩ ⟨fuel, .execAll .unit body, s⟩
  | guarded {fuel : Nat} {s : Activation} {body handler : List Stmt} {name : String} :
    Starts ctx ⟨fuel, .exec (.guarded body name handler), s⟩ ⟨fuel, .execAll .unit body, s⟩
  | handler {fuel : Nat} {s b : Activation} {body handler : List Stmt} {name : String}
      {scope : Scope} :
    Stmt.handlerStart? ctx fuel body name s = some (scope, b) →
      Starts ctx ⟨fuel, .exec (.guarded body name handler), s⟩ ⟨fuel, .execAll .unit handler, b⟩
  | head {fuel : Nat} {s : Activation} {last : Value} {t : Stmt} {rest : List Stmt} :
    Starts ctx ⟨fuel, .execAll last (t :: rest), s⟩ ⟨fuel, .exec t, s⟩
  | tail {fuel : Nat} {s b : Activation} {last v : Value} {t : Stmt} {rest : List Stmt} :
    t.run ctx fuel s = some (.ok v, b) →
      Starts ctx ⟨fuel, .execAll last (t :: rest), s⟩ ⟨fuel, .execAll v rest, b⟩
  /- Loops. -/
  | whileDo {fuel : Nat} {s : Activation} {test : Expr} {body : List Stmt} :
    Starts ctx ⟨fuel, .exec (.whileDo test body), s⟩
      ⟨fuel, .whileTrue test body (ctx.limits.testBound fuel) 0, ⟨s.scope, s.machine.enterLoop⟩⟩
  | test {fuel : Nat} {s : Activation} {test : Expr} {body : List Stmt} {tests taken : Nat} :
    Starts ctx ⟨fuel, .whileTrue test body (tests + 1) taken, s⟩ ⟨fuel, .eval test, s⟩
  | whileTurn {fuel : Nat} {s : Activation} {test : Expr} {body : List Stmt} {tests taken : Nat}
      {m : Machine} :
    test.run ctx fuel s.scope s.machine = some (.ok (.bool true), m) →
      ctx.limits.admitTurn taken = .ok () →
        Starts ctx ⟨fuel, .whileTrue test body (tests + 1) taken, s⟩
          ⟨fuel, .execAll .unit body, ⟨s.scope, m⟩⟩
  | whileNext {fuel : Nat} {s b : Activation} {test : Expr} {body : List Stmt}
      {tests taken : Nat} {m : Machine} :
    test.run ctx fuel s.scope s.machine = some (.ok (.bool true), m) →
      ctx.limits.admitTurn taken = .ok () →
        Task.turn ctx fuel body ⟨s.scope, m⟩ = some (.ok true, b) →
          Starts ctx ⟨fuel, .whileTrue test body (tests + 1) taken, s⟩
            ⟨fuel, .whileTrue test body tests (taken + 1), b⟩
  | lower {fuel : Nat} {s : Activation} {name : String} {start stop : Expr} {body : List Stmt} :
    Starts ctx ⟨fuel, .exec (.forRange name start stop body), s⟩
      ⟨fuel, .eval start, ⟨s.scope, s.machine.enterLoop⟩⟩
  | upper {fuel : Nat} {s : Activation} {name : String} {start stop : Expr} {body : List Stmt}
      {x : Value} {m : Machine} :
    start.run ctx fuel s.scope s.machine.enterLoop = some (.ok x, m) →
      Starts ctx ⟨fuel, .exec (.forRange name start stop body), s⟩
        ⟨fuel, .eval stop, ⟨s.scope, m⟩⟩
  | range {fuel : Nat} {s : Activation} {name : String} {start stop : Expr} {body : List Stmt}
      {i j : Int64} {m m' : Machine} :
    start.run ctx fuel s.scope s.machine.enterLoop = some (.ok (.int i), m) →
      stop.run ctx fuel s.scope m = some (.ok (.int j), m') →
        Starts ctx ⟨fuel, .exec (.forRange name start stop body), s⟩
          ⟨fuel, .range name body (Loop.turns i j) 0 i, ⟨s.scope, m'⟩⟩
  | rangeTurn {fuel : Nat} {s : Activation} {name : String} {body : List Stmt} {left taken : Nat}
      {i : Int64} :
    ctx.limits.admitTurn taken = .ok () →
      Starts ctx ⟨fuel, .range name body (left + 1) taken i, s⟩
        ⟨fuel, .execAll .unit body,
          ⟨s.scope.define name { value := .int i, ty := some .int }, s.machine⟩⟩
  | rangeNext {fuel : Nat} {s b : Activation} {name : String} {body : List Stmt}
      {left taken : Nat} {i : Int64} :
    ctx.limits.admitTurn taken = .ok () →
      Task.turn ctx fuel body
          ⟨s.scope.define name { value := .int i, ty := some .int }, s.machine⟩ =
        some (.ok true, b) →
        Starts ctx ⟨fuel, .range name body (left + 1) taken i, s⟩
          ⟨fuel, .range name body left (taken + 1) (i + 1), b⟩
  /- Calls. -/
  | body {fuel : Nat} {s : Activation} {f : Function} {args : List Value} {scope : Scope} :
    Call.entry ctx s.scope f args s.machine = .ok scope →
      Starts ctx ⟨fuel + 1, .call f args, s⟩
        ⟨fuel, .execAll .unit f.body, ⟨scope, s.machine.enterCall⟩⟩

/-- The moment is the first one of a run, and the other one is a moment of that run. -/
def Moment.Reaches (ctx : Context) : Moment → Moment → Prop := Relation.ReflTransGen (Starts ctx)

/-! ## The parts are smaller -/

namespace Task

/-- The size of the code of a task. -/
noncomputable def size : Task → Nat
  | .eval e => sizeOf e
  | .evalAll es => sizeOf es
  | .exec s => sizeOf s
  | .execAll _ body => sizeOf body
  | .whileTrue test body _ _ => sizeOf test + sizeOf body
  | .range _ body _ _ _ => sizeOf body + 1
  | .call _ _ => 0
  | .equal _ _ => 0
  | .shown _ => 0

/-- How many turns a loop has left. -/
def turnsLeft : Task → Nat
  | .whileTrue _ _ tests _ => tests
  | .range _ _ left _ _ => left
  | _ => 0

end Task

theorem Expr.sizeOf_pos (e : Expr) : 0 < sizeOf e := by
  cases e <;> simp +arith

theorem Stmt.sizeOf_list_pos (body : List Stmt) : 0 < sizeOf body := by
  cases body <;> simp +arith

theorem Expr.sizeOf_first {e a : Expr} (h : e.first? = some a) : sizeOf a < sizeOf e := by
  cases e <;> cases h <;> simp +arith

theorem Expr.sizeOf_second {e b : Expr} {x : Value} (h : e.second? x = some b) :
    sizeOf b < sizeOf e := by
  cases e with
  | logic op a c =>
    cases x with
    | bool p =>
      simp only [second?, Option.ite_none_left_eq_some, Option.some.injEq] at h
      obtain ⟨-, rfl⟩ := h
      simp +arith
    | _ => cases h
  | _ => cases h <;> simp +arith

theorem Stmt.sizeOf_operand {t : Stmt} {e : Expr} (h : t.operand? = some e) :
    sizeOf e < sizeOf t := by
  cases t with
  | ret value =>
    cases value with
    | none => cases h
    | some a =>
      cases h
      simp +arith
  | _ => cases h <;> simp +arith

/-- **A part has less fuel, or less code, or it is the same loop with fewer turns left.** -/
theorem Starts.smaller {ctx : Context} {c d : Moment} (h : Starts ctx c d) :
    d.fuel < c.fuel ∨ d.fuel = c.fuel ∧
      (d.task.size < c.task.size ∨
        d.task.size = c.task.size ∧ d.task.turnsLeft < c.task.turnsLeft) := by
  cases h with
  | first ha => exact .inr ⟨rfl, .inl (Expr.sizeOf_first ha)⟩
  | second _ _ hb => exact .inr ⟨rfl, .inl (Expr.sizeOf_second hb)⟩
  | body _ => exact .inl (Nat.lt_succ_self _)
  | operand ht => exact .inr ⟨rfl, .inl (Stmt.sizeOf_operand ht)⟩
  | whileNext _ _ _ => exact .inr ⟨rfl, .inr ⟨rfl, Nat.lt_succ_self _⟩⟩
  | rangeNext _ _ => exact .inr ⟨rfl, .inr ⟨rfl, Nat.lt_succ_self _⟩⟩
  | equal _ ha _ _ _ => exact .inr ⟨rfl, .inl (Expr.sizeOf_pos _)⟩
  | branch _ =>
    refine .inr ⟨rfl, .inl ?_⟩
    simp only [Task.size, Stmt.cond.sizeOf_spec]
    split <;> omega
  | @test _ _ _ body _ _ =>
    have hbody := Stmt.sizeOf_list_pos body
    exact .inr ⟨rfl, .inl (by simp only [Task.size]; omega)⟩
  | @whileTurn _ _ test _ _ _ _ _ _ =>
    have htest := test.sizeOf_pos
    exact .inr ⟨rfl, .inl (by simp only [Task.size]; omega)⟩
  | @range _ _ _ start _ _ _ _ _ _ _ _ =>
    have hstart := start.sizeOf_pos
    exact .inr ⟨rfl, .inl (by simp only [Task.size, Stmt.forRange.sizeOf_spec]; omega)⟩
  | _ => exact .inr ⟨rfl, .inl (by simp +arith [Task.size])⟩

/-- Going from a moment to its parts, and on to theirs, comes to an end. -/
theorem starts_wf (ctx : Context) : WellFounded fun d c => Starts ctx c d := by
  have hlex := (inferInstance : WellFoundedRelation (Nat × Nat × Nat)).wf
  refine Subrelation.wf ?_
    (InvImage.wf (fun c : Moment => (c.fuel, c.task.size, c.task.turnsLeft)) hlex)
  intro d c h
  exact Prod.lex_def.mpr (h.smaller.imp_right (And.imp_right Prod.lex_def.mpr))

end Imperative
