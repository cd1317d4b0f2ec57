import Imperative.Call
import Imperative.Proofs.Lockstep

/-!
# What code does not see of the machine

A machine keeps books: a tally of calls, a trace of events, and the number of loops in progress.  No
construct of the language reads them.  What is read is the heap, the tables of shared objects, and,
when a call is admitted, the number of bodies in progress; a limit on turns is a limit on the turns
of one loop, not on the loops in progress.

So two runs of the same code whose machines differ in the books alone go in lockstep: neither ends, or
both end with the same outcome, in the same scope, and in machines that again differ in the books
alone.  How they differ is not fixed here.  Any relation will do that is kept by whatever is written
in the books (`Machine.Unread`), such as that one tally is ahead of the other by a call.
-/

namespace Imperative

open Imperative.Action

/-! ## Machines that differ in their books -/

/-- The relation is kept by what is done to both of two machines, and related machines do not differ
in what is read. -/
structure Machine.Unread (R : Machine → Machine → Prop) : Prop where
  heap {m n : Machine} : R m n → m.heap = n.heap
  texts {m n : Machine} : R m n → m.texts = n.texts
  functionRefs {m n : Machine} : R m n → m.functionRefs = n.functionRefs
  callDepth {m n : Machine} : R m n → m.callDepth = n.callDepth
  setHeap {m n : Machine} (heap : Heap) : R m n → R { m with heap } { n with heap }
  setTexts {m n : Machine} (texts : Std.ExtTreeMap String Handle) : R m n →
    R { m with texts } { n with texts }
  setFunctionRefs {m n : Machine} (functionRefs : Std.ExtTreeMap String Handle) : R m n →
    R { m with functionRefs } { n with functionRefs }
  emit {m n : Machine} (e : Event) : R m n → R (m.emit e) (n.emit e)
  enterCall {m n : Machine} : R m n → R m.enterCall n.enterCall
  leaveCall {m n : Machine} : R m n → R m.leaveCall n.leaveCall
  record {m n : Machine} (function : String) (c : Completion) : R m n →
    R (m.record function c) (n.record function c)
  enterLoop {m n : Machine} : R m n → R m.enterLoop n.enterLoop
  leaveLoop {m n : Machine} {α : Type} (r : Except Exit α) : R m n → R (m.leaveLoop r) (n.leaveLoop r)

/-- The scopes are the same, and the machines are related. -/
structure Activation.Like (R : Machine → Machine → Prop) (a b : Activation) : Prop where
  scope : a.scope = b.scope
  machine : R a.machine b.machine

section Lockstep

variable {R : Machine → Machine → Prop} {α : Type}

/-! ## Evaluation -/

namespace Eval

theorem blind_read (U : Machine.Unread R) (f : Heap → Except Fault α) : Blind R (read f) := by
  intro m n h
  simp only [read, U.heap h]
  exact .ended _ h

theorem blind_observe (U : Machine.Unread R) (f : Heap → Option α) : Blind R (observe f) := by
  intro m n h
  simp only [observe, U.heap h]
  cases f n.heap with
  | none => exact .unfinished
  | some a => exact .ended (.ok a) h

theorem blind_mismatch (U : Machine.Unread R) (f : Heap → Mismatch) :
    Blind R (mismatch f : Eval α) :=
  blind_read U _

theorem blind_fetch (U : Machine.Unread R) (r : Handle) : Blind R (fetch r) := blind_read U _

/-- A change is blind if it yields the same in related machines, and leaves related ones. -/
theorem blind_change {f : Machine → α × Machine}
    (hf : ∀ m n, R m n → (f m).1 = (f n).1 ∧ R (f m).2 (f n).2) : Blind R (change f) := by
  intro m n h
  obtain ⟨hvalue, hmachine⟩ := hf m n h
  simp only [change, hvalue]
  exact .ended (.ok (f n).1) hmachine

end Eval

namespace Eval

variable (U : Machine.Unread R)
include U

theorem blind_alloc (o : Object) : Blind R (alloc o) := by
  refine blind_change fun m n h => ?_
  simp only [Machine.alloc, U.heap h]
  exact ⟨trivial, U.setHeap _ h⟩

theorem blind_internText (s : String) : Blind R (change (·.internText s)) := by
  refine blind_change fun m n h => ?_
  simp only [Machine.internText, U.heap h, U.texts h]
  split
  · exact ⟨rfl, h⟩
  · exact ⟨rfl, U.setTexts _ (U.setHeap _ h)⟩

theorem blind_internFunction (name : String) : Blind R (change (·.internFunction name)) := by
  refine blind_change fun m n h => ?_
  simp only [Machine.internFunction, U.heap h, U.functionRefs h]
  split
  · exact ⟨rfl, h⟩
  · exact ⟨rfl, U.setFunctionRefs _ (U.setHeap _ h)⟩

end Eval

/-! ## Operations -/

namespace Value

variable (U : Machine.Unread R)
include U

theorem blind_refuseArithmetic (op : ArithOp) (x y : Value) :
    Blind R (refuseArithmetic op x y : Eval α) :=
  Eval.blind_mismatch U _

theorem blind_join (p q : Handle) : Blind R (join p q) := by
  unfold join
  refine (Eval.blind_fetch U p).bind fun a => (Eval.blind_fetch U q).bind fun b => ?_
  split
  · exact Eval.blind_alloc U _
  · exact blind_refuseArithmetic U .add _ _

theorem blind_arithmetic (op : ArithOp) (x y : Value) : Blind R (x.arithmetic op y) := by
  unfold arithmetic
  split
  · exact Eval.blind_read U _
  · split
    · exact blind_join U _ _
    · exact blind_refuseArithmetic U op _ _
  · split
    · exact blind_pure _
    · exact blind_refuseArithmetic U op _ _

theorem blind_negate (x : Value) : Blind R x.negate := by
  unfold negate
  split
  · exact blind_pure _
  · exact blind_pure _
  · exact Eval.blind_mismatch U _

theorem blind_compared (op : CompareOp) (x y : Value) : Blind R (x.compared op y) := by
  unfold compared
  split
  · exact blind_pure _
  · exact Eval.blind_mismatch U _

theorem blind_equal (x y : Value) : Blind R (x.equal y) := Eval.blind_observe U _

theorem blind_shown (x : Value) : Blind R x.shown := Eval.blind_observe U _

theorem blind_truth (describe : Shape → Mismatch) (x : Value) : Blind R (x.truth describe) := by
  unfold truth
  split
  · exact blind_pure _
  · exact Eval.blind_mismatch U _

theorem blind_position (x : Value) : Blind R x.position := by
  unfold position
  split
  · exact blind_pure _
  · exact Eval.blind_mismatch U _

theorem blind_index (base : Value) (i : Int64) : Blind R (base.index i) := by
  unfold index
  split
  · refine (Eval.blind_fetch U _).bind fun o => ?_
    split
    · split
      · exact blind_pure _
      · exact blind_throw _
    · split
      · exact Eval.blind_alloc U _
      · exact blind_throw _
    · exact blind_throw _
  · exact blind_throw _

theorem blind_length (x : Value) : Blind R x.length := by
  unfold length
  split
  · refine (Eval.blind_fetch U _).bind fun o => ?_
    split
    · exact blind_pure _
    · exact blind_pure _
    · exact blind_throw _
  · exact blind_throw _

theorem blind_push (target item : Value) : Blind R (target.push item) := by
  unfold push
  split
  · refine (Eval.blind_fetch U _).bind fun o => ?_
    split
    · refine Eval.blind_change fun m n h => ⟨rfl, ?_⟩
      simp only [U.heap h]
      exact U.setHeap _ h
    · exact blind_throw _
  · exact blind_throw _

end Value

section Names

variable (U : Machine.Unread R) (ctx : Context)
include U

theorem Builtin.blind_apply (b : Builtin) (args : List Value) : Blind R (b.apply args) := by
  unfold apply
  split
  · exact Value.blind_length U _
  · exact Value.blind_push U _ _
  · exact blind_throw _

theorem Loop.blind_bounds (x y : Value) : Blind R (bounds x y) := by
  unfold bounds
  split
  · exact blind_pure _
  · exact Eval.blind_mismatch U _

theorem Context.blind_valueOf (scope : Scope) (name : String) :
    Blind R (ctx.valueOf scope name) := by
  unfold valueOf
  split
  · exact blind_pure _
  · split
    · exact Eval.blind_internFunction U name
    · exact blind_throw _

theorem Context.blind_functionOf (scope : Scope) (name : String) :
    Blind R (ctx.functionOf scope name) := by
  unfold functionOf
  split
  · exact blind_pure _
  · split
    · refine (Eval.blind_fetch U _).bind fun o => ?_
      split
      · split
        · exact blind_pure _
        · exact blind_throw _
      · exact blind_throw _
    · exact blind_throw _

theorem Context.blind_calleeOf (scope : Scope) (name : String) (operands : Nat) :
    Blind R (ctx.calleeOf scope name operands) := by
  unfold calleeOf
  split
  · split
    · exact blind_pure _
    · exact blind_throw _
  · exact (blind_functionOf U ctx scope name).bind fun _ => blind_pure _

end Names

/-! ## Expressions -/

section Expressions

variable {ctx : Context} {calls : Calls}

/-- Calls do the same in machines that are related. -/
def Calls.AreBlind (R : Machine → Machine → Prop) (calls : Calls) : Prop :=
  ∀ scope f args, Blind R (calls scope f args)

theorem Callee.blind_apply (U : Machine.Unread R) (hcalls : calls.AreBlind R) (scope : Scope)
    (args : List Value) (callee : Callee) : Blind R (callee.apply calls scope args) := by
  cases callee with
  | builtin b => exact Builtin.blind_apply U b args
  | function f => exact (hcalls scope f args).bind fun _ => blind_pure _

mutual

/-- **Expressions do not see the books.** -/
theorem Expr.blind_eval (U : Machine.Unread R) (hcalls : calls.AreBlind R) (scope : Scope)
    (e : Expr) : Blind R (e.eval ctx calls scope) := by
  cases e with
  | int n | float x | bool b =>
    rw [eval]
    exact blind_pure _
  | text s =>
    rw [eval]
    exact Eval.blind_internText U s
  | ident name =>
    rw [eval]
    exact Context.blind_valueOf U ctx scope name
  | arith op a b =>
    rw [eval]
    exact (blind_eval U hcalls scope a).bind fun x => (blind_eval U hcalls scope b).bind fun y =>
      Value.blind_arithmetic U op x y
  | neg e =>
    rw [eval]
    exact (blind_eval U hcalls scope e).bind fun x => Value.blind_negate U x
  | eq a b | ne a b =>
    rw [eval]
    exact (blind_eval U hcalls scope a).bind fun x => (blind_eval U hcalls scope b).bind fun y =>
      (Value.blind_equal U x y).bind fun _ => blind_pure _
  | compare op a b =>
    rw [eval]
    exact (blind_eval U hcalls scope a).bind fun x => (blind_eval U hcalls scope b).bind fun y =>
      Value.blind_compared U op x y
  | logic op a b =>
    rw [eval]
    refine (blind_eval U hcalls scope a).bind fun x => (Value.blind_truth U _ x).bind fun p => ?_
    split
    · exact blind_pure _
    · exact (blind_eval U hcalls scope b).bind fun y =>
        (Value.blind_truth U _ y).bind fun _ => blind_pure _
  | not e =>
    rw [eval]
    exact (blind_eval U hcalls scope e).bind fun x =>
      (Value.blind_truth U _ x).bind fun _ => blind_pure _
  | call name args =>
    rw [eval]
    refine (Context.blind_calleeOf U ctx scope name args.length).bind fun callee => ?_
    exact (blind_evalAll U hcalls scope args).bind fun vs =>
      Callee.blind_apply U hcalls scope vs callee
  | list elements =>
    rw [eval]
    exact (blind_evalAll U hcalls scope elements).bind fun vs => Eval.blind_alloc U _
  | index base position =>
    rw [eval]
    refine (blind_eval U hcalls scope base).bind fun b => ?_
    refine (blind_eval U hcalls scope position).bind fun p => ?_
    exact (Value.blind_position U p).bind fun i => Value.blind_index U b i

theorem Expr.blind_evalAll (U : Machine.Unread R) (hcalls : calls.AreBlind R) (scope : Scope)
    (es : List Expr) : Blind R (Expr.evalAll ctx calls scope es) := by
  cases es with
  | nil =>
    rw [evalAll]
    exact blind_pure _
  | cons e es =>
    rw [evalAll]
    exact (blind_eval U hcalls scope e).bind fun v =>
      (blind_evalAll U hcalls scope es).bind fun vs => blind_pure _

end

end Expressions

/-! ## Execution -/

namespace Exec

theorem blind_eval {x : Scope → Eval α} (hx : ∀ scope, Blind R (x scope)) :
    Blind (Activation.Like R) (eval x) := by
  rintro ⟨scope, m⟩ ⟨_, n⟩ ⟨rfl, hm⟩
  have hpair : Paired R (x scope m) (x scope n) := hx scope m n hm
  simp only [eval]
  generalize x scope m = p, x scope n = q at hpair
  cases hpair with
  | unfinished => exact .unfinished
  | @ended r m' n' h =>
    have hlike : Activation.Like R ⟨scope, m'⟩ ⟨scope, n'⟩ := ⟨rfl, h⟩
    cases r with
    | ok v => exact .ended (.ok v) hlike
    | error f => exact .ended (.error (Exit.failed f)) hlike

theorem blind_rescope (U : Machine.Unread R) (f : Scope → Heap → Except Fault Scope) :
    Blind (Activation.Like R) (rescope f) := by
  rintro ⟨scope, m⟩ ⟨_, n⟩ ⟨rfl, hm⟩
  have hlike : ∀ scope, Activation.Like R ⟨scope, m⟩ ⟨scope, n⟩ := fun _ => ⟨rfl, hm⟩
  unfold rescope
  dsimp only
  rw [U.heap hm]
  cases f scope n.heap with
  | ok scope' => exact .ended (.ok ()) (hlike scope')
  | error g => exact .ended (.error (Exit.failed g)) (hlike scope)

theorem blind_define (U : Machine.Unread R) (name : String) (b : Binding) :
    Blind (Activation.Like R) (define name b) :=
  blind_rescope U _

theorem blind_change {f : Machine → α × Machine}
    (hf : ∀ m n, R m n → (f m).1 = (f n).1 ∧ R (f m).2 (f n).2) :
    Blind (Activation.Like R) (change f) := by
  rintro ⟨scope, m⟩ ⟨_, n⟩ ⟨rfl, hm⟩
  obtain ⟨hvalue, hmachine⟩ := hf m n hm
  simp only [change, hvalue]
  exact .ended (.ok (f n).1) ⟨rfl, hmachine⟩

theorem blind_inChild {x : Exec α} (hx : Blind (Activation.Like R) x) (name : String)
    (b : Binding) : Blind (Activation.Like R) (inChild name b x) := by
  rintro ⟨scope, m⟩ ⟨_, n⟩ ⟨rfl, hm⟩
  have hpair := hx ⟨scope.child.define name b, m⟩ ⟨scope.child.define name b, n⟩ ⟨rfl, hm⟩
  simp only [inChild]
  generalize x ⟨scope.child.define name b, m⟩ = p, x ⟨scope.child.define name b, n⟩ = q at hpair
  cases hpair with
  | unfinished => exact .unfinished
  | ended r h => exact .ended r ⟨rfl, h.machine⟩

theorem blind_inLoop (U : Machine.Unread R) {x : Exec α} (hx : Blind (Activation.Like R) x) :
    Blind (Activation.Like R) (inLoop x) := by
  rintro ⟨scope, m⟩ ⟨_, n⟩ ⟨rfl, hm⟩
  have hpair := hx ⟨scope, m.enterLoop⟩ ⟨scope, n.enterLoop⟩ ⟨rfl, U.enterLoop hm⟩
  simp only [inLoop]
  generalize x ⟨scope, m.enterLoop⟩ = p, x ⟨scope, n.enterLoop⟩ = q at hpair
  cases hpair with
  | unfinished => exact .unfinished
  | ended r h => exact .ended r ⟨h.scope, U.leaveLoop r h.machine⟩

end Exec

/-! ## Statements -/

section Statements

variable {ctx : Context} {calls : Calls}

mutual

/-- **Statements do not see the books.** -/
theorem Stmt.blind_exec (U : Machine.Unread R) (hcalls : calls.AreBlind R) (patience : Nat)
    (s : Stmt) : Blind (Activation.Like R) (s.exec ctx calls patience) := by
  have heval : ∀ e : Expr, Blind (Activation.Like R)
      (Exec.eval fun scope => e.eval ctx calls scope) :=
    fun e => Exec.blind_eval fun scope => Expr.blind_eval U hcalls scope e
  have htruth : ∀ (e : Expr) (describe : Shape → Mismatch), Blind (Activation.Like R)
      (Exec.eval fun scope => e.eval ctx calls scope >>= Value.truth describe) :=
    fun e describe => Exec.blind_eval fun scope =>
      (Expr.blind_eval U hcalls scope e).bind fun v => Value.blind_truth U describe v
  cases s with
  | declare name ty e | assign name e =>
    rw [exec]
    exact (heval e).bind fun v => (Exec.blind_rescope U _).bind fun _ => blind_pure _
  | ret value =>
    cases value with
    | none =>
      rw [exec]
      exact blind_throw _
    | some e =>
      rw [exec]
      exact (heval e).bind fun v => blind_throw _
  | cond test yes no =>
    rw [exec]
    refine (htruth test _).bind fun p => ?_
    split
    · exact blind_execAll U hcalls patience .unit yes
    · exact blind_execAll U hcalls patience .unit no
  | whileDo test body =>
    rw [exec]
    have hbody := Exec.blind_turn (blind_execAll U hcalls patience .unit body)
    exact Exec.blind_inLoop U
      ((Loop.blind_whileTrue (htruth test _) hbody _ 0).bind fun _ => blind_pure _)
  | forRange name start stop body =>
    rw [exec]
    have hbody := Exec.blind_turn (blind_execAll U hcalls patience .unit body)
    have hbounds : ∀ scope, Blind R (do
        let a ← start.eval ctx calls scope
        let b ← stop.eval ctx calls scope
        Loop.bounds a b) := fun scope =>
      (Expr.blind_eval U hcalls scope start).bind fun a =>
        (Expr.blind_eval U hcalls scope stop).bind fun b => Loop.blind_bounds U a b
    exact Exec.blind_inLoop U ((Exec.blind_eval hbounds).bind fun p =>
      (Loop.blind_range (Exec.blind_define U name) hbody _ 0 p.1).bind fun _ => blind_pure _)
  | breakLoop | continueLoop =>
    rw [exec]
    exact blind_throw _
  | block body =>
    rw [exec]
    exact blind_execAll U hcalls patience .unit body
  | guarded body name handler =>
    rw [exec]
    refine Exec.blind_guarded (blind_execAll U hcalls patience .unit body) fun f => ?_
    refine (Exec.blind_change fun m n h => ?_).bind fun text =>
      Exec.blind_inChild (blind_execAll U hcalls patience .unit handler) name _
    simp only [Machine.alloc, Machine.heap_emit, U.heap h]
    exact ⟨trivial, U.setHeap _ (U.emit _ h)⟩
  | raise e =>
    rw [exec]
    refine (Exec.blind_eval fun scope => ?_).bind fun v => blind_throw _
    exact (Expr.blind_eval U hcalls scope e).bind fun v => Value.blind_shown U v
  | expr e =>
    rw [exec]
    exact heval e

theorem Stmt.blind_execAll (U : Machine.Unread R) (hcalls : calls.AreBlind R) (patience : Nat)
    (last : Value) (body : List Stmt) :
    Blind (Activation.Like R) (Stmt.execAll ctx calls patience last body) := by
  cases body with
  | nil =>
    rw [execAll]
    exact blind_pure last
  | cons s rest =>
    rw [execAll]
    exact (blind_exec U hcalls patience s).bind fun v =>
      blind_execAll U hcalls patience v rest

end

end Statements

/-! ## Calls -/

section Calling

variable {ctx : Context}

theorem Call.entry_like (U : Machine.Unread R) (caller : Scope) (f : Function)
    (args : List Value) {m n : Machine} (h : R m n) :
    entry ctx caller f args m = entry ctx caller f args n := by
  unfold entry
  rw [U.callDepth h, U.heap h]

theorem Call.blind_dispatch (U : Machine.Unread R) {run : List Stmt → Exec Value} {f : Function}
    (hrun : Blind (Activation.Like R) (run f.body)) (caller : Scope) (args : List Value) :
    Blind R (dispatch ctx run caller f args) := by
  intro m n h
  rw [dispatch_apply, dispatch_apply, entry_like U caller f args h]
  cases entry ctx caller f args n with
  | error g => exact .ended (.error g) h
  | ok scope =>
    have hpair := hrun ⟨scope, m.enterCall⟩ ⟨scope, n.enterCall⟩ ⟨rfl, U.enterCall h⟩
    dsimp only
    generalize run f.body ⟨scope, m.enterCall⟩ = p, run f.body ⟨scope, n.enterCall⟩ = q at hpair
    cases hpair with
    | unfinished => exact .unfinished
    | ended r hab =>
      have hleave := U.leaveCall hab.machine
      dsimp only
      split
      · rw [complete_apply, complete_apply, U.heap hleave]
        exact .ended _ (U.record f.name _ hleave)
      · exact .ended _ hleave

/-- **Calls do not see the books.** -/
theorem Context.areBlind_calls (U : Machine.Unread R) (ctx : Context) (fuel : Nat) :
    (ctx.calls fuel).AreBlind R := by
  induction fuel with
  | zero => exact fun _ _ _ _ _ _ => .unfinished
  | succ fuel ih =>
    intro caller f args
    exact Call.blind_dispatch U (Stmt.blind_execAll U ih fuel .unit f.body) caller args

theorem Expr.blind_run (U : Machine.Unread R) (ctx : Context) (fuel : Nat) (scope : Scope)
    (e : Expr) : Blind R (e.run ctx fuel scope) :=
  Expr.blind_eval U (ctx.areBlind_calls U fuel) scope e

theorem Stmt.blind_body (U : Machine.Unread R) (ctx : Context) (fuel : Nat) (last : Value)
    (body : List Stmt) :
    Blind (Activation.Like R) (Stmt.execAll ctx (ctx.calls fuel) fuel last body) :=
  Stmt.blind_execAll U (ctx.areBlind_calls U fuel) fuel last body

end Calling

end Lockstep

end Imperative
