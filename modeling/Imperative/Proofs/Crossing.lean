import Imperative.Proofs.Bookkeeping
import Imperative.Proofs.Endings
import Imperative.Proofs.Progress
import Imperative.Proofs.Refinement

/-!
# How a return crosses its function

A return statement may stand at any depth in its function: in blocks, in branches, in loops, and under
guards, and whatever comes after it in each of them is left undone.  This module follows a return
through all of them at once.

A construct with a hole is a `Layer`, if the hole is reached without anything being evaluated but a
literal, and layers around each other, with anything after the hole in each of them, are a `Nesting`.
A layer that is a loop takes note of the return when it is left, and that is all that any layer does
to it (`Layer.exec_around`).  So a function whose body is a nesting around a return statement
returns the value of its operand, as it is, and what is left behind is what the operand has left
behind and one mark for each loop, one call and one return (`return_crosses`).

The operand is evaluated when the call has been counted already.  Nothing in the language reads the
tally, so this is the same as to count the call afterwards (`Machine.CallAhead`).
-/

namespace Imperative

open Imperative.Action

/-! ## One layer -/

/-- A construct with a hole that is reached at once. -/
inductive Layer where
  | block
  | whenTrue (no : List Stmt)
  | whenFalse (yes : List Stmt)
  | whileDo
  | forRange (name : String) (start stop : Int64) (h : start < stop)
  | guarded (name : String) (handler : List Stmt)

namespace Layer

/-- The construct with its hole filled. -/
def around (inner : List Stmt) : Layer → Stmt
  | block => .block inner
  | whenTrue no => .cond (.bool true) inner no
  | whenFalse yes => .cond (.bool false) yes inner
  | whileDo => .whileDo (.bool true) inner
  | forRange name start stop _ => .forRange name (.int start) (.int stop) inner
  | guarded name handler => .guarded inner name handler

/-- How many loops the construct is. -/
def loops : Layer → Nat
  | whileDo => 1
  | forRange _ _ _ _ => 1
  | _ => 0

/-- The scope at the hole. -/
def scopeAt : Layer → Scope → Scope
  | forRange name start _ _, scope => scope.define name { value := .int start, ty := some .int }
  | _, scope => scope

/-- Where the hole is executed. -/
def enter (layer : Layer) (a : Activation) : Activation :=
  ⟨layer.scopeAt a.scope, { a.machine with activeLoops := a.machine.activeLoops + layer.loops }⟩

end Layer

/-- Leaves a number of loops, one after the other, with a return. -/
def Machine.unwind (s : Signal) : Nat → Machine → Machine
  | 0, m => m
  | n + 1, m => unwind s n (m.leaveLoop (.error (.returned s) : Except Exit Value))

theorem Machine.unwind_add (s : Signal) (n k : Nat) (m : Machine) :
    m.unwind s (n + k) = (m.unwind s n).unwind s k := by
  induction n generalizing m with
  | zero => rw [Nat.zero_add, unwind]
  | succ n ih => rw [Nat.add_right_comm, unwind, unwind, ih]

theorem Exec.turn_of_returned {α : Type} {x : Exec α} {a b : Activation} {s : Signal}
    (h : x a = some (.error (.returned s), b)) : turn x a = some (.error (.returned s), b) := by
  rw [turn, h]

theorem Loop.turns_pos {start stop : Int64} (h : start < stop) : 0 < turns start stop := by
  have hlt := Int64.lt_iff_toInt_lt.mp h
  unfold turns
  omega

section Layers

variable {ctx : Context} {calls : Calls} {patience : Nat}

/-- **A layer lets a return pass**, and takes note of it if it is a loop. -/
theorem Layer.exec_around (hturns : ctx.limits.turns ≠ some 0) (hpatience : 0 < patience)
    (layer : Layer) {inner : List Stmt} {a b : Activation} {s : Signal}
    (h : Stmt.execAll ctx calls patience .unit inner (layer.enter a) =
      some (.error (.returned s), b)) :
    (layer.around inner).exec ctx calls patience a =
      some (.error (.returned s), ⟨b.scope, b.machine.unwind s layer.loops⟩) := by
  have hadmitted : ctx.limits.admitTurn 0 = .ok () :=
    Limits.admitTurn_of_ne (fun _ _ => Nat.zero_le _) hturns
  cases layer with
  | block =>
    rw [around, Stmt.exec]
    exact h
  | whenTrue no =>
    rw [around, Stmt.exec]
    exact bind_eq_error.mpr (.inr ⟨true, a, rfl, h⟩)
  | whenFalse yes =>
    rw [around, Stmt.exec]
    exact bind_eq_error.mpr (.inr ⟨false, a, rfl, h⟩)
  | whileDo =>
    obtain ⟨tests, htests⟩ := Nat.exists_eq_add_one.mpr (ctx.limits.testBound_pos hpatience)
    rw [around, Stmt.exec, htests, Loop.whileTrue, hadmitted]
    refine Exec.inLoop_of_eq_some (bind_eq_error.mpr (.inl ?_))
    refine bind_eq_error.mpr (.inr ⟨true, _, rfl, ?_⟩)
    refine bind_eq_error.mpr (.inr ⟨(), _, rfl, ?_⟩)
    exact bind_eq_error.mpr (.inl (Exec.turn_of_returned h))
  | forRange name start stop hlt =>
    obtain ⟨left, hleft⟩ := Nat.exists_eq_add_one.mpr (Loop.turns_pos hlt)
    rw [around, Stmt.exec]
    refine Exec.inLoop_of_eq_some (bind_eq_error.mpr (.inr ⟨(start, stop), _, rfl, ?_⟩))
    refine bind_eq_error.mpr (.inl ?_)
    rw [hleft, Loop.range, hadmitted]
    refine bind_eq_error.mpr (.inr ⟨(), _, rfl, ?_⟩)
    refine bind_eq_error.mpr (.inr ⟨(), _, rfl, ?_⟩)
    exact bind_eq_error.mpr (.inl (Exec.turn_of_returned h))
  | guarded name handler =>
    rw [around, Stmt.exec, Exec.guarded_apply]
    have hbody : Stmt.execAll ctx calls patience .unit inner a =
        some (.error (.returned s), b) := h
    rw [hbody]
    rfl

end Layers

/-! ## Layers around each other -/

/-- Layers around a hole, with statements after the hole and after each layer. -/
inductive Nesting where
  | hole (after : List Stmt)
  | within (layer : Layer) (inner : Nesting) (after : List Stmt)

namespace Nesting

/-- The body that has a statement in the hole. -/
def fill (s : Stmt) : Nesting → List Stmt
  | hole after => s :: after
  | within layer inner after => layer.around (inner.fill s) :: after

/-- How many loops there are around the hole. -/
def loops : Nesting → Nat
  | hole _ => 0
  | within layer inner _ => layer.loops + inner.loops

/-- The scope at the hole: the names of the loops around it are bound to their first integers, those
of the outer loops first. -/
def scopeAt : Nesting → Scope → Scope
  | hole _, scope => scope
  | within layer inner _, scope => inner.scopeAt (layer.scopeAt scope)

/-- Where the hole is executed. -/
def enter (C : Nesting) (a : Activation) : Activation :=
  ⟨C.scopeAt a.scope, { a.machine with activeLoops := a.machine.activeLoops + C.loops }⟩

theorem enter_within (layer : Layer) (inner : Nesting) (after : List Stmt) (a : Activation) :
    (within layer inner after).enter a = inner.enter (layer.enter a) := by
  simp only [enter, Layer.enter, scopeAt, loops, Nat.add_assoc]

/-- **A nesting lets a return pass**, and takes note of it once for each loop. -/
theorem execAll_fill {ctx : Context} {calls : Calls} {patience : Nat}
    (hturns : ctx.limits.turns ≠ some 0) (hpatience : 0 < patience) (C : Nesting) {stmt : Stmt}
    {last : Value} {a b : Activation} {s : Signal}
    (h : stmt.exec ctx calls patience (C.enter a) = some (.error (.returned s), b)) :
    Stmt.execAll ctx calls patience last (C.fill stmt) a =
      some (.error (.returned s), ⟨b.scope, b.machine.unwind s C.loops⟩) := by
  induction C generalizing last a b with
  | hole after =>
    rw [fill, Stmt.execAll]
    exact bind_eq_error.mpr (.inl h)
  | within layer inner after ih =>
    rw [enter_within] at h
    rw [fill, Stmt.execAll, loops, Nat.add_comm, Machine.unwind_add]
    exact bind_eq_error.mpr (.inl (layer.exec_around hturns hpatience (ih h)))

end Nesting

/-! ## What is left behind -/

/-- The marks of a return of some kind that leaves a number of loops, the innermost first, where
`depth` loops go on. -/
def Event.releases (kind : Kind) (depth loops : Nat) : Array Event :=
  ((List.range loops).reverse.map fun n => Event.loopReleased kind (depth + n)).toArray

theorem Event.releases_succ (kind : Kind) (depth loops : Nat) :
    releases kind depth (loops + 1) =
      #[.loopReleased kind (depth + loops)] ++ releases kind depth loops := by
  simp [releases, List.range_succ]

/-- Leaving loops with a return leaves a mark for each of them, and nothing else. -/
theorem Machine.unwind_eq (s : Signal) (loops : Nat) {m : Machine} {depth : Nat}
    (h : m.activeLoops = depth + loops) :
    m.unwind s loops =
      { m with activeLoops := depth, trace := m.trace ++ Event.releases s.kind depth loops } := by
  induction loops generalizing m with
  | zero =>
    have hnone : Event.releases s.kind depth 0 = #[] := rfl
    rw [unwind, hnone, Array.append_empty, ← show m.activeLoops = depth from h]
  | succ loops ih =>
    have hleft : m.activeLoops - 1 = depth + loops := by omega
    rw [unwind, ih hleft, Event.releases_succ]
    simp only [leaveLoop, hleft, Array.push_eq_append, Array.append_assoc]

/-- Counts a call without entering its body. -/
def Machine.countCall (m : Machine) : Machine := { m with tally := m.tally.addCall }

/-- The second machine has counted one call more. -/
def Machine.CallAhead (m n : Machine) : Prop := n = m.countCall

theorem Machine.unread_callAhead : Unread CallAhead where
  heap := by rintro m n rfl; rfl
  texts := by rintro m n rfl; rfl
  functionRefs := by rintro m n rfl; rfl
  callDepth := by rintro m n rfl; rfl
  setHeap := by rintro m n heap rfl; rfl
  setTexts := by rintro m n texts rfl; rfl
  setFunctionRefs := by rintro m n functionRefs rfl; rfl
  emit := by rintro m n e rfl; rfl
  enterCall := by rintro m n rfl; rfl
  leaveCall := by rintro m n rfl; rfl
  record := by
    rintro m n function c rfl
    cases c with
    | returned s => simp only [CallAhead, Machine.record, countCall, Tally.addReturn_addCall]
    | fellThrough v => rfl
  enterLoop := by rintro m n rfl; rfl
  leaveLoop := by
    rintro m n α r rfl
    unfold leaveLoop
    split <;> rfl

/-! ## Through a whole function -/

section Calls

variable {ctx : Context} {fuel : Nat} {C : Nesting} {e : Expr} {scope : Scope} {m m' : Machine}
  {v : Value}

/-- The operand is evaluated alike if the call has been counted before. -/
theorem Expr.run_callAhead (h : e.run ctx fuel scope m = some (.ok v, m')) :
    e.run ctx fuel scope m.countCall = some (.ok v, m'.countCall) := by
  have hpair := Expr.blind_run Machine.unread_callAhead ctx fuel scope e m _ rfl
  rw [h] at hpair
  obtain ⟨n, hn, rfl⟩ := hpair.of_ended
  exact hn

/-- How a body ends that is a nesting around a return of a value. -/
theorem Nesting.body_returns (hturns : ctx.limits.turns ≠ some 0)
    (h : e.run ctx (fuel + 1) (C.scopeAt scope)
      { m with callDepth := m.callDepth + 1, activeLoops := m.activeLoops + C.loops } =
        some (.ok v, m')) :
    Stmt.execAll ctx (ctx.calls (fuel + 1)) (fuel + 1) .unit (C.fill (.ret (some e)))
        ⟨scope, m.enterCall⟩ =
      some (.error (.returned (.ofValue v)), ⟨C.scopeAt scope,
        m'.countCall.unwind (.ofValue v) C.loops⟩) := by
  have hoperand : e.run ctx (fuel + 1) (C.scopeAt scope) (C.enter ⟨scope, m.enterCall⟩).machine =
      some (.ok v, m'.countCall) :=
    Expr.run_callAhead h
  have hret : (Stmt.ret (some e)).exec ctx (ctx.calls (fuel + 1)) (fuel + 1)
      (C.enter ⟨scope, m.enterCall⟩) = some (.error (.returned (.ofValue v)),
        ⟨C.scopeAt scope, m'.countCall⟩) := by
    rw [Stmt.exec]
    refine bind_eq_error.mpr (.inr
      ⟨v, ⟨C.scopeAt scope, m'.countCall⟩, ?_, rfl⟩)
    exact Exec.eval_eq_ok.mpr ⟨hoperand, rfl⟩
  exact C.execAll_fill hturns (Nat.succ_pos fuel) hret

end Calls

/-- **A return crosses any nesting unchanged.**  A function without an annotated result has a body in
which a return of an operand stands inside of any layers, and loops may take a turn.  The call is
admitted, and the operand has a value where the call would evaluate it: in the scope of the body, with
the names of the loops around the return bound to their first integers, with the body and these loops
in progress.  Then the call returns that value, as it is.  It leaves behind what the operand has left
behind, except that one call and one return more have been counted, that the body and the loops are
not in progress any more, and that the trace goes on with the loops from the inside outwards, and
with the call. -/
theorem return_crosses {ctx : Context} {fuel : Nat} {caller scope : Scope} {f : Function}
    {args : List Value} {C : Nesting} {e : Expr} {v : Value} {m m' : Machine}
    (hturns : ctx.limits.turns ≠ some 0) (hresult : f.result = none)
    (hbody : f.body = C.fill (.ret (some e)))
    (hentry : Call.entry ctx caller f args m = .ok scope)
    (heval : e.run ctx fuel (C.scopeAt scope)
      { m with callDepth := m.callDepth + 1, activeLoops := m.activeLoops + C.loops } =
        some (.ok v, m')) :
    (Signal.ofValue v).toValue = v ∧
    ∀ more, ctx.calls (fuel + more + 2) caller f args m =
      some (.ok (.returned (.ofValue v)), { m' with
        callDepth := m.callDepth
        activeLoops := m.activeLoops
        tally := m'.tally.addCall.addReturn (Signal.ofValue v).kind
        trace := m'.trace ++
          Event.releases (Signal.ofValue v).kind m.activeLoops C.loops ++
          #[.returnCaught f.name (Signal.ofValue v).kind] }) := by
  refine ⟨Signal.toValue_ofValue v, fun more => ?_⟩
  have hmore := Expr.run_of_le (show fuel ≤ fuel + more + 1 by omega) heval
  have hreturns := Nesting.body_returns hturns hmore
  have hloops : m'.activeLoops = m.activeLoops + C.loops :=
    congrArg Prod.snd (progress_of_expr heval)
  have hdepth : m'.callDepth = m.callDepth + 1 := congrArg Prod.fst (progress_of_expr heval)
  have hunwind : m'.countCall.unwind (.ofValue v) C.loops = { m'.countCall with
      activeLoops := m.activeLoops
      trace := m'.trace ++ Event.releases (Signal.ofValue v).kind m.activeLoops C.loops } :=
    Machine.unwind_eq (.ofValue v) C.loops hloops
  rw [Context.calls, Call.dispatch_apply, hentry]
  dsimp only
  rw [hbody, hreturns, hunwind]
  dsimp only [catchReturn]
  rw [Call.complete_apply, hresult]
  simp only [Heap.checkTyped, Except.map, Machine.leaveCall, Machine.record, Machine.countCall,
    hdepth, Nat.add_sub_cancel, Array.push_eq_append]

/-- A guard, two loops, a branch and a block, each with something after it that is not reached. -/
def deepNesting : Nesting :=
  .within (.guarded "e" [.raise (.int 1)])
    (.within (.forRange "i" 3 5 (by decide))
      (.within .whileDo
        (.within (.whenFalse [.breakLoop])
          (.within .block (.hole [.ret (some (.int 0))]) [.breakLoop]) [.raise (.int 2)])
        [.continueLoop])
      [.ret none])
    [.expr (.ident "i")]

/-- A list whose second item is returned from inside a loop of another function. -/
def pairOperand : Expr := .list [.ident "i", .call "g" [.ident "n"]]

/-- The function that is called for the operand. -/
def returnsFromLoop : Function where
  name := "g"
  params := [⟨"k", none⟩]
  body := [.whileDo (.bool true) [.ret (some (.ident "k"))]]

/-- The function that returns the operand from inside of everything. -/
def returnsFromNesting : Function where
  name := "f"
  params := [⟨"n", none⟩]
  body := deepNesting.fill (.ret (some pairOperand))

/-- With loops limited to one turn, the call returns a list, and the trace shows first the return that
the operand is about, and then its own. -/
theorem return_crosses_deepNesting :
    ∃ m, Context.calls ⟨{ turns := some 1 },
          (∅ : Std.ExtTreeMap String Function).insert "g" returnsFromLoop⟩ 3
        .root returnsFromNesting [.int 7] {} = some (.ok (.returned (.reference ⟨0⟩)), m) ∧
      m.trace = #[.loopReleased .integer 2, .returnCaught "g" .integer,
        .loopReleased .reference 1, .loopReleased .reference 0, .returnCaught "f" .reference] ∧
      m.tally.references = 1 ∧ m.tally.calls = 2 ∧ m.activeLoops = 0 ∧ m.callDepth = 0 := by
  obtain ⟨m', heval, htrace, hreferences, hcalls⟩ :
      ∃ m', pairOperand.run ⟨{ turns := some 1 },
          (∅ : Std.ExtTreeMap String Function).insert "g" returnsFromLoop⟩ 1
          (deepNesting.scopeAt (Scope.root.child.define "n" { value := .int 7 }))
          { callDepth := 1, activeLoops := 2 } = some (.ok (.ref ⟨0⟩), m') ∧
        m'.trace = #[.loopReleased .integer 2, .returnCaught "g" .integer] ∧
        m'.tally.references = 0 ∧ m'.tally.calls = 1 := ⟨_, rfl, rfl, rfl, rfl⟩
  have hturns : ({ turns := some 1 } : Limits).turns ≠ some 0 := by decide
  have hbody : returnsFromNesting.body = deepNesting.fill (.ret (some pairOperand)) := rfl
  have hentry : Call.entry ⟨{ turns := some 1 },
      (∅ : Std.ExtTreeMap String Function).insert "g" returnsFromLoop⟩ .root returnsFromNesting
      [.int 7] {} = .ok (Scope.root.child.define "n" { value := .int 7 }) := rfl
  have hcall := (return_crosses hturns rfl hbody hentry heval).2 0
  refine ⟨_, hcall, ?_, ?_, ?_, rfl, rfl⟩
  · rw [htrace]
    rfl
  · exact congrArg (· + 1) hreferences
  · exact congrArg (· + 1) hcalls

end Imperative
