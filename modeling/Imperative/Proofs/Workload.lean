import Imperative.Proofs.Listings
import Imperative.Proofs.Moments.Ending
import Imperative.Proofs.Normalization
import Imperative.Throughput.Workload

/-!
# What the workload comes to

The workload calls one function in a loop, and each call returns from inside a number of blocks.  A
run of it measures something only if each call is caught once, and nothing else is left behind that
would make one turn of the loop different from another.  This is so for every kind of return, every
number of calls and every number of blocks (`Workload.one_return_per_call`).

The loop goes by an invariant (`Workload.Turned`): after `n` turns there have been `n` calls and `n`
returns of the kind in question, the counter `k` is at `n`, and the heap is what it was.  Blocks
around the return make no difference (`Stmt.execAll_nested`), and inside of them the body reads the
list through the scope of its caller.
-/

namespace Imperative

open Imperative.Action

/-! ## Loops with an invariant -/

/-- A loop whose test holds until a number of turns have been taken, and which has enough patience
for one test more than there are turns, ends after that many turns. -/
theorem Loop.whileTrue_of_invariant {limits : Limits} {test body : Exec Bool}
    {I : Nat → Activation → Prop} {total : Nat} (hlimits : limits.turns = none)
    (hturn : ∀ n a, n < total → I n a →
      ∃ b c, test a = some (.ok true, b) ∧ body b = some (.ok true, c) ∧ I (n + 1) c)
    (hend : ∀ a, I total a → ∃ b, test a = some (.ok false, b) ∧ I total b)
    (left : Nat) {n tests taken : Nat} {a : Activation} (hn : n + left = total)
    (htests : left < tests) (ha : I n a) :
    ∃ b, whileTrue limits test body tests taken a = some (.ok (), b) ∧ I total b := by
  induction left generalizing n tests taken a with
  | zero =>
    obtain ⟨tests, rfl⟩ := Nat.exists_eq_succ_of_ne_zero (Nat.ne_of_gt htests)
    subst hn
    obtain ⟨b, htest, hb⟩ := hend a ha
    refine ⟨b, ?_, hb⟩
    rw [whileTrue]
    exact bind_eq_ok.mpr ⟨false, b, htest, rfl⟩
  | succ left ih =>
    obtain ⟨tests, rfl⟩ := Nat.exists_eq_succ_of_ne_zero (Nat.ne_zero_of_lt htests)
    obtain ⟨b, c, htest, hbody, hc⟩ := hturn n a (by omega) ha
    obtain ⟨d, hrest, hd⟩ : ∃ d, whileTrue limits test body tests (taken + 1) c =
        some (.ok (), d) ∧ I total d := ih (by omega) (by omega) hc
    refine ⟨d, ?_, hd⟩
    rw [whileTrue]
    refine bind_eq_ok.mpr ⟨true, b, htest, ?_⟩
    rw [if_pos rfl, Limits.admitTurn_of_none hlimits]
    exact bind_eq_ok.mpr ⟨(), b, rfl, bind_eq_ok.mpr ⟨true, c, hbody, hrest⟩⟩

namespace Throughput.Workload

/-! ## Scopes -/

/-- What the program is carried out under. -/
def context (w : Workload) : Context := (Interpreter.declare {} w.produce).context

/-- The scope of the loop, with the counter at a number. -/
def loopScope (n : Int64) : Scope :=
  (Scope.root.define "payload" { value := .ref ⟨0⟩ }).define "k" { value := .int n }

/-- The scope of the body that is called with a number. -/
def bodyScope (n : Int64) : Scope := (loopScope n).child.define "i" { value := .int n }

theorem snapshot_loopScope (n : Int64) :
    (loopScope n).snapshot = [("k", .int n), ("payload", .ref ⟨0⟩)] :=
  (loopScope n).snapshot_eq_toList

theorem lookup_k (n : Int64) : (loopScope n).lookup "k" = some { value := .int n } := rfl

theorem lookup_i (n : Int64) : (bodyScope n).lookup "i" = some { value := .int n } := rfl

theorem lookup_payload (n : Int64) :
    (bodyScope n).lookup "payload" = some { value := .ref ⟨0⟩ } := rfl

/-- The counter is given a new value in place of the old one. -/
theorem assign_k (h : Heap) (n n' : Int64) :
    (loopScope n).assign h "k" (.int n') = .ok (loopScope n') := rfl

/-! ## One call -/

section Turns

variable {w : Workload} {fuel : Nat} {m : Machine}

/-- The body returns a value of the kind that is asked for, and does nothing else. -/
theorem run_returning (ctx : Context) (fuel : Nat) (kind : Kind) (n : Int64) (m : Machine) :
    ∃ s : Signal, s.kind = kind ∧ (returning kind).run ctx fuel ⟨bodyScope n, m⟩ =
      some (.error (.returned s), ⟨bodyScope n, m⟩) := by
  have hi : (Expr.ident "i").run ctx fuel (bodyScope n) m = some (.ok (.int n), m) :=
    Expr.run_ident (lookup_i n)
  have hret : ∀ {e : Expr} {v : Value}, e.run ctx fuel (bodyScope n) m = some (.ok v, m) →
      (Stmt.ret (some e)).run ctx fuel ⟨bodyScope n, m⟩ =
        some (.error (.returned (.ofValue v)), ⟨bodyScope n, m⟩) := by
    intro e v he
    rw [Stmt.run, Stmt.exec]
    exact bind_eq_error.mpr (.inr ⟨v, ⟨bodyScope n, m⟩, Exec.eval_eq_ok.mpr ⟨he, rfl⟩, rfl⟩)
  cases kind with
  | reference => exact ⟨.reference ⟨0⟩, rfl, hret (Expr.run_ident (lookup_payload n))⟩
  | integer => exact ⟨.integer n, rfl, hret hi⟩
  | float => exact ⟨.float 0.5, rfl, hret (e := .float 0.5) (v := .float 0.5) rfl⟩
  | boolean => exact ⟨.boolean (decide (n.toInt < 0)), rfl, hret (Expr.run_lt hi)⟩
  | unit => exact ⟨.unit, rfl, rfl⟩

/-- A call catches one return of the kind, whatever the number of blocks. -/
theorem calls_produce (w : Workload) (fuel : Nat) (n : Int64) (hm : m.callDepth = 0) :
    ∃ s : Signal, s.kind = w.kind ∧
      w.context.calls (fuel + 1) (loopScope n) w.produce [.int n] m =
        some (.ok (.returned s), m.enterCall.leaveCall.record "produce" (.returned s)) := by
  have hentry : Call.entry w.context (loopScope n) w.produce [.int n] m = .ok (bodyScope n) :=
    Call.entry_eq_ok_iff.mpr ⟨rfl, by rw [hm]; exact Nat.zero_lt_succ 63, rfl⟩
  obtain ⟨s, hs, hreturn⟩ := run_returning w.context fuel w.kind n m.enterCall
  have hbody : Stmt.execAll w.context (w.context.calls fuel) fuel .unit w.produce.body
      ⟨bodyScope n, m.enterCall⟩ =
        some (.error (.returned s), ⟨bodyScope n, m.enterCall⟩) := by
    rw [produce, Stmt.execAll_nested _ _ _ _ _ (List.cons_ne_nil _ _), Stmt.execAll_singleton]
    exact hreturn
  refine ⟨s, hs, ?_⟩
  rw [Context.calls, Call.dispatch_apply, hentry]
  simp only [hbody]
  exact Call.complete_apply _ _ _

/-- The loop calls the function with its counter. -/
theorem run_call {k : Value} {c : Completion} {scope : Scope} {m m' : Machine}
    (hk : (Expr.ident "k").run w.context fuel scope m = some (.ok k, m))
    (hcalls : w.context.calls fuel scope w.produce [k] m = some (.ok c, m')) :
    (Expr.call "produce" [.ident "k"]).run w.context fuel scope m = some (.ok c.value, m') := by
  have hproduce : w.context.functions["produce"]? = some w.produce :=
    Std.ExtTreeMap.getElem?_insert_self
  have hcallee : w.context.calleeOf scope "produce" 1 = pure (.function w.produce) := by
    rw [Context.calleeOf, Context.functionOf_eq hproduce]
    rfl
  rw [Expr.run, Expr.eval]
  refine bind_eq_ok.mpr ⟨.function w.produce, m, by rw [List.length_singleton, hcallee]; rfl, ?_⟩
  refine bind_eq_ok.mpr ⟨[k], m, ?_, bind_eq_ok.mpr ⟨c, m', hcalls, rfl⟩⟩
  rw [Expr.evalAll]
  exact bind_eq_ok.mpr ⟨k, m, hk, rfl⟩

end Turns

/-! ## One turn -/

/-- What has been kept count of after a number of calls, and in a number of loops. -/
structure Counted (w : Workload) (n loops : Nat) (m : Machine) : Prop where
  calls : m.tally.calls = n
  returns (kind : Kind) : m.tally.returns kind = if kind = w.kind then n else 0
  fallThroughs : m.tally.fallThroughs = 0
  callDepth : m.callDepth = 0
  activeLoops : m.activeLoops = loops
  heap : m.heap = ⟨#[.list #[.int 1, .int 2, .int 3]]⟩

/-- Between two turns of the loop, after a number of them. -/
structure Turned (w : Workload) (n : Nat) (a : Activation) : Prop where
  scope : a.scope = loopScope (.ofNat n)
  machine : w.Counted n 1 a.machine

theorem Counted.call {w : Workload} {n loops : Nat} {m : Machine} (hm : w.Counted n loops m)
    {s : Signal} (hs : s.kind = w.kind) :
    w.Counted (n + 1) loops (m.enterCall.leaveCall.record "produce" (.returned s)) where
  calls := by
    change (m.tally.addCall.addReturn s.kind).calls = n + 1
    rw [Tally.calls_addReturn, Tally.addCall, hm.calls]
  returns kind := by
    change (m.tally.addCall.addReturn s.kind).returns kind = _
    rw [Tally.returns_addReturn, Tally.returns_addCall, hm.returns, hs]
    by_cases hkind : kind = w.kind
    · rw [if_pos hkind, if_pos hkind.symm, if_pos hkind]
    · rw [if_neg hkind, if_neg (Ne.symm hkind), if_neg hkind]
  fallThroughs := by
    change (m.tally.addCall.addReturn s.kind).fallThroughs = 0
    rw [Tally.fallThroughs_addReturn, Tally.addCall, hm.fallThroughs]
  callDepth := hm.callDepth
  activeLoops := hm.activeLoops
  heap := hm.heap

section Loop

variable {w : Workload} {fuel n : Nat} {a : Activation}

/-- What is done in one turn. -/
def turnBody : List Stmt := [
  .expr (.call "produce" [.ident "k"]),
  .assign "k" (.arith .add (.ident "k") (.int 1))]

theorem execAll_turnBody {c : Completion} {m m' : Machine}
    (hcalls : w.context.calls fuel (loopScope (.ofNat n)) w.produce [.int (.ofNat n)] m =
      some (.ok c, m')) :
    Stmt.execAll w.context (w.context.calls fuel) fuel .unit turnBody ⟨loopScope (.ofNat n), m⟩ =
      some (.ok .unit, ⟨loopScope (.ofNat (n + 1)), m'⟩) := by
  have hk : ∀ m, (Expr.ident "k").run w.context fuel (loopScope (.ofNat n)) m =
      some (.ok (.int (.ofNat n)), m) := fun m => Expr.run_ident (lookup_k _)
  have hcall := run_call (hk m) hcalls
  have hadd : (Expr.arith .add (.ident "k") (.int 1)).run w.context fuel (loopScope (.ofNat n)) m' =
      some (.ok (.int (.ofNat (n + 1))), m') := by
    rw [Int64.ofNat_add, Expr.run, Expr.eval]
    exact bind_eq_ok.mpr ⟨_, _, hk m', bind_eq_ok.mpr ⟨.int 1, _, rfl, rfl⟩⟩
  rw [turnBody, Stmt.execAll]
  refine bind_eq_ok.mpr ⟨c.value, ⟨loopScope (.ofNat n), m'⟩, ?_, ?_⟩
  · rw [Stmt.exec]
    exact Exec.eval_eq_ok.mpr ⟨hcall, rfl⟩
  · rw [Stmt.execAll]
    refine bind_eq_ok.mpr ⟨.unit, ⟨loopScope (.ofNat (n + 1)), m'⟩, ?_, rfl⟩
    rw [Stmt.exec]
    refine bind_eq_ok.mpr ⟨_, ⟨loopScope (.ofNat n), m'⟩, Exec.eval_eq_ok.mpr ⟨hadd, rfl⟩, ?_⟩
    refine bind_eq_ok.mpr ⟨(), ⟨loopScope (.ofNat (n + 1)), m'⟩, ?_, rfl⟩
    rw [Exec.rescope, assign_k]

/-- A turn is one call, one return, and one more of the counter. -/
theorem Turned.turn (ha : w.Turned n a) (fuel : Nat) :
    ∃ b, Task.turn w.context (fuel + 1) turnBody a = some (.ok true, b) ∧ w.Turned (n + 1) b := by
  obtain ⟨scope, m⟩ := a
  obtain ⟨rfl, hm⟩ := ha
  obtain ⟨s, hs, hcalls⟩ := calls_produce w fuel (.ofNat n) hm.callDepth
  refine ⟨⟨loopScope (.ofNat (n + 1)), _⟩, ?_, rfl, hm.call hs⟩
  rw [Task.turn, Exec.turn, execAll_turnBody hcalls]
  rfl

/-- The test of the loop. -/
def test (w : Workload) (fuel : Nat) : Exec Bool := Exec.eval fun scope =>
  (Expr.compare .lt (.ident "k") (.int w.calls)).run w.context fuel scope >>=
    Value.truth (.condition .whileDo)

/-- The test holds as long as there are calls to make. -/
theorem Turned.test (ha : w.Turned n a) (hn : n ≤ w.expected) (fuel : Nat) :
    w.test fuel a = some (.ok (decide (n < w.expected)), a) := by
  obtain ⟨scope, m⟩ := a
  obtain ⟨rfl, -⟩ := ha
  have hle : n ≤ w.calls.toInt.toNat := hn
  have hmax := w.calls.toInt_lt
  have hvalue : (Int64.ofNat n).toInt = n := Int64.toInt_ofNat_of_lt (by omega)
  have hiff : (n : Int) < w.calls.toInt ↔ n < w.expected := Int.lt_toNat.symm
  have hk : (Expr.ident "k").run w.context fuel (loopScope (.ofNat n)) m =
      some (.ok (.int (.ofNat n)), m) := Expr.run_ident (lookup_k _)
  refine Expr.test_eq_ok.mpr ⟨m, ?_, rfl⟩
  rw [Expr.run_lt hk, hvalue, decide_eq_decide.mpr hiff]

/-- **The loop makes one call after the other, and each of them returns.** -/
theorem run_loop {m : Machine} (hfuel : w.expected < fuel + 1) (hm : w.Counted 0 0 m) :
    ∃ m', w.loop.run w.context (fuel + 1) ⟨loopScope 0, m⟩ =
        some (.ok .unit, ⟨loopScope (.ofNat w.expected), m'⟩) ∧ w.Counted w.expected 0 m' := by
  have hturn : ∀ n a, n < w.expected → w.Turned n a →
      ∃ b c, w.test (fuel + 1) a = some (.ok true, b) ∧
        Task.turn w.context (fuel + 1) turnBody b = some (.ok true, c) ∧ w.Turned (n + 1) c := by
    intro n a hn ha
    obtain ⟨c, hc, hturned⟩ := ha.turn fuel
    refine ⟨a, c, ?_, hc, hturned⟩
    rw [ha.test (Nat.le_of_lt hn), decide_eq_true hn]
  have hend : ∀ a, w.Turned w.expected a →
      ∃ b, w.test (fuel + 1) a = some (.ok false, b) ∧ w.Turned w.expected b := by
    intro a ha
    refine ⟨a, ?_, ha⟩
    rw [ha.test (Nat.le_refl _), decide_eq_false (Nat.lt_irrefl _)]
  have hstart : w.Turned 0 ⟨loopScope 0, m.enterLoop⟩ :=
    ⟨rfl, hm.calls, hm.returns, hm.fallThroughs, hm.callDepth, congrArg (· + 1) hm.activeLoops,
      hm.heap⟩
  obtain ⟨⟨scope, m'⟩, hrun, rfl, hm'⟩ : ∃ b, Loop.whileTrue w.context.limits (w.test (fuel + 1))
      (Task.turn w.context (fuel + 1) turnBody) (fuel + 1) 0 ⟨loopScope 0, m.enterLoop⟩ =
        some (.ok (), b) ∧ w.Turned w.expected b :=
    Loop.whileTrue_of_invariant rfl hturn hend w.expected (Nat.zero_add _) hfuel hstart
  refine ⟨m'.leaveLoop (.ok Value.unit : Except Exit Value), ?_,
    ⟨hm'.calls, hm'.returns, hm'.fallThroughs, hm'.callDepth, congrArg (· - 1) hm'.activeLoops,
      hm'.heap⟩⟩
  rw [Stmt.run, loop, Stmt.exec]
  refine Exec.inLoop_of_eq_some (b := ⟨loopScope (.ofNat w.expected), m'⟩) ?_
  exact bind_eq_ok.mpr ⟨(), _, hrun, rfl⟩

end Loop

/-! ## The whole run -/

section Run

variable (w : Workload)

theorem coe_expected : (w.expected : Int) = max w.calls.toInt 0 := Int.toNat_eq_max w.calls.toInt

/-- The last value of the counter. -/
theorem ofNat_expected : Int64.ofNat w.expected = max w.calls 0 := by
  have hlt := w.calls.toInt_lt
  have hexpected := w.coe_expected
  have hvalue : (Int64.ofNat w.expected).toInt = w.expected :=
    Int64.toInt_ofNat_of_lt (by omega)
  have hmax : max w.calls 0 = if w.calls ≤ 0 then 0 else w.calls := rfl
  apply Int64.toInt_inj.mp
  rw [hvalue, hexpected, hmax]
  split
  · next hle => exact Int.max_eq_right (Int64.le_iff_toInt_le.mp hle)
  · next hle => exact Int.max_eq_left (Int.le_of_not_le fun h => hle (Int64.le_iff_toInt_le.mpr h))

/-- The statements before the loop make the list and set the counter to zero. -/
theorem exec_program {fuel : Nat} (hfuel : w.expected < fuel + 1) :
    ∃ m, Program.exec w.context (fuel + 1) w.program.statements ⟨.root, {}⟩ =
        some (.ok (some .unit), ⟨loopScope (.ofNat w.expected), m⟩) ∧ w.Counted w.expected 0 m := by
  have hstart : w.Counted 0 0 (({} : Machine).alloc (.list #[.int 1, .int 2, .int 3])).2 :=
    ⟨rfl, fun kind => by cases kind <;> exact (ite_self 0).symm, rfl, rfl, rfl, rfl⟩
  obtain ⟨m, hloop, hm⟩ := run_loop hfuel hstart
  refine ⟨m, ?_, hm⟩
  have hstatements : w.program.statements = [
    .declare "payload" none (.list [.int 1, .int 2, .int 3]),
    .declare "k" none (.int 0),
    w.loop] := rfl
  rw [hstatements, Program.exec, map_eq_pure_bind]
  refine bind_eq_ok.mpr ⟨.unit, _, ?_, rfl⟩
  rw [Stmt.execAll]
  refine bind_eq_ok.mpr ⟨.unit, ⟨Scope.root.define "payload" { value := .ref ⟨0⟩ }, _⟩, rfl, ?_⟩
  rw [Stmt.execAll]
  refine bind_eq_ok.mpr ⟨.unit, ⟨loopScope 0, _⟩, rfl, ?_⟩
  rw [Stmt.execAll_singleton]
  exact hloop

theorem runIn_program (fuel : Nat) (hfuel : w.expected < fuel + 1) :
    ∃ m, Interpreter.runIn (fuel + 1) {} .root w.program =
        some ⟨.ok (some .unit), loopScope (max w.calls 0),
          { Interpreter.declare {} w.produce with machine := m }⟩ ∧
      w.Counted w.expected 0 m := by
  obtain ⟨m, hexec, hm⟩ := w.exec_program hfuel
  rw [ofNat_expected] at hexec
  exact ⟨m, Interpreter.execute_of_ok (i := Interpreter.declare {} w.produce) hexec, hm⟩

end Run

/-- **One return per call.**  With any number of calls, of which none are made if it is negative,
with any kind of return and any number of blocks around it, and with enough fuel, the program runs
to its end.  Exactly as many bodies have been entered as there are calls, and as many returns of the
kind have been caught; no other return has been, and no body has run to its end; no body and no
loop is in progress; the variables are the counter and the list, and the list is all there is in
the heap.  The workload reports the number of calls. -/
theorem one_return_per_call (w : Workload) (more : Nat) :
    (w.expected : Int) = max w.calls.toInt 0 ∧
    (∃ ran, Interpreter.runIn (w.fuel + more) {} .root w.program = some ran ∧
      ran.result = .ok (some .unit) ∧
      ran.scope.snapshot = [("k", .int (max w.calls 0)), ("payload", .ref ⟨0⟩)] ∧
      ran.scope.outer = [] ∧ w.Counted w.expected 0 ran.interpreter.machine) ∧
    w.run = some (.ok w.expected) := by
  refine ⟨w.coe_expected, ?program, ?report⟩
  case program =>
    have hfuel : w.fuel + more = w.expected + 1 + more + 1 := by rw [fuel]; omega
    obtain ⟨m, hrun, hm⟩ := w.runIn_program (w.expected + 1 + more) (by omega)
    rw [hfuel]
    exact ⟨_, hrun, rfl, snapshot_loopScope _, rfl, hm⟩
  case report =>
    obtain ⟨m, hrun, hm⟩ := w.runIn_program (w.expected + 1) (by omega)
    have hcaught : m.tally.returns w.kind = w.expected := by rw [hm.returns, if_pos rfl]
    rw [run, Interpreter.run, fuel, hrun, ← hcaught]
    rfl

end Throughput.Workload

end Imperative
