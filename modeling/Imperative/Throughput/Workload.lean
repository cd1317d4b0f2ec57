import Imperative.Interpreter

/-!
# The workload

A program that does little else than return: a loop that calls one function over and
over, whose body is a return inside a number of nested blocks.  The operand of the return
decides its kind, so that one workload exercises one kind.

Running a workload counts the returns of its kind that were caught.  The loop ends after
as many turns as there are calls, and its body calls nothing that calls, so the fuel that
a run needs is known beforehand (`Workload.fuel`).
-/

namespace Imperative
namespace Throughput

/-- What to run: returns of one kind, how many of them, and in how many blocks. -/
structure Workload where
  kind : Kind
  calls : Int64
  depth : Nat
deriving DecidableEq, Repr, Inhabited

namespace Workload

/-- A return of a kind, in the scope of the loop and of the parameter `i`. -/
def returning : Kind → Stmt
  | .reference => .ret (some (.ident "payload"))
  | .integer => .ret (some (.ident "i"))
  | .float => .ret (some (.float 0.5))
  | .boolean => .ret (some (.compare .lt (.ident "i") (.int 0)))
  | .unit => .ret none

/-- The function that is called. -/
def produce (w : Workload) : Function where
  name := "produce"
  params := [{ name := "i" }]
  body := Stmt.nested w.depth [returning w.kind]

/-- The loop that calls it. -/
def loop (w : Workload) : Stmt :=
  .whileDo (.compare .lt (.ident "k") (.int w.calls)) [
    .expr (.call "produce" [.ident "k"]),
    .assign "k" (.arith .add (.ident "k") (.int 1))]

/-- The program. -/
def program (w : Workload) : Program where
  items := [
    .function w.produce,
    .statement (.declare "payload" none (.list [.int 1, .int 2, .int 3])),
    .statement (.declare "k" none (.int 0)),
    .statement w.loop]

/-- How many returns a run is to catch: none if the number of calls is negative. -/
def expected (w : Workload) : Nat := w.calls.toInt.toNat

/-- Enough fuel for a run: one test for each turn, and the test that ends the loop. -/
def fuel (w : Workload) : Nat := w.expected + 2

/-- Runs the program on a new interpreter, and counts the returns of its kind. -/
def run (w : Workload) : Option (Except Fault Nat) :=
  (Interpreter.run w.fuel {} w.program).map fun (r, i) =>
    r.map fun _ => i.machine.tally.returns w.kind

end Workload

end Throughput
end Imperative
