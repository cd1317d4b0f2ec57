import Imperative.Proofs.Listings
import Imperative.Proofs.Normalization

/-!
# Programs, a statement at a time

A program declares its functions first and then executes its statements.  A host that gets the
pieces one after the other, the functions before the statements, and runs each statement as a
program of its own, ends up in the same place (`Interpreter.execute_eq_runEach`).  What this takes
is that nothing is left over between two statements except what a host can hand on: the interpreter
and the scope.  So it says of a failure in the middle that what was done before it stays done.

Runs are put one after the other by `Interpreter.Ran.andThen`, which goes on from where a run has
ended if it has not failed.  Executing one list of statements behind another is executing the first
and then the second (`Interpreter.execute_append`), and everything here follows from that and from
what a list of declarations comes to: each name stands for the last function declared by that name
(`Interpreter.functions_declareAll_eq`), so that the order matters among functions of one name only.
-/

namespace Imperative

open Imperative.Action

/-- The program of one statement. -/
def Program.ofStatement (s : Stmt) : Program where
  items := [.statement s]

namespace Interpreter

/-- Goes on from where a run has ended, unless it has failed.  The value is that of what follows, or
that of the run if what follows has none. -/
def Ran.andThen (ran : Ran) (next : Interpreter → Scope → Option Ran) : Option Ran :=
  match ran.result with
  | .error _ => some ran
  | .ok last => (next ran.interpreter ran.scope).map fun r =>
    { r with result := r.result.map (·.or last) }

/-- Runs statements in order, each as a program of its own, up to the first that fails. -/
def runEach (fuel : Nat) : List Stmt → Interpreter → Scope → Option Ran
  | [], i, scope => some ⟨.ok none, scope, i⟩
  | s :: rest, i, scope =>
    (i.runIn fuel scope (.ofStatement s)).bind fun ran => ran.andThen (runEach fuel rest)

end Interpreter

/-! ## One list of statements behind another -/

/-- The value of the second list counts, if it has one. -/
theorem Program.exec_append (ctx : Context) (fuel : Nat) (xs ys : List Stmt) :
    Program.exec ctx fuel (xs ++ ys) = (do
      let v ← Program.exec ctx fuel xs
      let w ← Program.exec ctx fuel ys
      return w.or v) := by
  cases xs with
  | nil =>
    rw [List.nil_append]
    simp only [Program.exec, pure_bind, Option.or_none, bind_pure]
  | cons s xs =>
    cases ys with
    | nil => simp only [List.append_nil, Program.exec, map_eq_pure_bind, bind_assoc, pure_bind,
        Option.none_or]
    | cons t ys =>
      simp only [List.cons_append, Program.exec, map_eq_pure_bind, bind_assoc, pure_bind,
        Option.some_or]
      rw [← List.cons_append, Stmt.execAll_append, bind_assoc]
      refine bind_congr fun v => ?_
      rw [Stmt.execAll_of_ne_nil _ _ _ (List.cons_ne_nil t ys) v .unit]

namespace Interpreter

theorem execute_append (fuel : Nat) (i : Interpreter) (scope : Scope) (xs ys : List Stmt) :
    i.execute fuel scope (xs ++ ys) =
      (i.execute fuel scope xs).bind fun ran =>
        ran.andThen fun i scope => i.execute fuel scope ys := by
  obtain ⟨limits, functions, machine⟩ := i
  simp only [execute, Program.exec_append, bind_apply]
  cases Program.exec ⟨limits, functions⟩ fuel xs ⟨scope, machine⟩ with
  | none => rfl
  | some p =>
    obtain ⟨r, b⟩ := p
    cases r with
    | error e => rfl
    | ok v =>
      simp only [Option.bind_some, Ran.andThen]
      cases Program.exec ⟨limits, functions⟩ fuel ys b with
      | none => rfl
      | some q =>
        obtain ⟨r, c⟩ := q
        cases r <;> rfl

/-- A program of one statement declares nothing. -/
theorem runIn_ofStatement (fuel : Nat) (i : Interpreter) (scope : Scope) (s : Stmt) :
    i.runIn fuel scope (.ofStatement s) = i.execute fuel scope [s] := rfl

/-- **Statements are executed one at a time.** -/
theorem execute_eq_runEach (fuel : Nat) (body : List Stmt) (i : Interpreter) (scope : Scope) :
    i.execute fuel scope body = runEach fuel body i scope := by
  -- The induction is on the statements: the first one is executed, and the others behind it.
  induction body generalizing i scope with
  | nil => rfl
  | cons s rest ih =>
    rw [← List.singleton_append, execute_append, List.singleton_append, runEach, runIn_ofStatement]
    refine congrArg _ (funext fun ran => ?_)
    exact congrArg ran.andThen (funext fun i => funext fun scope => ih i scope)

/-! ## What declarations come to -/

/-- A name stands for the last of the functions declared by that name, or else for what it stood for
before. -/
theorem functions_declareAll_eq (i : Interpreter) (fs : List Function) (name : String) :
    (i.declareAll fs).functions[name]? =
      (fs.filter (·.name = name)).getLast?.or i.functions[name]? := by
  induction fs generalizing i with
  | nil => rfl
  | cons f fs ih =>
    have hstep : (i.declareAll (f :: fs)).functions[name]? =
        (fs.filter (·.name = name)).getLast?.or (i.declare f).functions[name]? := ih (i.declare f)
    have hinsert : (i.declare f).functions[name]? =
        if f.name = name then some f else i.functions[name]? := by
      simp [declare, Std.ExtTreeMap.getElem?_insert]
    rw [hstep, hinsert]
    by_cases hname : f.name = name
    · simp only [List.filter_cons, hname, decide_true, if_true, List.getLast?_cons]
      cases (fs.filter (·.name = name)).getLast? <;> rfl
    · simp only [List.filter_cons, hname, decide_false, if_false, Bool.false_eq_true]

/-- Only the order among functions of one name matters. -/
theorem declareAll_congr {fs gs : List Function}
    (h : ∀ name, gs.filter (·.name = name) = fs.filter (·.name = name)) (i : Interpreter) :
    i.declareAll gs = i.declareAll fs := by
  have hfunctions : (i.declareAll gs).functions = (i.declareAll fs).functions := by
    refine Std.ExtTreeMap.ext_getElem? fun name => ?_
    rw [functions_declareAll_eq, functions_declareAll_eq, h name]
  have heta : ∀ j : Interpreter, j = ⟨j.limits, j.functions, j.machine⟩ := fun j => rfl
  rw [heta (i.declareAll gs), heta (i.declareAll fs), hfunctions, limits_declareAll,
    limits_declareAll, machine_declareAll, machine_declareAll]

/-- An execution declares nothing, however it ends. -/
theorem functions_of_execute {fuel : Nat} {i : Interpreter} {scope : Scope} {body : List Stmt}
    {ran : Ran} (h : i.execute fuel scope body = some ran) :
    ran.interpreter.functions = i.functions := by
  rcases execute_eq_some h with ⟨v, b, -, rfl⟩ | ⟨e, b, -, rfl⟩ <;> rfl

/-! ## Whole programs -/

/-- A program without functions goes on from where another one has ended. -/
theorem runIn_append (fuel : Nat) (i : Interpreter) (scope : Scope) (p : Program) {q : Program}
    (hq : q.functions = []) :
    i.runIn fuel scope ⟨p.items ++ q.items⟩ =
      (i.runIn fuel scope p).bind fun ran => ran.andThen fun i scope => i.runIn fuel scope q := by
  have hnothing : ∀ j : Interpreter, j.declareAll q.functions = j := by
    intro j
    rw [hq]
    rfl
  simp only [runIn, Program.functions_append, Program.statements_append, hnothing]
  rw [hq, List.append_nil, execute_append]

/-- **A program is its functions and then its statements, one at a time.**  Running a program in a
scope does what a host does that declares the functions of the program in order and then runs its
statements in order, each as a program of its own, until one fails: it ends with the value of the
last statement, which is none if there are no statements, or with the same fault, in the same scope
and the same state of the interpreter, of which the trace is a part; and if it does not end,
neither do they.

So two programs with the same statements, and for each name the same functions of that name in the
same order, run alike, however their items are mixed.  A program followed by one without functions
is run by running the second behind the first, unless that fails; the value is that of the first if
the second has no statements.  And whatever becomes of the statements, a name that the program
declares stands for the last function that it declares by it, and any other name for what it stood
for before. -/
theorem runs_piece_by_piece (fuel : Nat) (i : Interpreter) (scope : Scope) (p : Program) :
    i.runIn fuel scope p = runEach fuel p.statements (i.declareAll p.functions) scope ∧
    (∀ q : Program, q.statements = p.statements →
      (∀ name, q.functions.filter (·.name = name) = p.functions.filter (·.name = name)) →
        i.runIn fuel scope q = i.runIn fuel scope p) ∧
    (∀ q : Program, q.functions = [] →
      i.runIn fuel scope ⟨p.items ++ q.items⟩ =
        (i.runIn fuel scope p).bind fun ran =>
          ran.andThen fun i scope => i.runIn fuel scope q) ∧
    ∀ ran, i.runIn fuel scope p = some ran → ∀ name,
      ran.interpreter.functions[name]? =
        (p.functions.filter (·.name = name)).getLast?.or i.functions[name]? := by
  refine ⟨execute_eq_runEach fuel p.statements _ scope, ?reordered, ?appended, ?declared⟩
  case reordered =>
    intro q hstatements hfunctions
    rw [runIn, runIn, hstatements, declareAll_congr hfunctions]
  case appended =>
    intro q hq
    exact runIn_append fuel i scope p hq
  case declared =>
    intro ran hran name
    rw [functions_of_execute hran, functions_declareAll_eq]

/-- A function that comes to a truth value, and one that calls it. -/
def answering (b : Bool) : Function where
  name := "f"
  params := []
  body := [.expr (.bool b)]

def asking : Function where
  name := "g"
  params := []
  body := [.expr (.call "f" [])]

/-- Asks before anything is declared, and fails before its last statement. -/
def asksFirst : Program where
  items := [
    .statement (.declare "x" none (.call "g" [])),
    .function (answering false),
    .function asking,
    .function (answering true),
    .statement (.raise (.ident "x")),
    .statement (.assign "x" (.int 0))]

/-- The same, after the declarations, of which two have changed places. -/
def asksLater : Program where
  items := [.function asking, .function (answering false), .function (answering true)] ++
    asksFirst.statements.map .statement

/-- The functions keep their places among those of their name, and the statements theirs.  The
answer is that of the function declared last; it is the text of the failure, after which it can
still be looked up, the assignment and what is put behind the program are not reached, and the
functions can still be called. -/
theorem runs_piece_by_piece_failsMidway :
    (∀ name, asksLater.functions.filter (·.name = name) =
      asksFirst.functions.filter (·.name = name)) ∧
    ∃ ran, runIn 3 {} .root asksFirst = some ran ∧ runIn 3 {} .root asksLater = some ran ∧
      runEach 3 asksFirst.statements (declareAll {} asksFirst.functions) .root = some ran ∧
      runIn 3 {} .root ⟨asksFirst.items ++ (Program.ofStatement .breakLoop).items⟩ = some ran ∧
      ran.result = .error (.thrown "true") ∧ ran.scope.snapshot = [("x", .bool true)] ∧
      ran.interpreter.functions["f"]? = some (answering true) := by
  have hfunctions : ∀ name, asksLater.functions.filter (·.name = name) =
      asksFirst.functions.filter (·.name = name) := by
    intro name
    by_cases hf : "f" = name
    · subst hf
      rfl
    · by_cases hg : "g" = name
      · subst hg
        rfl
      · simp [asksLater, asksFirst, Program.functions, answering, asking, hf, hg]
  obtain ⟨hpieces, hreordered, happended, hdeclared⟩ := runs_piece_by_piece 3 {} .root asksFirst
  obtain ⟨ran, hran, hresult, hscope⟩ : ∃ ran, runIn 3 {} .root asksFirst = some ran ∧
      ran.result = .error (.thrown "true") ∧ ran.scope.snapshot = [("x", .bool true)] :=
    ⟨_, rfl, rfl, Scope.snapshot_eq_toList _⟩
  refine ⟨hfunctions, ran, hran, ?_, ?_, ?_, hresult, hscope, ?_⟩
  · rw [hreordered asksLater rfl hfunctions, hran]
  · rw [← hpieces, hran]
  · rw [happended (.ofStatement .breakLoop) rfl, hran, Option.bind_some, Ran.andThen, hresult]
  · exact hdeclared ran hran "f"

end Interpreter

end Imperative
