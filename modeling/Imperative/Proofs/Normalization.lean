import Imperative.Proofs.Normal

/-!
# Normal code does the same

Bringing code into normal form cannot be observed: whatever is run, with every function that it
may call in normal form as well, has the same outcome and leaves the same scope and the same
machine, and it is unfinished with the same fuel.  The machine is the whole machine, with the
handles in the heap, the tables of shared objects, the tally, the counters and the trace.

The reasons are local to a list.  A block executes its statements in the scope at hand and has
their value, so it may be replaced by them (`execAll_spliced`), provided that there are any: the
value of a block without statements is unit, and not the value of the statement before it.  And
what stands after a statement that never completes does not matter (`execAll_reached`).

What is left is that the change may be made everywhere at once.  Evaluation and execution take the
meaning of calls as a parameter, so the tree at hand is dealt with by recursion on it, given that
calling a function in normal form means what calling the function means (`Calls.Normalizes`), and
the calls themselves by induction on fuel (`Context.calls_norm`).
-/

namespace Imperative

/-! ## Lists of statements -/

namespace Stmt

variable (ctx : Context) (calls : Calls) (patience : Nat)

theorem execAll_append (last : Value) (xs ys : List Stmt) :
    execAll ctx calls patience last (xs ++ ys) = (do
      let v ← execAll ctx calls patience last xs
      execAll ctx calls patience v ys) := by
  induction xs generalizing last with
  | nil => rw [List.nil_append, execAll, pure_bind]
  | cons s xs ih =>
    rw [List.cons_append, execAll, execAll, bind_assoc]
    exact bind_congr fun v => ih v

/-- The value in front of a list matters only if the list is empty. -/
theorem execAll_of_ne_nil {body : List Stmt} (h : body ≠ []) (last last' : Value) :
    execAll ctx calls patience last body = execAll ctx calls patience last' body := by
  cases body with
  | nil => exact absurd rfl h
  | cons s rest => rw [execAll, execAll]

theorem execAll_singleton (last : Value) (s : Stmt) :
    execAll ctx calls patience last [s] = s.exec ctx calls patience := by
  rw [execAll]
  exact bind_pure _

/-- What comes after a statement that leaves its list is not reached. -/
theorem bind_of_leaves {α : Type} {s : Stmt} (h : s.leaves = true) (k k' : Value → Exec α) :
    s.exec ctx calls patience >>= k = s.exec ctx calls patience >>= k' := by
  cases s with
  | ret value =>
    cases value with
    | none => rw [exec]; rfl
    | some e =>
      rw [exec, bind_assoc, bind_assoc]
      rfl
  | breakLoop => rw [exec]; rfl
  | continueLoop => rw [exec]; rfl
  | raise e =>
    rw [exec, bind_assoc, bind_assoc]
    rfl
  | _ => cases h

theorem execAll_reached (last : Value) (body : List Stmt) :
    execAll ctx calls patience last (reached body) = execAll ctx calls patience last body := by
  induction body generalizing last with
  | nil => rfl
  | cons s rest ih =>
    rw [reached]
    split
    · next hleaves =>
      rw [execAll, execAll]
      exact bind_of_leaves ctx calls patience hleaves _ _
    · rw [execAll, execAll]
      exact bind_congr fun v => ih v

theorem execAll_spliced (last : Value) (s : Stmt) :
    execAll ctx calls patience last s.spliced = s.exec ctx calls patience := by
  unfold spliced
  split
  · next t rest =>
    rw [exec]
    exact execAll_of_ne_nil ctx calls patience (List.cons_ne_nil t rest) last .unit
  · exact execAll_singleton ctx calls patience last s

/-- Blocks around a body that is not empty make no difference, however many there are. -/
theorem execAll_nested (depth : Nat) (last : Value) {body : List Stmt} (h : body ≠ []) :
    execAll ctx calls patience last (nested depth body) =
      execAll ctx calls patience last body := by
  induction depth generalizing last with
  | zero => rfl
  | succ depth ih =>
    rw [nested, execAll_singleton, exec, ih]
    exact execAll_of_ne_nil ctx calls patience h .unit last

end Stmt

/-! ## Names -/

/-- A callee with its body in normal form. -/
def Callee.norm : Callee → Callee
  | .builtin b => .builtin b
  | .function f => .function f.norm

namespace Context

theorem valueOf_norm (ctx : Context) (scope : Scope) (name : String) :
    ctx.norm.valueOf scope name = ctx.valueOf scope name := by
  rw [valueOf, valueOf, contains_functions_norm]

theorem functionOf_norm (ctx : Context) (scope : Scope) (name : String) :
    ctx.norm.functionOf scope name = Function.norm <$> ctx.functionOf scope name := by
  rw [functionOf, functionOf, getElem?_functions_norm]
  cases ctx.functions[name]? with
  | some f => rfl
  | none =>
    simp only [Option.map_none]
    split
    · rw [map_bind]
      refine bind_congr fun o => ?_
      cases o with
      | function target =>
        simp only [getElem?_functions_norm]
        cases ctx.functions[target]? <;> rfl
      | _ => rfl
    · rfl

theorem calleeOf_norm (ctx : Context) (scope : Scope) (name : String) (operands : Nat) :
    ctx.norm.calleeOf scope name operands = Callee.norm <$> ctx.calleeOf scope name operands := by
  rw [calleeOf, calleeOf]
  cases Builtin.ofName? name with
  | some b =>
    simp only
    split <;> rfl
  | none =>
    simp only [functionOf_norm, map_bind, bind_map_left]
    rfl

end Context

/-! ## Expressions and statements -/

/-- Calling a function in normal form means what calling the function means. -/
def Calls.Normalizes (calls calls' : Calls) : Prop :=
  ∀ scope f args, calls' scope f.norm args = calls scope f args

section Trees

variable {ctx : Context} {calls calls' : Calls}

theorem Callee.apply_norm (h : calls.Normalizes calls') (scope : Scope) (args : List Value)
    (callee : Callee) : callee.norm.apply calls' scope args = callee.apply calls scope args := by
  cases callee with
  | builtin b => rfl
  | function f => rw [norm, apply, apply, h scope f args]

mutual

theorem Expr.eval_norm (h : calls.Normalizes calls') (scope : Scope) (e : Expr) :
    e.eval ctx.norm calls' scope = e.eval ctx calls scope := by
  cases e with
  | int n => rw [eval, eval]
  | float x => rw [eval, eval]
  | text s => rw [eval, eval]
  | bool b => rw [eval, eval]
  | ident name => rw [eval, eval, Context.valueOf_norm]
  | arith op a b => rw [eval, eval, eval_norm h scope a, eval_norm h scope b]
  | neg e => rw [eval, eval, eval_norm h scope e]
  | eq a b => rw [eval, eval, eval_norm h scope a, eval_norm h scope b]
  | ne a b => rw [eval, eval, eval_norm h scope a, eval_norm h scope b]
  | compare op a b => rw [eval, eval, eval_norm h scope a, eval_norm h scope b]
  | logic op a b => rw [eval, eval, eval_norm h scope a, eval_norm h scope b]
  | not e => rw [eval, eval, eval_norm h scope e]
  | call name args =>
    rw [eval, eval, evalAll_norm h scope args, Context.calleeOf_norm, bind_map_left]
    simp only [Callee.apply_norm h]
  | list elements => rw [eval, eval, evalAll_norm h scope elements]
  | index base position => rw [eval, eval, eval_norm h scope base, eval_norm h scope position]

theorem Expr.evalAll_norm (h : calls.Normalizes calls') (scope : Scope) (es : List Expr) :
    Expr.evalAll ctx.norm calls' scope es = Expr.evalAll ctx calls scope es := by
  cases es with
  | nil => rw [evalAll, evalAll]
  | cons e es => rw [evalAll, evalAll, eval_norm h scope e, evalAll_norm h scope es]

end

mutual

theorem Stmt.exec_norm (h : calls.Normalizes calls') (patience : Nat) (s : Stmt) :
    s.norm.exec ctx.norm calls' patience = s.exec ctx calls patience := by
  cases s with
  | declare name ty e => simp only [norm, exec, Expr.eval_norm h]
  | assign name e => simp only [norm, exec, Expr.eval_norm h]
  | ret value =>
    cases value with
    | none => simp only [norm, exec]
    | some e => simp only [norm, exec, Expr.eval_norm h]
  | cond test yes no =>
    simp only [norm, exec, Expr.eval_norm h, execAll_norm h patience]
  | whileDo test body =>
    simp only [norm, exec, Expr.eval_norm h, execAll_norm h patience]
    rfl
  | forRange name start stop body =>
    simp only [norm, exec, Expr.eval_norm h, execAll_norm h patience]
    rfl
  | breakLoop => simp only [norm, exec]
  | continueLoop => simp only [norm, exec]
  | block body => simp only [norm, exec, execAll_norm h patience]
  | guarded body name handler => simp only [norm, exec, execAll_norm h patience]
  | raise e => simp only [norm, exec, Expr.eval_norm h]
  | expr e => simp only [norm, exec, Expr.eval_norm h]

theorem Stmt.execAll_norm (h : calls.Normalizes calls') (patience : Nat) (last : Value)
    (body : List Stmt) :
    Stmt.execAll ctx.norm calls' patience last (Stmt.normAll body) =
      Stmt.execAll ctx calls patience last body := by
  cases body with
  | nil => rw [normAll, execAll, execAll]
  | cons s rest =>
    rw [normAll, execAll_reached, execAll_append, execAll_spliced, exec_norm h patience s, execAll]
    exact bind_congr fun v => execAll_norm h patience v rest

end

theorem Stmt.execAll_map_norm (h : calls.Normalizes calls') (patience : Nat) (last : Value)
    (body : List Stmt) :
    Stmt.execAll ctx.norm calls' patience last (body.map Stmt.norm) =
      Stmt.execAll ctx calls patience last body := by
  induction body generalizing last with
  | nil => rfl
  | cons s rest ih =>
    rw [List.map_cons, execAll, execAll, exec_norm h patience s]
    exact bind_congr fun v => ih v

end Trees

/-! ## Calls -/

section Calls

theorem Call.entry_norm (ctx : Context) (caller : Scope) (f : Function) (args : List Value)
    (m : Machine) : entry ctx.norm caller f.norm args m = entry ctx caller f args m := rfl

/-- A call depends on the body only in what it does. -/
theorem Call.dispatch_norm {ctx : Context} {run run' : List Stmt → Exec Value} {f : Function}
    (h : run' (Stmt.normAll f.body) = run f.body) (caller : Scope) (args : List Value) :
    dispatch ctx.norm run' caller f.norm args = dispatch ctx run caller f args := by
  funext m
  have hbody : run' f.norm.body = run f.body := h
  rw [dispatch_apply, dispatch_apply, entry_norm, hbody]
  rfl

/-- With any amount of fuel, calling a function in normal form means what calling the function
means. -/
theorem Context.calls_norm (ctx : Context) (fuel : Nat) :
    (ctx.calls fuel).Normalizes (ctx.norm.calls fuel) := by
  induction fuel with
  | zero => exact fun _ _ _ => rfl
  | succ fuel ih =>
    intro scope f args
    exact Call.dispatch_norm (Stmt.execAll_norm ih fuel .unit f.body) scope args

theorem Context.calls_nested (ctx : Context) (fuel depth : Nat) (caller : Scope) {f : Function}
    (h : f.body ≠ []) (args : List Value) :
    ctx.calls fuel caller { f with body := Stmt.nested depth f.body } args =
      ctx.calls fuel caller f args := by
  cases fuel with
  | zero => rfl
  | succ fuel =>
    funext m
    rw [calls, Call.dispatch_apply, Call.dispatch_apply,
      Stmt.execAll_nested ctx (ctx.calls fuel) fuel depth .unit h]
    rfl

end Calls

/-! ## What a host does -/

theorem Program.exec_norm (ctx : Context) (fuel : Nat) (body : List Stmt) :
    Program.exec ctx.norm fuel (body.map Stmt.norm) = Program.exec ctx fuel body := by
  cases body with
  | nil => rfl
  | cons s rest =>
    have hbody :
        Stmt.execAll ctx.norm (ctx.norm.calls fuel) fuel .unit ((s :: rest).map Stmt.norm) =
          Stmt.execAll ctx (ctx.calls fuel) fuel .unit (s :: rest) :=
      Stmt.execAll_map_norm (ctx.calls_norm fuel) fuel .unit (s :: rest)
    rw [List.map_cons] at hbody ⊢
    rw [exec, exec, hbody]

/-- What a run leaves, with the functions that are declared afterwards in normal form. -/
def Interpreter.Ran.norm (ran : Interpreter.Ran) : Interpreter.Ran :=
  { ran with interpreter := ran.interpreter.norm }

namespace Interpreter

theorem execute_norm (fuel : Nat) (i : Interpreter) (scope : Scope) (body : List Stmt) :
    i.norm.execute fuel scope (body.map Stmt.norm) = (i.execute fuel scope body).map Ran.norm := by
  obtain ⟨limits, functions, machine⟩ := i
  have hrun := congrFun (Program.exec_norm ⟨limits, functions⟩ fuel body) ⟨scope, machine⟩
  simp only [Context.norm] at hrun
  simp only [execute, norm, hrun]
  cases Program.exec ⟨limits, functions⟩ fuel body ⟨scope, machine⟩ with
  | none => rfl
  | some p =>
    obtain ⟨r, b⟩ := p
    cases r <;> rfl

theorem runIn_norm (fuel : Nat) (i : Interpreter) (scope : Scope) (p : Program) :
    i.norm.runIn fuel scope p.norm = (i.runIn fuel scope p).map Ran.norm := by
  rw [runIn, runIn, Program.functions_norm, Program.statements_norm, ← norm_declareAll,
    execute_norm]

theorem run_norm (fuel : Nat) (i : Interpreter) (p : Program) :
    i.norm.run fuel p.norm = (i.run fuel p).map fun (r, i) => (r, i.norm) := by
  rw [run, run, runIn_norm, Option.map_map, Option.map_map]
  rfl

theorem complete_norm (fuel : Nat) (i : Interpreter) (name : String) (args : List Value) :
    i.norm.complete fuel name args = (i.complete fuel name args).map fun (r, i) => (r, i.norm) := by
  obtain ⟨limits, functions, machine⟩ := i
  have hcall : (do
      let f ← (Context.norm ⟨limits, functions⟩).functionOf .root name
      (Context.norm ⟨limits, functions⟩).calls fuel .root f args) = (do
      let f ← Context.functionOf ⟨limits, functions⟩ .root name
      Context.calls ⟨limits, functions⟩ fuel .root f args) := by
    rw [Context.functionOf_norm, bind_map_left]
    exact bind_congr fun f => Context.calls_norm ⟨limits, functions⟩ fuel .root f args
  have hrun := congrFun hcall machine
  simp only [complete, evaluate, norm]
  simp only [Context.norm] at hrun
  rw [hrun]
  cases (Context.functionOf ⟨limits, functions⟩ .root name >>= fun f =>
    Context.calls ⟨limits, functions⟩ fuel .root f args) machine <;> rfl

theorem call_norm (fuel : Nat) (i : Interpreter) (name : String) (args : List Value) :
    i.norm.call fuel name args = (i.call fuel name args).map fun (r, i) => (r, i.norm) := by
  rw [call, call, complete_norm, Option.map_map, Option.map_map]
  rfl

end Interpreter

/-- A command with the code in it in normal form. -/
def Command.norm : Command → Command
  | .declare f => .declare f.norm
  | .run p scope => .run p.norm scope
  | .runAlone p => .runAlone p.norm
  | command => command

/-- The same session, with all functions in normal form. -/
def Session.norm (s : Session) : Session := { s with interpreter := s.interpreter.norm }

@[simp] theorem Session.scope_norm (s : Session) (name : String) :
    s.norm.scope name = s.scope name := rfl

@[simp] theorem Session.heap_norm (s : Session) : s.norm.heap = s.heap := rfl

theorem Session.perform_norm (fuel : Nat) (s : Session) (command : Command) :
    s.norm.perform fuel command.norm =
      (s.perform fuel command).map fun (reply, s) => (reply, s.norm) := by
  cases command with
  | declare f => simp only [Command.norm, perform, norm, Interpreter.norm_declare, Option.map_some]
  | run p name =>
    simp only [Command.norm, perform, scope_norm]
    simp only [norm, Interpreter.runIn_norm, Option.map_map]
    rfl
  | runAlone p =>
    simp only [Command.norm, perform, norm, Interpreter.run_norm, Option.map_map]
    rfl
  | call name args =>
    simp only [Command.norm, perform, norm, Interpreter.call_norm, Option.map_map]
    rfl
  | complete name args =>
    simp only [Command.norm, perform, norm, Interpreter.complete_norm, Option.map_map]
    rfl
  | replace h o =>
    simp only [Command.norm, perform, heap_norm]
    cases s.heap.fetch h <;> rfl
  | compare a b =>
    simp only [Command.norm, perform, Option.map_map]
    rfl
  | _ => rfl

/-! ## Normalisation -/

/-- **Normal form cannot be observed.**  A run of a program in normal form, by an interpreter with
all its functions in normal form, is the run of the program: it is unfinished with the same fuel,
and otherwise has the same result and leaves the same scope and the same machine.  So does every
call by a host, every command of a session, and every body in any scope and from any machine.

Hence programs that have a normal form in common run alike, and blocks around a body that is not
empty make no difference, however many there are: the body is executed as before, and the normal
form of whatever it stands in is the same. -/
theorem normalization_unobservable (fuel : Nat) :
    (∀ (i : Interpreter) (scope : Scope) (p : Program),
      i.norm.runIn fuel scope p.norm = (i.runIn fuel scope p).map Interpreter.Ran.norm) ∧
    (∀ (i : Interpreter) (name : String) (args : List Value),
      i.norm.complete fuel name args =
        (i.complete fuel name args).map fun (r, i) => (r, i.norm)) ∧
    (∀ (s : Session) (command : Command),
      s.norm.perform fuel command.norm =
        (s.perform fuel command).map fun (reply, s) => (reply, s.norm)) ∧
    (∀ (ctx : Context) (last : Value) (body : List Stmt),
      Stmt.execAll ctx.norm (ctx.norm.calls fuel) fuel last (Stmt.normAll body) =
        Stmt.execAll ctx (ctx.calls fuel) fuel last body) ∧
    (∀ (i j : Interpreter) (scope : Scope) (p q : Program), i.norm = j.norm → p.norm = q.norm →
      (i.runIn fuel scope p).map Interpreter.Ran.norm =
        (j.runIn fuel scope q).map Interpreter.Ran.norm) ∧
    (∀ (depth : Nat) (body : List Stmt), body ≠ [] →
      Stmt.normAll (Stmt.nested depth body) = Stmt.normAll body ∧
        (∀ (ctx : Context) (last : Value),
          Stmt.execAll ctx (ctx.calls fuel) fuel last (Stmt.nested depth body) =
            Stmt.execAll ctx (ctx.calls fuel) fuel last body) ∧
        ∀ (ctx : Context) (caller : Scope) (f : Function) (args : List Value), f.body = body →
          ctx.calls fuel caller { f with body := Stmt.nested depth body } args =
            ctx.calls fuel caller f args) := by
  refine ⟨?program, ?host, ?session, ?body, ?alike, ?nested⟩
  case program =>
    intro i scope p
    exact i.runIn_norm fuel scope p
  case host =>
    intro i name args
    exact i.complete_norm fuel name args
  case session =>
    intro s command
    exact s.perform_norm fuel command
  case body =>
    intro ctx last body
    exact Stmt.execAll_norm (ctx.calls_norm fuel) fuel last body
  case alike =>
    intro i j scope p q hij hpq
    rw [← i.runIn_norm fuel scope p, ← j.runIn_norm fuel scope q, hij, hpq]
  case nested =>
    intro depth body hbody
    refine ⟨Stmt.normAll_nested depth hbody, fun ctx last => ?_, ?_⟩
    · exact Stmt.execAll_nested ctx (ctx.calls fuel) fuel depth last hbody
    · rintro ctx caller f args rfl
      exact ctx.calls_nested fuel depth caller hbody args

/-- A function that returns, with something after the return that would fail. -/
def returnsSeven : Function where
  name := "f"
  params := []
  body := [.ret (some (.int 7)), .raise (.bool true)]

/-- The same function with its body inside three blocks, and something after the blocks that would
never end. -/
def returnsFromBlocks : Function :=
  { returnsSeven with
    body := Stmt.nested 3 returnsSeven.body ++ [.whileDo (.bool true) [.block []]] }

/-- A program that declares a function and calls it inside of blocks. -/
def callsInBlocks (f : Function) (depth : Nat) : Program where
  items := [.function f, .statement (.block (Stmt.nested depth [.expr (.call "f" [])]))]

/-- The normal form of both functions is the return, so the two programs run alike, and with the
blocks around the body a call is what it is without them. -/
theorem normalization_unobservable_returnsFromBlocks :
    returnsFromBlocks.norm.body = [.ret (some (.int 7))] ∧
    (∃ ran ran',
      Interpreter.runIn 2 {} .root (callsInBlocks returnsFromBlocks 4) = some ran ∧
      Interpreter.runIn 2 {} .root (callsInBlocks returnsSeven 0) = some ran' ∧
      ran.norm = ran'.norm ∧
      ran.interpreter.machine.trace.toList = [.returnCaught "f" .integer]) ∧
    Context.calls {} 2 .root { returnsSeven with body := Stmt.nested 3 returnsSeven.body } [] =
      Context.calls {} 2 .root returnsSeven [] := by
  have hbody : returnsSeven.body ≠ [] := List.cons_ne_nil _ _
  have htrace : (Interpreter.runIn 2 {} .root (callsInBlocks returnsFromBlocks 4)).map
      (·.interpreter.machine.trace.toList) = some [.returnCaught "f" .integer] := by
    decide +kernel
  obtain ⟨-, -, -, -, alike, nested⟩ := normalization_unobservable 2
  refine ⟨rfl, ?_, (nested 3 returnsSeven.body hbody).2.2 {} .root returnsSeven [] rfl⟩
  obtain ⟨ran, hrun, hevents⟩ := Option.map_eq_some_iff.mp htrace
  have hsame := alike {} {} .root (callsInBlocks returnsFromBlocks 4)
    (callsInBlocks returnsSeven 0) rfl rfl
  rw [hrun, Option.map_some] at hsame
  obtain ⟨ran', hrun', hnorm⟩ := Option.map_eq_some_iff.mp hsame.symm
  exact ⟨ran, ran', hrun, hrun', hnorm.symm, hevents⟩

end Imperative
