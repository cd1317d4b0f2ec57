import Imperative.Proofs.Discipline.Execution
import Imperative.Proofs.Jumps
import Imperative.Proofs.Sessions

/-!
# Jumps are contained

A jump that meets no catcher is a fault, and no handler may see it.  There are two places
where that can happen: at the end of a body, for a break or a continue, and at the top level,
for any jump.  Both can be told from the text.  A function is *contained* if every break and
continue of its body lies inside a loop of the body; a program is contained if its functions
are, and if its statements emit no jump at all.

Where everything is contained, no run and no call by a host ends in one of the three faults
(`jumps_contained`).  That is a law about code which calls other code, so it is a discipline,
`containment`: it lets no action fail with a stray jump, and it lets contained functions be
called and no others.  Its one law with content is the one for a body that is abandoned, and
it is the law of `Imperative.Proofs.Jumps`, applied to the body.
-/

namespace Imperative

/-- The fault of a jump that met no catcher. -/
def Jump.fault : Jump → Fault
  | .returns => .returnOutsideFunction
  | .breaks => .breakOutsideLoop
  | .continues => .continueOutsideLoop

theorem Jump.isInternal_fault (j : Jump) : j.fault.isInternal = true := by
  cases j <;> rfl

/-- Every break and every continue of a function lies inside a loop of its body. -/
def Function.Contained (f : Function) : Prop :=
  ∀ j, j ≠ .returns → Stmt.anyEmits j f.body = false

/-- The functions of a program are contained, and its statements emit no jump. -/
structure Program.Contained (p : Program) : Prop where
  functions : ∀ f ∈ p.functions, f.Contained
  statements : ∀ j, Stmt.anyEmits j p.statements = false

/-- Every declared function is contained. -/
def Context.Contained (ctx : Context) : Prop :=
  ∀ (name : String) (f : Function), ctx.functions[name]? = some f → f.Contained

/-! ## The discipline -/

/-- The discipline of not failing with a stray jump. -/
def containment : Discipline where
  Sound _ := True
  Keeps _ _ := True
  Holds _ _ := True
  Step _ o _ := ∀ j : Jump, o ≠ some (.failed j.fault)
  Allows _ := True
  Callable f := f.Contained

theorem containment_step (m m' : Machine) : containment.Step m none m' := by
  intro j hj
  cases hj

theorem Exit.jump?_ne_returns {e : Exit} {j : Jump} (he : ∀ s, e ≠ .returned s)
    (hj : e.jump? = some j) : j ≠ .returns := by
  rintro rfl
  cases e with
  | returned s => exact he s rfl
  | broke => cases hj
  | continued => cases hj
  | failed f => cases hj

/-- A body that is contained is abandoned for its failures only. -/
theorem failed_of_contained {ctx : Context} {calls : Calls} {patience : Nat} {f : Function}
    (hf : f.Contained) {a b : Activation} {e : Exit}
    (h : Stmt.execAll ctx calls patience .unit f.body a = some (.error e, b))
    (he : ∀ s, e ≠ .returned s) : ∃ g, e = .failed g := by
  cases hj : e.jump? with
  | none => exact Exit.failed_of_jump? hj
  | some j =>
    have hemits : Stmt.anyEmits j f.body = true :=
      emits_execAll ctx calls patience f.body .unit a e b h j hj
    rw [hf j (Exit.jump?_ne_returns he hj)] at hemits
    cases hemits

theorem containment_lawful {ctx : Context} (hctx : ctx.Contained) : containment.Lawful ctx where
  refl m := containment_step m m
  trans _ h₂ := h₂
  keeps_mono _ _ := trivial
  holds_mono _ _ := trivial
  holds_plain _ := trivial
  holds_lookup _ _ := trivial
  holds_item _ _ _ := trivial
  keeps_root _ := trivial
  keeps_child _ := trivial
  keeps_define _ _ _ := trivial
  internText _ _ := ⟨⟨trivial, containment_step _ _⟩, trivial⟩
  internFunction _ _ := ⟨⟨trivial, containment_step _ _⟩, trivial⟩
  alloc _ _ _ _ _ := ⟨⟨trivial, containment_step _ _⟩, trivial⟩
  append _ _ _ _ _ := ⟨trivial, containment_step _ _⟩
  raise _ he := by
    intro j hj
    have hinternal := he j.fault (Option.some.inj hj)
    rw [j.isInternal_fault] at hinternal
    cases hinternal
  dangling _ _ _ := by
    intro j hj
    cases j <;> cases hj
  caught _ _ _ := ⟨trivial, containment_step _ _⟩
  turn _ _ := containment_step _ _
  enterLoop _ := trivial
  leaveLoop _ h := ⟨trivial, h.2⟩
  enterCall _ _ := trivial
  complete _ _ _ _ := ⟨trivial, containment_step _ _⟩
  abandon hf _ _ he hrun h := by
    obtain ⟨calls, patience, a, b, hrun⟩ := hrun
    obtain ⟨g, rfl⟩ := failed_of_contained hf hrun he
    exact ⟨trivial, h.2⟩
  callable h := hctx _ _ h
  allows_body _ _ := trivial

/-! ## Returns from functions -/

/-- A function without a return statement is completed by running to its end. -/
theorem fellThrough_of_call {ctx : Context} {fuel : Nat} {caller : Scope} {f : Function}
    {args : List Value} {m m' : Machine} {c : Completion}
    (hf : Stmt.anyEmits .returns f.body = false)
    (h : ctx.calls fuel caller f args m = some (.ok c, m')) : ∃ v, c = .fellThrough v := by
  cases fuel with
  | zero => cases h
  | succ fuel =>
    obtain ⟨scope, outcome, b, -, hrun, hc, -, -⟩ := Call.dispatch_eq_ok h
    unfold catchReturn at hc
    split at hc <;> cases hc
    · next v => exact ⟨v, rfl⟩
    · next s =>
      have hemits : Stmt.anyEmits .returns f.body = true :=
        emits_execAll ctx _ fuel f.body .unit _ _ _ hrun .returns rfl
      rw [hf] at hemits
      cases hemits

/-! ## What a host does -/

theorem emits_program (ctx : Context) (fuel : Nat) (body : List Stmt) :
    Exec.Emits (fun j => Stmt.anyEmits j body = true) (Program.exec ctx fuel body) := by
  cases body with
  | nil =>
    rw [Program.exec]
    exact Exec.emits_pure none
  | cons s rest =>
    rw [Program.exec, map_eq_pure_bind]
    exact (emits_execAll ctx _ fuel (s :: rest) .unit).bind fun v => Exec.emits_pure (some v)

theorem contained_declareAll {i : Interpreter} {fs : List Function} (hi : i.context.Contained)
    (hfs : ∀ f ∈ fs, f.Contained) : (i.declareAll fs).context.Contained := by
  intro name f h
  rcases Interpreter.functions_declareAll h with hmem | hdeclared
  · exact hfs f hmem
  · exact hi name f hdeclared

theorem contained_of_runIn {i : Interpreter} {p : Program} {scope : Scope} {fuel : Nat}
    {ran : Interpreter.Ran} (hi : i.context.Contained) (hp : p.Contained)
    (h : i.runIn fuel scope p = some ran) :
    ran.interpreter.context.Contained ∧ ∀ j : Jump, ran.result ≠ .error j.fault := by
  have hctx := contained_declareAll hi hp.functions
  rw [Interpreter.runIn] at h
  obtain ⟨v, b, -, rfl⟩ | ⟨e, b, hrun, rfl⟩ := Interpreter.execute_eq_some h
  · exact ⟨hctx, fun j hj => by cases hj⟩
  · refine ⟨hctx, fun j hj => ?_⟩
    cases hjump : e.jump? with
    | some k =>
      have hemits : Stmt.anyEmits k p.statements = true := emits_program _ _ _ _ _ _ hrun k hjump
      rw [hp.statements k] at hemits
      cases hemits
    | none =>
      obtain ⟨f, rfl⟩ := Exit.failed_of_jump? hjump
      have hready : containment.Ready ⟨scope, (i.declareAll p.functions).machine⟩ :=
        ⟨trivial, trivial⟩
      have hstep :=
        (((containment_lawful hctx).runs_program fuel (fun _ _ => trivial) hready).ends hrun).2
      have hf : f = j.fault := Except.error.inj hj
      exact hstep j (by rw [Exit.of?, hf])

theorem contained_of_complete {i i' : Interpreter} {name : String} {args : List Value}
    {fuel : Nat} {r : Except Fault Completion} (hi : i.context.Contained)
    (h : i.complete fuel name args = some (r, i')) :
    i'.context.Contained ∧ ∀ j : Jump, r ≠ .error j.fault := by
  have hl := (containment_lawful hi).complete_ends trivial (fun _ _ => trivial) h
  obtain ⟨m, -, rfl⟩ := Interpreter.evaluate_eq_some h
  refine ⟨hi, fun j hj => ?_⟩
  rw [hj] at hl
  exact hl.2 j rfl

/-- The functions and programs of a command are contained. -/
def Command.Contained : Command → Prop
  | .declare f => f.Contained
  | .run p _ => p.Contained
  | .runAlone p => p.Contained
  | _ => True

theorem fetch_ne_jump (h : Heap) (r : Handle) (j : Jump) : h.fetch r ≠ .error j.fault := by
  intro hf
  obtain ⟨-, hj⟩ := Heap.fetch_eq_error_iff.mp hf
  cases j <;> cases hj

theorem check_ne_jump (h : Heap) (v : Value) (t : Ty) (j : Jump) :
    h.check v t ≠ .error j.fault := by
  intro hf
  obtain hj | ⟨r, -, -, hj⟩ := Heap.check_eq_error hf
  · cases j <;> cases hj
  · cases j <;> cases hj

/-- **A command whose code is contained keeps the declared functions contained, and is not
answered with a stray jump.** -/
theorem contained_of_performed {fuel : Nat} {s s' : Session} {command : Command} {reply : Reply}
    (hs : s.interpreter.context.Contained) (hcommand : command.Contained)
    (h : Session.Performed fuel s command reply s') :
    s'.interpreter.context.Contained ∧ ∀ j : Jump, reply ≠ .failed j.fault := by
  cases h with
  | declare f =>
    have hfs : ∀ g ∈ [f], g.Contained := by
      intro g hg
      rw [List.mem_singleton.mp hg]
      exact hcommand
    have hctx : (s.interpreter.declareAll [f]).context.Contained := contained_declareAll hs hfs
    exact ⟨hctx, fun j hj => by cases hj⟩
  | run hran =>
    obtain ⟨hctx, hresult⟩ := contained_of_runIn hs hcommand hran
    refine ⟨hctx, fun j => ?_⟩
    exact Reply.ofExcept_ne_failed (fun _ _ hf => by cases hf) (hresult j)
  | runAlone hran =>
    obtain ⟨hctx, hresult⟩ := contained_of_runIn hs hcommand hran
    exact ⟨hctx, fun j => Reply.ofUnit_ne_failed (map_ne_error (hresult j) _)⟩
  | call hcomplete =>
    obtain ⟨hctx, hr⟩ := contained_of_complete hs hcomplete
    refine ⟨hctx, fun j => ?_⟩
    exact Reply.ofExcept_ne_failed (fun _ _ hf => by cases hf) (map_ne_error (hr j) _)
  | complete hcomplete =>
    obtain ⟨hctx, hr⟩ := contained_of_complete hs hcomplete
    exact ⟨hctx, fun j => Reply.ofExcept_ne_failed (fun _ _ hf => by cases hf) (hr j)⟩
  | store o => exact ⟨hs, fun j hj => by cases hj⟩
  | replace o _ => exact ⟨hs, fun j hj => by cases hj⟩
  | @refused r f o hf =>
    refine ⟨hs, fun j hj => ?_⟩
    cases hj
    exact fetch_ne_jump _ r j hf
  | fetch r =>
    refine ⟨hs, fun j => ?_⟩
    exact Reply.ofExcept_ne_failed (fun _ _ hf => by cases hf) (fetch_ne_jump _ r j)
  | check v t => exact ⟨hs, fun j => Reply.ofUnit_ne_failed (check_ne_jump _ v t j)⟩
  | ask _ hreply => exact ⟨hs, fun j => hreply _⟩
  | copy source target => exact ⟨hs, fun j hj => by cases hj⟩

theorem contained_start (limits : Limits) :
    (Session.start limits).interpreter.context.Contained := by
  intro name f hf
  have hnone : (∅ : Std.ExtTreeMap String Function)[name]? = none :=
    Std.ExtTreeMap.getElem?_empty
  cases hnone.symm.trans hf

theorem contained_of_reachable {limits : Limits} {s : Session}
    (h : s.Reachable (fun _ command => command.Contained) limits) :
    s.interpreter.context.Contained := by
  refine Session.Reachable.induct (P := fun s => s.interpreter.context.Contained)
    (contained_start limits) ?_ h
  intro s s' fuel command reply hs hcommand hperformed
  exact (contained_of_performed hs hcommand hperformed).1

/-! ## Containment -/

/-- **Jumps are contained.**  A statement or a body ends in a return only if it contains a
return, and in a break or a continue only if it contains one outside its loops.  An
expression ends in none of them, whatever calls mean.  So a function that contains no return
is never completed by one; and where all functions are contained, neither a run of a program
that is contained nor a call by a host ends in the fault of a stray jump, from any state and
at any point of a session. -/
theorem jumps_contained (ctx : Context) (fuel : Nat) :
    (∀ (s : Stmt) (a b : Activation) (e : Exit), s.run ctx fuel a = some (.error e, b) →
      (∀ signal, e = .returned signal → s.emits .returns = true) ∧
        (e = .broke → s.emits .breaks = true) ∧ (e = .continued → s.emits .continues = true)) ∧
    (∀ (body : List Stmt) (a b : Activation) (e : Exit),
      Stmt.execAll ctx (ctx.calls fuel) fuel .unit body a = some (.error e, b) →
        (∀ signal, e = .returned signal → Stmt.anyEmits .returns body = true) ∧
          (e = .broke → Stmt.anyEmits .breaks body = true) ∧
            (e = .continued → Stmt.anyEmits .continues body = true)) ∧
    (∀ (calls : Calls) (patience : Nat) (e : Expr) (a b : Activation) (x : Exit),
      (Stmt.expr e).exec ctx calls patience a = some (.error x, b) → ∃ f, x = .failed f) ∧
    (∀ (caller : Scope) (f : Function) (args : List Value) (m m' : Machine) (c : Completion),
      Stmt.anyEmits .returns f.body = false →
        ctx.calls fuel caller f args m = some (.ok c, m') → ∃ v, c = .fellThrough v) ∧
    (∀ (i i' : Interpreter) (name : String) (f : Function) (args : List Value) (c : Completion),
      i.functions[name]? = some f → Stmt.anyEmits .returns f.body = false →
        i.complete fuel name args = some (.ok c, i') → ∃ v, c = .fellThrough v) ∧
    (∀ (i : Interpreter) (scope : Scope) (p : Program) (ran : Interpreter.Ran),
      i.context.Contained → p.Contained → i.runIn fuel scope p = some ran →
        ∀ j : Jump, ran.result ≠ .error j.fault) ∧
    (∀ (i i' : Interpreter) (name : String) (args : List Value) (r : Except Fault Completion),
      i.context.Contained → i.complete fuel name args = some (r, i') →
        ∀ j : Jump, r ≠ .error j.fault) ∧
    (∀ (limits : Limits) (s : Session),
      s.Reachable (fun _ command => command.Contained) limits →
        ∀ (n : Nat) (command : Command) (reply : Reply) (s' : Session),
          command.Contained → s.perform n command = some (reply, s') →
            ∀ j : Jump, reply ≠ .failed j.fault) := by
  refine ⟨?stmt, ?body, ?expr, ?call, ?host, ?program, ?complete, ?session⟩
  case stmt =>
    intro s a b e h
    exact (emits_exec ctx (ctx.calls fuel) fuel s).of_jump h
  case body =>
    intro body a b e h
    exact (emits_execAll ctx (ctx.calls fuel) fuel body .unit).of_jump h
  case expr =>
    intro calls patience e a b x h
    have hemits := emits_exec ctx calls patience (.expr e) a x b h
    cases hj : x.jump? with
    | none => exact Exit.failed_of_jump? hj
    | some j => cases hemits j hj
  case call =>
    intro caller f args m m' c hf h
    exact fellThrough_of_call hf h
  case host =>
    intro i i' name f args c hname hf h
    obtain ⟨m, hrun, -⟩ := Interpreter.complete_eq_some hname h
    exact fellThrough_of_call hf hrun
  case program =>
    intro i scope p ran hi hp h
    exact (contained_of_runIn hi hp h).2
  case complete =>
    intro i i' name args r hi h
    exact (contained_of_complete hi h).2
  case session =>
    intro limits s hreach n command reply s' hcommand h
    have hs := contained_of_reachable hreach
    exact (contained_of_performed hs hcommand (Session.performed_of_perform h)).2

/-- A function whose loop is left by a break in a handler, before a return. -/
def leavesLoop : Function where
  name := "leave"
  params := [⟨"x", none⟩]
  body := [
    .whileDo (.bool true) [.guarded [.raise (.int 1)] "e" [.breakLoop], .continueLoop],
    .ret (some (.ident "x"))]

/-- A program that calls the function in some turns of a loop and continues in the others. -/
def leavesLoops : Program where
  items := [
    .function leavesLoop,
    .statement (.forRange "i" (.int 0) (.int 3) [
      .cond (.eq (.ident "i") (.int 1)) [.continueLoop] [.expr (.call "leave" [.ident "i"])]])]

/-- Breaks, continues and returns take place in the run of a contained program, and none of
them gets out. -/
theorem jumps_contained_leavesLoops :
    ∃ ran, Interpreter.runIn 4 {} .root leavesLoops = some ran ∧
      ∀ j : Jump, ran.result ≠ .error j.fault := by
  have hsome : (Interpreter.runIn 4 {} .root leavesLoops).isSome = true := by decide +kernel
  obtain ⟨ran, hrun⟩ := Option.isSome_iff_exists.mp hsome
  have hfunction : leavesLoop.Contained := by
    intro j hj
    cases j with
    | returns => exact absurd rfl hj
    | breaks => rfl
    | continues => rfl
  have hprogram : leavesLoops.Contained := by
    refine ⟨fun f hf => ?_, fun j => ?_⟩
    · rw [List.mem_singleton.mp hf]
      exact hfunction
    · cases j <;> rfl
  exact ⟨ran, hrun, (jumps_contained {} 4).2.2.2.2.2.1 {} .root leavesLoops ran
    (contained_start {}) hprogram hrun⟩

end Imperative
