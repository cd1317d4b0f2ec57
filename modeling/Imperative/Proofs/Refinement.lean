import Imperative.Proofs.Construct
import Imperative.Session

/-!
# Refinement of runs

One action refines another if it has every outcome that the other one has (`Action.Refines`).
More fuel refines less, since fuel only decides whether there is an outcome; this is
`Context.loosens_self`, with the same limits on both sides.  And looser limits refine tighter ones
in code without handlers, but for the outcomes in which a limit was exceeded.  The second is not
a refinement in the strict sense, so the relation takes the faults that count as a parameter:
an outcome that is another fault need not be an outcome of the refinement.

A fault that does not count must not be turned into anything else, or something that counts could
come of it.  Nothing in the language does that to a fault except a handler, which is why either
all faults count or the code has to be without handlers (`Unhandled`).
-/

namespace Imperative

/-! ## Actions -/

namespace Action

variable {ε σ α β : Type} {p : ε → Prop}

/-- The second action has every outcome of the first one, unless it is a failure that does not
count. -/
def Refines (p : ε → Prop) (x y : ExceptT ε (StateT σ Option) α) : Prop :=
  ∀ s r t, x s = some (r, t) → (∀ e, r = .error e → p e) → y s = some (r, t)

/-- An outcome that is no failure counts. -/
theorem ok_counts (a : α) (e : ε) (h : (.ok a : Except ε α) = .error e) : p e := by
  cases h

theorem Refines.refl (x : ExceptT ε (StateT σ Option) α) : Refines p x x := fun _ _ _ h _ => h

/-- In a sequence, what comes second may depend on what comes first having been completed. -/
theorem Refines.bind_of {x y : ExceptT ε (StateT σ Option) α}
    {f g : α → ExceptT ε (StateT σ Option) β} (hx : Refines p x y)
    (hf : ∀ a s t, x s = some (.ok a, t) → Refines p (f a) (g a)) :
    Refines p (x >>= f) (y >>= g) := by
  intro s r t h hr
  rw [bind_apply] at h ⊢
  split at h
  · cases h
  · next a u ha =>
    rw [hx s _ _ ha (ok_counts a)]
    exact hf a s u ha u r t h hr
  · next e u he =>
    cases h
    rw [hx s _ _ he fun e' he' => hr e' (by cases he'; rfl)]

theorem Refines.bind {x y : ExceptT ε (StateT σ Option) α}
    {f g : α → ExceptT ε (StateT σ Option) β} (hx : Refines p x y)
    (hf : ∀ a, Refines p (f a) (g a)) : Refines p (x >>= f) (y >>= g) :=
  hx.bind_of fun a _ _ _ => hf a

theorem Refines.map {x y : ExceptT ε (StateT σ Option) α} (hx : Refines p x y) (g : α → β) :
    Refines p (g <$> x) (g <$> y) := by
  rw [map_eq_pure_bind, map_eq_pure_bind]
  exact hx.bind fun a => .refl _

end Action

open Imperative.Action

/-- The exit is no fault, or it is one that counts. -/
def Exit.Counts (q : Fault → Prop) (e : Exit) : Prop := ∀ f, e = .failed f → q f

namespace Exit

variable {q : Fault → Prop}

theorem counts_continued : Counts q .continued := by
  intro f h
  cases h

theorem counts_broke : Counts q .broke := by
  intro f h
  cases h

theorem counts_of_eq {α : Type} {e : Exit} (he : e.Counts q) (e' : Exit)
    (h : (.error e : Except Exit α) = .error e') : e'.Counts q := by
  cases h
  exact he

end Exit

namespace Exec

variable {α : Type} {q : Fault → Prop}

theorem refines_unfinished (y : Exec α) : Refines (Exit.Counts q) unfinished y := by
  intro a r b h _
  cases h

theorem refines_eval {x y : Scope → Eval α} (h : ∀ scope, Refines q (x scope) (y scope)) :
    Refines (Exit.Counts q) (eval x) (eval y) := by
  rintro ⟨scope, machine⟩ r t hx hr
  simp only [eval] at hx ⊢
  split at hx
  · cases hx
  · next a m ha =>
    cases hx
    rw [h scope machine _ _ ha (ok_counts a)]
  · next f m hf =>
    cases hx
    rw [h scope machine _ _ hf fun g hg => hr (.failed g) (by cases hg; rfl) g rfl]

theorem refines_require {c c' : Except Fault α} (h : c = c' ∨ ∃ f, c = .error f ∧ ¬ q f) :
    Refines (Exit.Counts q) (require c) (require c') := by
  rcases h with rfl | ⟨f, rfl, hf⟩
  · exact .refl _
  · intro a r b h hr
    cases h
    exact absurd (hr _ rfl f rfl) hf

theorem refines_turn {x y : Exec α} (h : Refines (Exit.Counts q) x y) :
    Refines (Exit.Counts q) (turn x) (turn y) := by
  intro a r b hx hr
  simp only [turn] at hx ⊢
  split at hx
  · cases hx
  · next v c hv =>
    rw [h a _ _ hv (ok_counts v)]
    exact hx
  · next c hc =>
    rw [h a _ _ hc (Exit.counts_of_eq Exit.counts_continued)]
    exact hx
  · next c hc =>
    rw [h a _ _ hc (Exit.counts_of_eq Exit.counts_broke)]
    exact hx
  · next e c hcontinued hbroke he =>
    cases hx
    rw [h a _ _ he fun e' he' => hr e' (by cases he'; rfl)]
    cases e with
    | continued => exact absurd rfl hcontinued
    | broke => exact absurd rfl hbroke
    | returned s => rfl
    | failed f => rfl

theorem refines_inLoop {x y : Exec α} (h : Refines (Exit.Counts q) x y) :
    Refines (Exit.Counts q) (inLoop x) (inLoop y) := by
  rintro ⟨scope, machine⟩ r b hx hr
  simp only [inLoop] at hx ⊢
  split at hx
  · cases hx
  · next r' scope' machine' hr' =>
    cases hx
    rw [h _ _ _ hr' hr]

theorem refines_inChild {x y : Exec α} (h : Refines (Exit.Counts q) x y) (name : String)
    (v : Binding) : Refines (Exit.Counts q) (inChild name v x) (inChild name v y) := by
  rintro ⟨scope, machine⟩ r b hx hr
  simp only [inChild] at hx ⊢
  split at hx
  · cases hx
  · next r' a hr' =>
    cases hx
    rw [h _ _ _ hr' hr]

/-- A handler is where it matters that every fault counts. -/
theorem refines_guarded {x y : Exec α} {f g : Fault → Exec α} (hq : ∀ e, q e)
    (hx : Refines (Exit.Counts q) x y) (hf : ∀ e, Refines (Exit.Counts q) (f e) (g e)) :
    Refines (Exit.Counts q) (guarded x f) (guarded y g) := by
  intro a r b h hr
  rw [guarded_apply] at h ⊢
  have hcounts : ∀ e : Exit, e.Counts q := fun e f _ => hq f
  split at h
  · cases h
  · next e c he =>
    rw [hx a _ _ he fun e' _ => hcounts e']
    split at h
    · next hinternal =>
      simp only [hinternal, if_true]
      exact h
    · next hinternal =>
      simp only [hinternal, Bool.false_eq_true, if_false]
      exact hf e c r b h hr
  · next r' c hne hr' =>
    cases h
    rw [hx a _ _ hr' fun e' _ => hcounts e']
    cases r with
    | ok v => rfl
    | error e =>
      cases e with
      | failed f => exact absurd rfl (hne f)
      | _ => rfl

end Exec

/-! ## Limits -/

/-- Every decision that is taken under the one limits is taken under the others, unless it is a
fault that does not count. -/
structure Limits.Refines (q : Fault → Prop) (l l' : Limits) : Prop where
  call (depth : Nat) :
    l.admitCall depth = l'.admitCall depth ∨ ∃ f, l.admitCall depth = .error f ∧ ¬ q f
  turn (taken : Nat) :
    l.admitTurn taken = l'.admitTurn taken ∨ ∃ f, l.admitTurn taken = .error f ∧ ¬ q f

theorem Limits.Refines.refl {q : Fault → Prop} (l : Limits) : l.Refines q l :=
  ⟨fun _ => .inl rfl, fun _ => .inl rfl⟩

theorem Loop.refines_whileTrue {q : Fault → Prop} {l l' : Limits} (hl : l.Refines q l')
    {test test' body body' : Exec Bool} (htest : Refines (Exit.Counts q) test test')
    (hbody : Refines (Exit.Counts q) body body') {tests tests' : Nat} (h : tests ≤ tests')
    (taken : Nat) :
    Refines (Exit.Counts q) (whileTrue l test body tests taken)
      (whileTrue l' test' body' tests' taken) := by
  induction tests generalizing tests' taken with
  | zero => exact Exec.refines_unfinished _
  | succ tests ih =>
    obtain ⟨tests', rfl⟩ := Nat.exists_eq_add_of_lt h
    rw [Nat.add_right_comm, Nat.add_assoc, Nat.add_comm 1 _, ← Nat.add_assoc, whileTrue, whileTrue]
    refine htest.bind fun go => ?_
    split
    · refine (Exec.refines_require (hl.turn taken)).bind fun _ => hbody.bind fun on => ?_
      split
      · exact ih (by omega) (taken + 1)
      · exact .refl _
    · exact .refl _

theorem Loop.refines_range {q : Fault → Prop} {l l' : Limits} (hl : l.Refines q l')
    {body body' : Exec Bool} (hbody : Refines (Exit.Counts q) body body') (name : String)
    (left taken : Nat) (i : Int64) :
    Refines (Exit.Counts q) (range l name body left taken i)
      (range l' name body' left taken i) := by
  induction left generalizing taken i with
  | zero => exact .refl _
  | succ left ih =>
    rw [range, range]
    refine (Exec.refines_require (hl.turn taken)).bind fun _ => (Refines.refl _).bind fun _ =>
      hbody.bind fun on => ?_
    split
    · exact ih (taken + 1) (i + 1)
    · exact .refl _

/-! ## Expressions and statements -/

section Trees

variable {q : Fault → Prop} {ctx : Context} {l : Limits} {calls calls' : Calls}

/-- The same functions under other limits. -/
def Context.under (ctx : Context) (l : Limits) : Context := { ctx with limits := l }

/-- Calls of declared functions are refined. -/
def Calls.Refine (q : Fault → Prop) (ctx : Context) (calls calls' : Calls) : Prop :=
  ∀ (name : String) (f : Function), ctx.functions[name]? = some f → ∀ scope args,
    Refines q (calls scope f args) (calls' scope f args)

mutual

theorem Expr.eval_refines (h : calls.Refine q ctx calls') (scope : Scope) (e : Expr) :
    Refines q (e.eval ctx calls scope) (e.eval (ctx.under l) calls' scope) := by
  cases e with
  | int n =>
    rw [eval, eval]
    exact .refl _
  | float x =>
    rw [eval, eval]
    exact .refl _
  | text s =>
    rw [eval, eval]
    exact .refl _
  | bool b =>
    rw [eval, eval]
    exact .refl _
  | ident name =>
    rw [eval, eval]
    exact .refl _
  | arith op a b =>
    rw [eval, eval]
    exact (eval_refines h scope a).bind fun x => (eval_refines h scope b).bind fun y => .refl _
  | neg e =>
    rw [eval, eval]
    exact (eval_refines h scope e).bind fun x => .refl _
  | eq a b =>
    rw [eval, eval]
    exact (eval_refines h scope a).bind fun x => (eval_refines h scope b).bind fun y => .refl _
  | ne a b =>
    rw [eval, eval]
    exact (eval_refines h scope a).bind fun x => (eval_refines h scope b).bind fun y => .refl _
  | compare op a b =>
    rw [eval, eval]
    exact (eval_refines h scope a).bind fun x => (eval_refines h scope b).bind fun y => .refl _
  | logic op a b =>
    rw [eval, eval]
    refine (eval_refines h scope a).bind fun x => (Refines.refl _).bind fun p => ?_
    split
    · exact .refl _
    · exact (eval_refines h scope b).bind fun y => .refl _
  | not e =>
    rw [eval, eval]
    exact (eval_refines h scope e).bind fun x => .refl _
  | call name args =>
    rw [eval, eval]
    refine (Refines.refl _).bind_of fun callee m m' hcallee => ?_
    refine (evalAll_refines h scope args).bind fun vs => ?_
    cases callee with
    | builtin b => exact .refl _
    | function f =>
      obtain ⟨g, hg⟩ := Context.calleeOf_eq_function hcallee
      exact (h g f hg scope vs).bind fun c => .refl _
  | list elements =>
    rw [eval, eval]
    exact (evalAll_refines h scope elements).bind fun vs => .refl _
  | index base position =>
    rw [eval, eval]
    exact (eval_refines h scope base).bind fun b =>
      (eval_refines h scope position).bind fun p => .refl _

theorem Expr.evalAll_refines (h : calls.Refine q ctx calls') (scope : Scope)
    (es : List Expr) :
    Refines q (Expr.evalAll ctx calls scope es)
      (Expr.evalAll (ctx.under l) calls' scope es) := by
  cases es with
  | nil =>
    rw [evalAll, evalAll]
    exact .refl _
  | cons e es =>
    rw [evalAll, evalAll]
    exact (eval_refines h scope e).bind fun v => (evalAll_refines h scope es).bind fun vs => .refl _

end

/-- Every fault counts, or no handler occurs that could take one that does not. -/
def Unhandled (q : Fault → Prop) (occurs : Bool) : Prop := (∀ f, q f) ∨ occurs = false

theorem Unhandled.left {p₁ p₂ : Bool} (h : Unhandled q (p₁ || p₂)) : Unhandled q p₁ :=
  h.imp_right fun h => (Bool.or_eq_false_iff.mp h).1

theorem Unhandled.right {p₁ p₂ : Bool} (h : Unhandled q (p₁ || p₂)) : Unhandled q p₂ :=
  h.imp_right fun h => (Bool.or_eq_false_iff.mp h).2

mutual

theorem Stmt.exec_refines (hl : ctx.limits.Refines q l) (h : calls.Refine q ctx calls')
    {patience patience' : Nat} (hpatience : ctx.limits.testBound patience ≤ l.testBound patience')
    (s : Stmt) (hs : Unhandled q (s.has .guarded)) :
    Refines (Exit.Counts q) (s.exec ctx calls patience)
      (s.exec (ctx.under l) calls' patience') := by
  have heval : ∀ e : Expr, Refines (Exit.Counts q)
      (Exec.eval fun scope => e.eval ctx calls scope)
      (Exec.eval fun scope => e.eval (ctx.under l) calls' scope) :=
    fun e => Exec.refines_eval fun scope => Expr.eval_refines h scope e
  have hthen : ∀ (e : Expr) {β : Type} (k : Value → Eval β), Refines (Exit.Counts q)
      (Exec.eval fun scope => e.eval ctx calls scope >>= k)
      (Exec.eval fun scope => e.eval (ctx.under l) calls' scope >>= k) :=
    fun e _ k => Exec.refines_eval fun scope => (Expr.eval_refines h scope e).bind fun _ => .refl _
  cases s with
  | declare name ty e =>
    rw [exec, exec]
    exact (heval e).bind fun v => .refl _
  | assign name e =>
    rw [exec, exec]
    exact (heval e).bind fun v => .refl _
  | ret value =>
    cases value with
    | none =>
      rw [exec, exec]
      exact .refl _
    | some e =>
      rw [exec, exec]
      exact (heval e).bind fun v => .refl _
  | cond test yes no =>
    rw [exec, exec]
    rw [has] at hs
    refine (hthen test _).bind fun p => ?_
    split
    · exact execAll_refines hl h hpatience .unit yes hs.left.right
    · exact execAll_refines hl h hpatience .unit no hs.right
  | whileDo test body =>
    rw [exec, exec]
    rw [has] at hs
    have hbody := execAll_refines hl h hpatience .unit body hs.right
    refine Exec.refines_inLoop (Refines.bind ?_ fun _ => .refl _)
    exact Loop.refines_whileTrue hl (hthen test _) (Exec.refines_turn hbody) hpatience 0
  | forRange name start stop body =>
    rw [exec, exec]
    rw [has] at hs
    have hbody := execAll_refines hl h hpatience .unit body hs.right
    refine Exec.refines_inLoop (Refines.bind (Exec.refines_eval fun scope => ?_) fun p => ?_)
    · exact (Expr.eval_refines h scope start).bind fun a =>
        (Expr.eval_refines h scope stop).bind fun b => .refl _
    · obtain ⟨i, j⟩ := p
      exact (Loop.refines_range hl (Exec.refines_turn hbody) name _ 0 i).bind fun _ => .refl _
  | breakLoop =>
    rw [exec, exec]
    exact .refl _
  | continueLoop =>
    rw [exec, exec]
    exact .refl _
  | block body =>
    rw [exec, exec]
    rw [has] at hs
    exact execAll_refines hl h hpatience .unit body hs
  | guarded body name handler =>
    rcases hs with hq | hnone
    · rw [exec, exec]
      refine Exec.refines_guarded hq (execAll_refines hl h hpatience .unit body (.inl hq)) ?_
      intro f
      refine (Refines.refl _).bind fun text => Exec.refines_inChild ?_ name _
      exact execAll_refines hl h hpatience .unit handler (.inl hq)
    · simp [has] at hnone
  | raise e =>
    rw [exec, exec]
    exact (hthen e _).bind fun v => .refl _
  | expr e =>
    rw [exec, exec]
    exact heval e

theorem Stmt.execAll_refines (hl : ctx.limits.Refines q l) (h : calls.Refine q ctx calls')
    {patience patience' : Nat} (hpatience : ctx.limits.testBound patience ≤ l.testBound patience')
    (last : Value) (body : List Stmt) (hbody : Unhandled q (Stmt.anyHas .guarded body)) :
    Refines (Exit.Counts q) (Stmt.execAll ctx calls patience last body)
      (Stmt.execAll (ctx.under l) calls' patience' last body) := by
  cases body with
  | nil =>
    rw [execAll, execAll]
    exact .refl _
  | cons s rest =>
    rw [execAll, execAll]
    rw [anyHas] at hbody
    exact (exec_refines hl h hpatience s hbody.left).bind fun v =>
      execAll_refines hl h hpatience v rest hbody.right

end

end Trees

/-! ## Calls -/

section Calls

variable {q : Fault → Prop} {ctx : Context} {l : Limits}

theorem Call.entry_refines (hl : ctx.limits.Refines q l) (caller : Scope) (f : Function)
    (args : List Value) (m : Machine) :
    entry ctx caller f args m = entry (ctx.under l) caller f args m ∨
      ∃ g, entry ctx caller f args m = .error g ∧ ¬ q g := by
  unfold entry
  split
  · exact .inl rfl
  · rcases hl.call m.callDepth with h | ⟨g, h, hg⟩
    · exact .inl (by rw [h]; rfl)
    · exact .inr ⟨g, by rw [h], hg⟩

/-- A call is refined if its body is. -/
theorem Call.dispatch_refines (hl : ctx.limits.Refines q l) {run run' : List Stmt → Exec Value}
    {f : Function} (h : Refines (Exit.Counts q) (run f.body) (run' f.body)) (caller : Scope)
    (args : List Value) :
    Refines q (dispatch ctx run caller f args) (dispatch (ctx.under l) run' caller f args) := by
  intro m r m' hcall hr
  rw [dispatch_apply] at hcall ⊢
  rcases entry_refines hl caller f args m with hentry | ⟨g, hentry, hg⟩
  · rw [← hentry]
    split at hcall
    · exact hcall
    · next scope hscope =>
      split at hcall
      · cases hcall
      · next outcome b hrun =>
        have hcounts : ∀ e, outcome = .error e → e.Counts q := by
          rintro e rfl g rfl
          cases hcall
          exact hr g rfl
        rw [h _ _ _ hrun hcounts]
        exact hcall
  · rw [hentry] at hcall
    cases hcall
    exact absurd (hr g rfl) hg

/-- **With looser limits and more fuel, calls are refined.** -/
theorem Context.calls_refines (hl : ctx.limits.Refines q l) {more : Nat}
    (hmore : ∀ fuel, ctx.limits.testBound fuel ≤ l.testBound (fuel + more))
    (hctx : ∀ (name : String) (f : Function), ctx.functions[name]? = some f →
      Unhandled q (Stmt.anyHas .guarded f.body))
    (fuel : Nat) {f : Function} (hf : Unhandled q (Stmt.anyHas .guarded f.body)) (caller : Scope)
    (args : List Value) :
    Refines q (ctx.calls fuel caller f args) ((ctx.under l).calls (fuel + more) caller f args) := by
  induction fuel generalizing f caller args with
  | zero =>
    intro m r m' h
    cases h
  | succ fuel ih =>
    rw [Nat.add_right_comm]
    have hcalls : (ctx.calls fuel).Refine q ctx ((ctx.under l).calls (fuel + more)) :=
      fun name g hg scope vs => ih (hctx name g hg) scope vs
    exact Call.dispatch_refines hl
      (Stmt.execAll_refines hl hcalls (hmore fuel) .unit f.body hf) caller args

end Calls

/-! ## Other limits and other amounts of fuel -/

/-- What it takes for runs to be refined under other limits and with `more` fuel: the limits refine
those of the context, the fuel is enough for as many tests, and no function handles a fault that
does not count. -/
structure Context.Loosens (q : Fault → Prop) (ctx : Context) (l : Limits) (more : Nat) : Prop where
  limits : ctx.limits.Refines q l
  tests (fuel : Nat) : ctx.limits.testBound fuel ≤ l.testBound (fuel + more)
  functions (name : String) (f : Function) :
    ctx.functions[name]? = some f → Unhandled q (Stmt.anyHas .guarded f.body)

namespace Context.Loosens

variable {q : Fault → Prop} {ctx : Context} {l : Limits} {more : Nat}

theorem calls (h : ctx.Loosens q l more) (fuel : Nat) {f : Function}
    (hf : Unhandled q (Stmt.anyHas .guarded f.body)) (caller : Scope) (args : List Value) :
    Refines q (ctx.calls fuel caller f args)
      ((ctx.under l).calls (fuel + more) caller f args) :=
  calls_refines h.limits h.tests h.functions fuel hf caller args

theorem declared (h : ctx.Loosens q l more) (fuel : Nat) :
    (ctx.calls fuel).Refine q ctx ((ctx.under l).calls (fuel + more)) :=
  fun name f hf => h.calls fuel (h.functions name f hf)

theorem expr (h : ctx.Loosens q l more) (fuel : Nat) (scope : Scope) (e : Expr) :
    Refines q (e.run ctx fuel scope) (e.run (ctx.under l) (fuel + more) scope) :=
  Expr.eval_refines (h.declared fuel) scope e

theorem stmt (h : ctx.Loosens q l more) (fuel : Nat) {s : Stmt}
    (hs : Unhandled q (s.has .guarded)) :
    Refines (Exit.Counts q) (s.run ctx fuel) (s.run (ctx.under l) (fuel + more)) :=
  Stmt.exec_refines h.limits (h.declared fuel) (h.tests fuel) s hs

theorem body (h : ctx.Loosens q l more) (fuel : Nat) (last : Value) {body : List Stmt}
    (hbody : Unhandled q (Stmt.anyHas .guarded body)) :
    Refines (Exit.Counts q) (Stmt.execAll ctx (ctx.calls fuel) fuel last body)
      (Stmt.execAll (ctx.under l) ((ctx.under l).calls (fuel + more)) (fuel + more) last body) :=
  Stmt.execAll_refines h.limits (h.declared fuel) (h.tests fuel) last body hbody

theorem program (h : ctx.Loosens q l more) (fuel : Nat) {body : List Stmt}
    (hbody : Unhandled q (Stmt.anyHas .guarded body)) :
    Refines (Exit.Counts q) (Program.exec ctx fuel body)
      (Program.exec (ctx.under l) (fuel + more) body) := by
  cases body with
  | nil => exact .refl _
  | cons s rest => exact (h.body fuel .unit hbody).map some

end Context.Loosens

namespace Interpreter

variable {q : Fault → Prop} {l : Limits} {more fuel : Nat} {i : Interpreter}

/-- The same interpreter under other limits. -/
def under (i : Interpreter) (l : Limits) : Interpreter := { i with limits := l }

theorem declareAll_under (i : Interpreter) (l : Limits) (fs : List Function) :
    (i.under l).declareAll fs = (i.declareAll fs).under l := by
  induction fs generalizing i with
  | nil => rfl
  | cons f fs ih => exact ih (i.declare f)

/-- The same state after a run, under other limits. -/
def Ran.under (ran : Ran) (l : Limits) : Ran := { ran with interpreter := ran.interpreter.under l }

theorem runIn_refines {scope : Scope} {p : Program} {ran : Ran}
    (h : (i.declareAll p.functions).context.Loosens q l more)
    (hp : Unhandled q (Stmt.anyHas .guarded p.statements))
    (hrun : i.runIn fuel scope p = some ran) (hr : ∀ f, ran.result = .error f → q f) :
    (i.under l).runIn (fuel + more) scope p = some (ran.under l) := by
  rw [runIn] at hrun ⊢
  rw [declareAll_under]
  generalize i.declareAll p.functions = j at h hrun
  have hprogram := h.program fuel hp ⟨scope, j.machine⟩
  rcases execute_eq_some hrun with ⟨v, b, hexec, rfl⟩ | ⟨e, b, hexec, rfl⟩
  · exact execute_of_ok (i := j.under l) (hprogram _ _ hexec (ok_counts v))
  · have hcounts : e.Counts q := by
      rintro f rfl
      exact hr f rfl
    exact execute_of_error (i := j.under l) (hprogram _ _ hexec (Exit.counts_of_eq hcounts))

theorem complete_refines {i' : Interpreter} {name : String} {args : List Value}
    {r : Except Fault Completion} (h : i.context.Loosens q l more)
    (hrun : i.complete fuel name args = some (r, i')) (hr : ∀ f, r = .error f → q f) :
    (i.under l).complete (fuel + more) name args = some (r, i'.under l) := by
  have hloose : Refines q
      (i.context.functionOf .root name >>= fun f => i.context.calls fuel .root f args)
      ((i.context.under l).functionOf .root name >>= fun f =>
        (i.context.under l).calls (fuel + more) .root f args) := by
    refine (Refines.refl (i.context.functionOf .root name)).bind_of fun f m m' hf => ?_
    obtain ⟨target, htarget⟩ := Context.functionOf_eq_ok hf
    exact h.calls fuel (h.functions target f htarget) .root args
  obtain ⟨m, heval, rfl⟩ := evaluate_eq_some hrun
  exact evaluate_of_some (i := i.under l) (hloose _ _ _ heval hr)

theorem limits_runIn {scope : Scope} {p : Program} {ran : Ran}
    (h : i.runIn fuel scope p = some ran) : ran.interpreter.limits = i.limits := by
  rcases execute_eq_some h with ⟨v, b, -, rfl⟩ | ⟨e, b, -, rfl⟩
  · exact i.limits_declareAll p.functions
  · exact i.limits_declareAll p.functions

end Interpreter

/-! ## More fuel -/

section Fuel

variable {ctx : Context} {fuel fuel' : Nat}

theorem Limits.testBound_le (l : Limits) (h : fuel ≤ fuel') :
    l.testBound fuel ≤ l.testBound fuel' := by
  unfold testBound
  split
  · exact h
  · exact Nat.le_refl _

/-- If every fault counts, then what takes more fuel and nothing else is refined. -/
theorem Context.loosens_self (ctx : Context) (more : Nat) :
    ctx.Loosens (fun _ => True) ctx.limits more where
  limits := .refl ctx.limits
  tests fuel := ctx.limits.testBound_le (Nat.le_add_right fuel more)
  functions _ _ _ := .inl fun _ => trivial

theorem Context.calls_of_le (ctx : Context) (h : fuel ≤ fuel') (caller : Scope) (f : Function)
    (args : List Value) :
    Refines (fun _ => True) (ctx.calls fuel caller f args) (ctx.calls fuel' caller f args) := by
  obtain ⟨more, rfl⟩ := Nat.exists_eq_add_of_le h
  exact (ctx.loosens_self more).calls fuel (.inl fun _ => trivial) caller args

/-- **More fuel changes nothing.**  An outcome that there is with some amount of fuel is the
outcome with every larger amount. -/
theorem Stmt.run_of_le (h : fuel ≤ fuel') {s : Stmt} {a : Activation}
    {p : Except Exit Value × Activation} (hs : s.run ctx fuel a = some p) :
    s.run ctx fuel' a = some p := by
  obtain ⟨more, rfl⟩ := Nat.exists_eq_add_of_le h
  exact (ctx.loosens_self more).stmt fuel (.inl fun _ => trivial) a p.1 p.2 hs fun _ _ _ _ => trivial

theorem Stmt.execAll_of_le (h : fuel ≤ fuel') {last : Value} {body : List Stmt} {a : Activation}
    {p : Except Exit Value × Activation}
    (hbody : Stmt.execAll ctx (ctx.calls fuel) fuel last body a = some p) :
    Stmt.execAll ctx (ctx.calls fuel') fuel' last body a = some p := by
  obtain ⟨more, rfl⟩ := Nat.exists_eq_add_of_le h
  exact (ctx.loosens_self more).body fuel last (.inl fun _ => trivial) a p.1 p.2 hbody
    fun _ _ _ _ => trivial

theorem Expr.run_of_le (h : fuel ≤ fuel') {e : Expr} {scope : Scope} {m : Machine}
    {p : Except Fault Value × Machine} (he : e.run ctx fuel scope m = some p) :
    e.run ctx fuel' scope m = some p := by
  obtain ⟨more, rfl⟩ := Nat.exists_eq_add_of_le h
  exact (ctx.loosens_self more).expr fuel scope e m p.1 p.2 he fun _ _ => trivial

theorem Expr.evalAll_of_le (h : fuel ≤ fuel') {es : List Expr} {scope : Scope} {m : Machine}
    {p : Except Fault (List Value) × Machine}
    (hes : Expr.evalAll ctx (ctx.calls fuel) scope es m = some p) :
    Expr.evalAll ctx (ctx.calls fuel') scope es m = some p := by
  obtain ⟨more, rfl⟩ := Nat.exists_eq_add_of_le h
  exact Expr.evalAll_refines ((ctx.loosens_self more).declared fuel) scope es m p.1 p.2 hes
    fun _ _ => trivial

theorem Interpreter.runIn_of_le (h : fuel ≤ fuel') {i : Interpreter} {scope : Scope}
    {p : Program} {ran : Ran} (hrun : i.runIn fuel scope p = some ran) :
    i.runIn fuel' scope p = some ran := by
  obtain ⟨more, rfl⟩ := Nat.exists_eq_add_of_le h
  have hloosens := Context.loosens_self (i.declareAll p.functions).context more
  rw [show (i.declareAll p.functions).context.limits = i.limits from
    i.limits_declareAll p.functions] at hloosens
  have hmore := runIn_refines hloosens (.inl fun _ => trivial) hrun fun _ _ => trivial
  have hsame : ran.under i.limits = ran := by
    rw [Ran.under, ← limits_runIn hrun]
    rfl
  rwa [hsame] at hmore

theorem Interpreter.complete_of_le (h : fuel ≤ fuel') {i : Interpreter} {name : String}
    {args : List Value} {p : Except Fault Completion × Interpreter}
    (hrun : i.complete fuel name args = some p) : i.complete fuel' name args = some p := by
  obtain ⟨more, rfl⟩ := Nat.exists_eq_add_of_le h
  obtain ⟨r, i'⟩ := p
  have hmore := complete_refines (Context.loosens_self i.context more) hrun fun _ _ => trivial
  obtain ⟨m, -, rfl⟩ := evaluate_eq_some hrun
  exact hmore

end Fuel

end Imperative
