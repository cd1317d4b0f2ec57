import Imperative.Proofs.Keeping
import Imperative.Proofs.Moments.Ending
import Imperative.Proofs.Moments.Ready
import Imperative.Proofs.Moments.Timeline
import Imperative.Proofs.Ratchet

/-!
# One moment after the other

A run has no two things going on at once: the parts of a moment are carried out in turn, each one
from where the one before has ended, and the moment ends some time after the last of them has.  Only
little happens in between, an entry in a counter or an operation on values, and that goes along
every ratchet (`Moment.inTurn`), and along every interlude unless the moment is a call
(`Moment.inTurn_between`).

Like the relation `Starts`, the list of parts knows nothing of how a moment itself is carried out,
and this file is where the two are brought together.  There is one rule for each way in which
actions are put together, and one case for each construct.
-/

namespace Imperative

open Imperative.Action

/-! ## What is left -/

/-- The machine that an action leaves, if it has an outcome. -/
def Action.left {ε σ α : Type} (machine : σ → Machine) (p : Option (Except ε α × σ)) :
    Option Machine :=
  p.map fun q => machine q.2

/-- The machine that a moment leaves, if it ends. -/
def Moment.left (ctx : Context) (c : Moment) : Option Machine :=
  Action.left Activation.machine (c.task.run ctx c.fuel c.start)

namespace Exec

variable {α β : Type}

theorem left_eval (x : Scope → Eval α) (s : Activation) :
    left Activation.machine (eval x s) = left id (x s.scope s.machine) := by
  obtain ⟨scope, m⟩ := s
  simp only [eval]
  cases x scope m with
  | none => rfl
  | some p =>
    obtain ⟨r, m'⟩ := p
    cases r <;> rfl

theorem left_map (g : α → β) (x : Exec α) (s : Activation) :
    left Activation.machine ((g <$> x : Exec β) s) = left Activation.machine (x s) := by
  rw [map_eq_pure_bind, bind_apply]
  cases x s with
  | none => rfl
  | some p =>
    obtain ⟨r, b⟩ := p
    cases r <;> rfl

theorem left_turn (x : Exec α) (s : Activation) :
    left Activation.machine (turn x s) = left Activation.machine (x s) := by
  simp only [turn]
  cases x s with
  | none => rfl
  | some p =>
    obtain ⟨r, b⟩ := p
    cases r with
    | ok v => rfl
    | error e => cases e <;> rfl

/-- Evaluations one after the other may as well be executed one after the other. -/
theorem eval_bind (x : Scope → Eval α) (f : α → Scope → Eval β) :
    (eval fun scope => x scope >>= fun v => f v scope) = eval x >>= fun v => eval (f v) := by
  funext ⟨scope, m⟩
  rw [bind_apply]
  simp only [eval, bind_apply]
  cases x scope m with
  | none => rfl
  | some p =>
    obtain ⟨r, m'⟩ := p
    cases r <;> rfl

end Exec

namespace Moment

variable {ctx : Context} {fuel : Nat} {s : Activation}

theorem left_eval (e : Expr) :
    Moment.left ctx ⟨fuel, .eval e, s⟩ = Action.left id (e.run ctx fuel s.scope s.machine) :=
  (Exec.left_map _ _ s).trans (Exec.left_eval _ s)

theorem left_evalAll (es : List Expr) :
    Moment.left ctx ⟨fuel, .evalAll es, s⟩ =
      Action.left id (Expr.evalAll ctx (ctx.calls fuel) s.scope es s.machine) :=
  (Exec.left_map _ _ s).trans (Exec.left_eval _ s)

theorem left_exec (t : Stmt) :
    Moment.left ctx ⟨fuel, .exec t, s⟩ = Action.left Activation.machine (t.run ctx fuel s) :=
  Exec.left_map _ _ s

theorem left_execAll (last : Value) (body : List Stmt) :
    Moment.left ctx ⟨fuel, .execAll last body, s⟩ =
      Action.left Activation.machine (Stmt.execAll ctx (ctx.calls fuel) fuel last body s) :=
  Exec.left_map _ _ s

theorem left_turn (body : List Stmt) :
    Moment.left ctx ⟨fuel, .execAll .unit body, s⟩ =
      Action.left Activation.machine (Task.turn ctx fuel body s) :=
  (left_execAll .unit body).trans (Exec.left_turn _ s).symm

theorem left_call (f : Function) (args : List Value) :
    Moment.left ctx ⟨fuel, .call f args, s⟩ =
      Action.left id (ctx.calls fuel s.scope f args s.machine) :=
  (Exec.left_map _ _ s).trans (Exec.left_eval _ s)

theorem left_equal (x y : Value) :
    Moment.left ctx ⟨fuel, .equal x y, s⟩ = Action.left id (x.equal y s.machine) :=
  (Exec.left_map _ _ s).trans (Exec.left_eval _ s)

theorem left_shown (v : Value) :
    Moment.left ctx ⟨fuel, .shown v, s⟩ = Action.left id (v.shown s.machine) :=
  (Exec.left_map _ _ s).trans (Exec.left_eval _ s)

end Moment

/-! ## In turn -/

/-- From a machine on, some moments are carried out in turn, and then it comes to the machine that
is left, if any is.  If one of them does not end, it is the last one and nothing is left. -/
inductive InTurn (ctx : Context) (R : Machine → Machine → Prop) :
    Machine → List Moment → Option Machine → Prop where
  | done {m : Machine} {out : Option Machine} :
    (∀ m', out = some m' → R m m') → InTurn ctx R m [] out
  | part {m : Machine} {d : Moment} {ds : List Moment} {out : Option Machine} :
    R m d.start.machine → (∀ m', d.left ctx = some m' → InTurn ctx R m' ds out) →
      (d.left ctx = none → ds = [] ∧ out = none) → InTurn ctx R m (d :: ds) out

namespace InTurn

variable {ctx : Context} {R : Machine → Machine → Prop}

section Rules

variable {ε σ α β : Type} {machine : σ → Machine} {x : ExceptT ε (StateT σ Option) α}
  {f : α → ExceptT ε (StateT σ Option) β} {s : σ} {m : Machine} {d : Moment}
  {next : α → σ → List Moment}

/-- What is done first is a part, and what comes next depends on its value. -/
theorem bind (hR : Interlude R) (hd : d.left ctx = Action.left machine (x s))
    (hstart : R m d.start.machine)
    (hf : ∀ v s', x s = some (.ok v, s') →
      InTurn ctx R (machine s') (next v s') (Action.left machine (f v s'))) :
    InTurn ctx R m (d :: after (x s) next) (Action.left machine ((x >>= f) s)) := by
  rw [bind_apply]
  refine .part hstart (fun m' hm' => ?_) fun hnone => ?_
  · rw [hd] at hm'
    obtain ⟨⟨r, s'⟩, hx, hs'⟩ := Option.map_eq_some_iff.mp hm'
    rw [hx, ← hs']
    cases r with
    | ok v => exact hf v s' hx
    | error e =>
      refine .done fun m'' hm'' => ?_
      cases hm''
      exact hR.refl _
  · rw [hd] at hnone
    rw [Option.map_eq_none_iff.mp hnone]
    exact ⟨rfl, rfl⟩

/-- What is done first is no part, and what comes next depends on its value. -/
theorem step (hx : ∀ r s', x s = some (r, s') → R m (machine s'))
    (hf : ∀ v s', x s = some (.ok v, s') →
      InTurn ctx R m (next v s') (Action.left machine (f v s'))) :
    InTurn ctx R m (after (x s) next) (Action.left machine ((x >>= f) s)) := by
  rw [bind_apply]
  cases hrun : x s with
  | none => exact .done fun m' hm' => by cases hm'
  | some p =>
    obtain ⟨r, s'⟩ := p
    cases r with
    | ok v => exact hf v s' hrun
    | error e =>
      refine .done fun m' hm' => ?_
      cases hm'
      exact hx _ _ hrun

end Rules

section Ends

variable {m : Machine} {d : Moment} {ds : List Moment} {out out' : Option Machine}

/-- There is nothing to do. -/
theorem nothing (hR : Interlude R) : InTurn ctx R m [] (some m) := by
  refine .done fun m' h => ?_
  cases h
  exact hR.refl m

/-- There is one part, and when it ends everything is done. -/
theorem only (hR : Interlude R) (hstart : R m d.start.machine) (hd : d.left ctx = out) :
    InTurn ctx R m [d] out := by
  subst hd
  refine .part hstart (fun m' hm' => .done fun m'' hm'' => ?_) fun hnone => ⟨rfl, hnone⟩
  rw [hm'] at hm''
  cases hm''
  exact hR.refl _

/-- Something may happen before the first part. -/
theorem of_start (hR : Interlude R) {m₀ : Machine} (h₀ : R m₀ m) (h : InTurn ctx R m ds out) :
    InTurn ctx R m₀ ds out := by
  cases h with
  | done hout => exact .done fun m' hm' => hR.trans h₀ (hout m' hm')
  | part hstart hsome hnone => exact .part (hR.trans h₀ hstart) hsome hnone

/-- Something may happen after the last part, if it has ended. -/
theorem of_out (hR : Interlude R) (h : InTurn ctx R m ds out)
    (hout : ∀ m'', out' = some m'' → ∃ m', out = some m' ∧ R m' m'') :
    InTurn ctx R m ds out' := by
  induction h with
  | done hm =>
    refine .done fun m'' hm'' => ?_
    obtain ⟨m', hm', hR'⟩ := hout m'' hm''
    exact hR.trans (hm m' hm') hR'
  | part hstart _ hnone ih =>
    refine .part hstart (fun m' hm' => ih m' hm' hout) fun hd => ?_
    obtain ⟨hds, hleft⟩ := hnone hd
    refine ⟨hds, Option.eq_none_iff_forall_ne_some.mpr fun m'' hm'' => ?_⟩
    obtain ⟨m', hm', -⟩ := hout m'' hm''
    rw [hleft] at hm'
    cases hm'

end Ends

/-- What is done first is the only part. -/
theorem last {ε σ α β : Type} {machine : σ → Machine} {x : ExceptT ε (StateT σ Option) α}
    {f : α → ExceptT ε (StateT σ Option) β} {s : σ} {m : Machine} {d : Moment} (hR : Interlude R)
    (hd : d.left ctx = Action.left machine (x s)) (hstart : R m d.start.machine)
    (hf : ∀ v s' m', Action.left machine (f v s') = some m' → R (machine s') m') :
    InTurn ctx R m [d] (Action.left machine ((x >>= f) s)) := by
  have h : InTurn ctx R m (d :: after (x s) fun _ _ => []) (Action.left machine ((x >>= f) s)) :=
    .bind hR hd hstart fun v s' _ => .done (hf v s')
  have hnil : (after (x s) fun _ _ => []) = [] := by
    unfold after
    split <;> rfl
  rwa [hnil] at h

/-- What is evaluated first is a part, and what comes next depends on its value. -/
theorem bindEval {α β : Type} {x : Scope → Eval α} {k : α → Exec β} {s : Activation} {m : Machine}
    {d : Moment} {next : α → Machine → List Moment} (hR : Interlude R)
    (hd : d.left ctx = Action.left id (x s.scope s.machine)) (hstart : R m d.start.machine)
    (hf : ∀ v m', x s.scope s.machine = some (.ok v, m') →
      InTurn ctx R m' (next v m') (Action.left Activation.machine (k v ⟨s.scope, m'⟩))) :
    InTurn ctx R m (d :: after (x s.scope s.machine) next)
      (Action.left Activation.machine ((Exec.eval x >>= k) s)) := by
  have h : InTurn ctx R m (d :: after (Exec.eval x s) fun v b => next v b.machine)
      (Action.left Activation.machine ((Exec.eval x >>= k) s)) := by
    refine .bind hR (hd.trans (Exec.left_eval x s).symm) hstart fun v b hv => ?_
    obtain ⟨hok, hscope⟩ := Exec.eval_eq_ok.mp hv
    obtain ⟨scope, m'⟩ := b
    subst hscope
    exact hf v m' hok
  have hafter : (after (Exec.eval x s) fun v b => next v b.machine) =
      after (x s.scope s.machine) next := by
    obtain ⟨scope, m₀⟩ := s
    simp only [Exec.eval]
    cases x scope m₀ with
    | none => rfl
    | some p =>
      obtain ⟨r, m'⟩ := p
      cases r <;> rfl
  rwa [hafter] at h

end InTurn

/-! ## The parts are carried out in turn -/

section Parts

variable {ctx : Context} {R : Machine → Machine → Prop} {fuel : Nat} {s : Activation}

/-- What is in order for a ratchet goes along it. -/
theorem Ratchet.of_runs {α : Type} {x : Exec α} {post : α → Activation → Prop} {a : Activation}
    {m' : Machine} (hx : (ratchet R).Runs a x post)
    (h : Action.left Activation.machine (x a) = some m') : R a.machine m' := by
  obtain ⟨⟨r, b⟩, hrun, rfl⟩ := Option.map_eq_some_iff.mp h
  exact (hx.ends hrun).2

namespace Interlude

theorem of_from {α : Type} {x : Eval α} {post : α → Machine → Prop} {m m' : Machine}
    (hx : (interlude R).From m x post) (h : Action.left id (x m) = some m') : R m m' := by
  obtain ⟨⟨r, m₁⟩, hrun, rfl⟩ := Option.map_eq_some_iff.mp h
  exact (hx.ends hrun).2

theorem of_runs {α : Type} {x : Exec α} {post : α → Activation → Prop} {a : Activation}
    {m' : Machine} (hx : (interlude R).Runs a x post)
    (h : Action.left Activation.machine (x a) = some m') : R a.machine m' := by
  obtain ⟨⟨r, b⟩, hrun, rfl⟩ := Option.map_eq_some_iff.mp h
  exact (hx.ends hrun).2

end Interlude

theorem ready_ratchet (R : Machine → Machine → Prop) (a : Activation) : (ratchet R).Ready a :=
  ⟨trivial, trivial⟩

theorem ready_interlude (R : Machine → Machine → Prop) (a : Activation) : (interlude R).Ready a :=
  ⟨trivial, trivial⟩

theorem Expr.inTurn (hR : Interlude R) (e : Expr) :
    InTurn ctx R s.machine (e.parts ctx fuel s)
      (Action.left id (e.run ctx fuel s.scope s.machine)) := by
  have L := hR.lawful
  have hpure (v : Value) (m : Machine) : (interlude R).From m (pure v) fun _ _ => True :=
    .pure L trivial trivial
  have hbool (x : Value) (describe : Shape → Mismatch) (g : Bool → Value) (m : Machine) :
      (interlude R).From m (x.truth describe >>= fun p => pure (g p)) fun _ _ => True :=
    .bind L (.truth L trivial describe x) fun p m₁ _ _ => .pure L trivial trivial
  cases e with
  | int n | float x | bool b =>
    rw [run, eval]
    exact .done fun m' => Interlude.of_from (hpure _ s.machine)
  | text t =>
    rw [run, eval]
    have htext : (interlude R).From s.machine (Eval.change (·.internText t)) fun _ _ => True :=
      .change ⟨trivial, hR.internText s.machine t⟩ trivial
    exact .done fun m' => Interlude.of_from htext
  | ident name =>
    rw [run, eval]
    exact .done fun m' => Interlude.of_from (.valueOf L trivial trivial name)
  | arith op a b =>
    rw [run, eval]
    refine .bind hR (Moment.left_eval a) (hR.refl _) fun x m₁ hx => ?_
    refine .bind hR (Moment.left_eval b) (hR.refl _) fun y m₂ hy => ?_
    exact .done fun m' =>
      Interlude.of_from (.arithmetic L (fun _ => trivial) trivial trivial trivial)
  | neg a =>
    rw [run, eval]
    refine .bind hR (Moment.left_eval a) (hR.refl _) fun x m₁ hx => ?_
    exact .done fun m' => Interlude.of_from (.negate L trivial x)
  | eq a b =>
    rw [run, eval]
    refine .bind hR (Moment.left_eval a) (hR.refl _) fun x m₁ hx => ?_
    refine .bind hR (Moment.left_eval b) (hR.refl _) fun y m₂ hy => ?_
    exact .last hR (Moment.left_equal x y) (hR.refl _) fun p m₃ m' =>
      Interlude.of_from (hpure _ m₃)
  | ne a b =>
    rw [run, eval]
    refine .bind hR (Moment.left_eval a) (hR.refl _) fun x m₁ hx => ?_
    refine .bind hR (Moment.left_eval b) (hR.refl _) fun y m₂ hy => ?_
    exact .last hR (Moment.left_equal x y) (hR.refl _) fun p m₃ m' =>
      Interlude.of_from (hpure _ m₃)
  | compare op a b =>
    rw [run, eval]
    refine .bind hR (Moment.left_eval a) (hR.refl _) fun x m₁ hx => ?_
    refine .bind hR (Moment.left_eval b) (hR.refl _) fun y m₂ hy => ?_
    exact .done fun m' => Interlude.of_from (.compared L trivial op x y)
  | logic op a b =>
    rw [run, eval]
    refine .bind hR (Moment.left_eval a) (hR.refl _) fun x m₁ hx => ?_
    cases x with
    | bool p =>
      have htruth : Value.truth (.connective op) (.bool p) = (pure p : Eval Bool) := rfl
      rw [htruth, pure_bind]
      by_cases hp : p = op.decisive
      · simp only [second?, if_pos hp]
        exact .done fun m' => Interlude.of_from (hpure _ m₁)
      · simp only [second?, if_neg hp]
        refine .bind hR (Moment.left_eval b) (hR.refl _) fun y m₂ hy => ?_
        exact .done fun m' => Interlude.of_from (hbool y _ _ m₂)
    | _ =>
      exact .nothing hR
  | not a =>
    rw [run, eval]
    refine .bind hR (Moment.left_eval a) (hR.refl _) fun x m₁ hx => ?_
    exact .done fun m' => Interlude.of_from (hbool x _ _ m₁)
  | call name args =>
    rw [run, eval]
    have hcallee {r : Except Fault Callee} {m₁ : Machine}
        (h : ctx.calleeOf s.scope name args.length s.machine = some (r, m₁)) : R s.machine m₁ :=
      Context.machine_of_calleeOf h ▸ hR.refl s.machine
    refine .step (fun r m₁ h => hcallee h) fun callee m₁ h => ?_
    refine .bind hR (Moment.left_evalAll args) (hcallee h) fun vs m₂ hvs => ?_
    cases callee with
    | builtin b =>
      have happly : (interlude R).From m₂ (b.apply vs) fun _ _ => True :=
        .builtin L (fun _ => trivial) trivial fun _ _ => trivial
      exact .done fun m' => Interlude.of_from happly
    | function f =>
      exact .last hR (Moment.left_call f vs) (hR.refl _) fun c m₃ m' =>
        Interlude.of_from (hpure _ m₃)
  | list es =>
    rw [run, eval]
    refine .last hR (Moment.left_evalAll es) (hR.refl _) fun vs m₁ m' h => ?_
    cases h
    exact hR.alloc m₁ _
  | index base position =>
    rw [run, eval]
    refine .bind hR (Moment.left_eval base) (hR.refl _) fun x m₁ hx => ?_
    refine .bind hR (Moment.left_eval position) (hR.refl _) fun y m₂ hy => ?_
    have hindex : (interlude R).From m₂ (y.position >>= fun i => x.index i) fun _ _ => True :=
      .bind L (.position L trivial y) fun i m₃ _ _ => .index L trivial trivial trivial i
    exact .done fun m' => Interlude.of_from hindex

theorem Expr.inTurn_all (hR : Interlude R) (es : List Expr) :
    InTurn ctx R s.machine (Moment.parts ctx ⟨fuel, .evalAll es, s⟩)
      (Action.left id (Expr.evalAll ctx (ctx.calls fuel) s.scope es s.machine)) := by
  have L := hR.lawful
  cases es with
  | nil =>
    exact .nothing hR
  | cons e es =>
    rw [evalAll]
    refine .bind hR (Moment.left_eval e) (hR.refl _) fun v m₁ hv => ?_
    refine .last hR (Moment.left_evalAll es) (hR.refl _) fun vs m₂ m' h => ?_
    cases h
    exact hR.refl m₂

/-! ### Statements -/

/-- The one part of a statement with an operand: when it ends, no more than a check, a binding or an
exit is to come. -/
theorem InTurn.operand (hR : Interlude R) {e : Expr} {f : Value → Exec Value}
    (hf : ∀ v a, (interlude R).Runs a (f v) (interlude R).Yields) :
    InTurn ctx R s.machine [⟨fuel, .eval e, s⟩]
      (Action.left Activation.machine
        (((Exec.eval fun scope => e.run ctx fuel scope) >>= f) s)) :=
  .last hR (Exec.left_map _ _ s) (hR.refl _) fun v a _ => Interlude.of_runs (hf v a)

/-- A loop is left when its turns are over. -/
theorem Exec.left_inLoop (hR : Interlude R) {x : Exec Value} {m'' : Machine}
    (h : Action.left Activation.machine (Exec.inLoop x s) = some m'') :
    ∃ m', Action.left Activation.machine (x ⟨s.scope, s.machine.enterLoop⟩) = some m' ∧
      R m' m'' := by
  obtain ⟨scope, m⟩ := s
  simp only [inLoop] at h
  cases hx : x ⟨scope, m.enterLoop⟩ with
  | none =>
    rw [hx] at h
    cases h
  | some p =>
    obtain ⟨r, b⟩ := p
    rw [hx] at h
    cases h
    exact ⟨b.machine, rfl, hR.leaveLoop b.machine r⟩

theorem Exec.evalTruth_bind {β : Type} (describe : Shape → Mismatch) (p : Bool)
    (k : Bool → Exec β) :
    ((Exec.eval fun _ => Value.truth describe (.bool p)) >>= k) = k p := by
  funext a
  rfl

/-- An expression and what is made of its value, one after the other. -/
theorem Exec.eval_run_bind {α : Type} (e : Expr) (f : Value → Eval α) :
    (Exec.eval fun scope => e.eval ctx (ctx.calls fuel) scope >>= f) =
      (Exec.eval fun scope => e.run ctx fuel scope) >>= fun x => Exec.eval fun _ => f x :=
  Exec.eval_bind _ fun x _ => f x

/-- The two bounds of a range and what is made of them, one after the other. -/
theorem Exec.eval_bounds (start stop : Expr) :
    (Exec.eval fun scope => start.eval ctx (ctx.calls fuel) scope >>= fun x =>
      stop.eval ctx (ctx.calls fuel) scope >>= fun y => Loop.bounds x y) =
      (Exec.eval fun scope => start.run ctx fuel scope) >>= fun x =>
        (Exec.eval fun scope => stop.run ctx fuel scope) >>= fun y =>
          Exec.eval fun _ => Loop.bounds x y := by
  refine (Exec.eval_bind _ fun x scope =>
    stop.eval ctx (ctx.calls fuel) scope >>= fun y => Loop.bounds x y).trans ?_
  exact congrArg _ (funext fun x => Exec.eval_run_bind stop (Loop.bounds x))

/-- The handler starts from the machine that the body leaves, with the text of the fault stored. -/
theorem Stmt.interlude_handlerStart? (hR : Interlude R) {body : List Stmt} {name : String}
    {scope : Scope} {b : Activation}
    (h : Stmt.handlerStart? ctx fuel body name s = some (scope, b)) {m : Machine}
    (hm : Moment.left ctx ⟨fuel, .execAll .unit body, s⟩ = some m) : R m b.machine := by
  rw [Moment.left_execAll] at hm
  unfold handlerStart? at h
  split at h
  · next f c hc =>
    split at h
    · cases h
    · cases h
      rw [hc] at hm
      cases hm
      exact hR.trans (hR.caught c.machine f) (hR.alloc _ _)
  · cases h

theorem Stmt.inTurn (hR : Interlude R) (t : Stmt) :
    InTurn ctx R s.machine (t.parts ctx fuel s)
      (Action.left Activation.machine (t.run ctx fuel s)) := by
  have L := hR.lawful
  have henter : R s.machine s.machine.enterLoop := hR.count rfl rfl rfl rfl
  cases t with
  | declare name ty e =>
    rw [run, exec]
    refine InTurn.operand hR fun v a => ?_
    exact .rebind L (ready_interlude R a) (fun _ _ => trivial) fun _ _ => hR.refl _
  | assign name e =>
    rw [run, exec]
    refine InTurn.operand hR fun v a => ?_
    exact .rebind L (ready_interlude R a) (fun _ _ => trivial) fun _ _ => hR.refl _
  | ret value =>
    cases value with
    | none =>
      exact .nothing hR
    | some e =>
      rw [run, exec]
      refine InTurn.operand hR fun v a => ?_
      exact .throw L (ready_interlude R _) (fun f hf => by cases hf) fun _ _ => trivial
  | cond test yes no =>
    rw [run, exec, Exec.eval_run_bind, bind_assoc]
    refine .bindEval (x := fun scope => test.run ctx fuel scope) hR (Moment.left_eval test)
      (hR.refl _) fun x m hx => ?_
    cases x with
    | bool p =>
      rw [Exec.evalTruth_bind]
      refine .only hR (hR.refl _) ?_
      rw [Moment.left_execAll]
      cases p <;> rfl
    | _ =>
      exact .nothing hR
  | whileDo test body =>
    rw [run, exec]
    refine .of_out hR (.of_start hR henter ?_) fun m'' => Exec.left_inLoop hR
    refine .last hR rfl (hR.refl _) fun v a m' h => ?_
    cases h
    exact hR.refl _
  | forRange name start stop body =>
    rw [run, exec]
    refine .of_out hR (.of_start hR henter ?_) fun m'' => Exec.left_inLoop hR
    rw [Exec.eval_bounds, bind_assoc]
    refine .bindEval (x := fun scope => start.run ctx fuel scope) hR (Moment.left_eval start)
      (hR.refl _) fun x m hx => ?_
    rw [bind_assoc]
    refine .bindEval (x := fun scope => stop.run ctx fuel scope) hR (Moment.left_eval stop)
      (hR.refl _) fun y m' hy => ?_
    rw [← bind_assoc]
    cases x with
    | int i =>
      cases y with
      | int j =>
        refine .last hR rfl (hR.refl _) fun v a m'' h => ?_
        cases h
        exact hR.refl _
      | _ =>
        exact .nothing hR
    | _ =>
      exact .nothing hR
  | breakLoop =>
    exact .nothing hR
  | continueLoop =>
    exact .nothing hR
  | block body =>
    rw [run, exec]
    exact .only hR (hR.refl _) (Moment.left_execAll .unit body)
  | guarded body name handler =>
    rw [run_guarded]
    simp only [parts]
    cases hstart : Stmt.handlerStart? ctx fuel body name s with
    | none => exact .only hR (hR.refl _) (Moment.left_execAll .unit body)
    | some p =>
      obtain ⟨scope, b⟩ := p
      refine .part (hR.refl _) (fun m hm => ?_) fun hnone => ?_
      · refine .only hR (Stmt.interlude_handlerStart? hR hstart hm) ?_
        rw [Moment.left_execAll]
        dsimp only
        cases Stmt.execAll ctx (ctx.calls fuel) fuel .unit handler b <;> rfl
      · rw [Moment.left_execAll] at hnone
        rw [handlerStart?, Option.map_eq_none_iff.mp hnone] at hstart
        cases hstart
  | raise e =>
    rw [run, exec, Exec.eval_run_bind, bind_assoc]
    refine .bindEval (x := fun scope => e.run ctx fuel scope) hR (Moment.left_eval e)
      (hR.refl _) fun v m hv => ?_
    refine .last hR (Exec.left_map _ _ _) (hR.refl _) fun text a m' h => ?_
    cases h
    exact hR.refl _
  | expr e =>
    rw [run, exec]
    exact .only hR (hR.refl _) (Exec.left_map _ _ s)

/-! ### Loops and calls -/

theorem Task.inTurn_whileTrue (hR : Interlude R) (test : Expr) (body : List Stmt)
    (tests taken : Nat) :
    InTurn ctx R s.machine (Moment.parts ctx ⟨fuel, .whileTrue test body (tests + 1) taken, s⟩)
      (Moment.left ctx ⟨fuel, .whileTrue test body (tests + 1) taken, s⟩) := by
  have htest : (Exec.eval fun scope =>
        test.run ctx fuel scope >>= Value.truth (.condition .whileDo)) =
      (Exec.eval fun scope => test.run ctx fuel scope) >>= fun x =>
        Exec.eval fun _ => Value.truth (.condition .whileDo) x := Exec.eval_run_bind test _
  rw [Moment.left]
  simp only [run]
  rw [Loop.whileTrue, htest, bind_assoc]
  refine .bindEval (x := fun scope => test.run ctx fuel scope) hR (Moment.left_eval test)
    (hR.refl _) fun x m hx => ?_
  cases x with
  | bool p =>
    rw [Exec.evalTruth_bind]
    cases p with
    | false =>
      exact .nothing hR
    | true =>
      rw [if_pos rfl]
      cases hadmit : ctx.limits.admitTurn taken with
      | error f =>
        exact .nothing hR
      | ok u =>
        refine .bind hR (Moment.left_turn body) (hR.refl _) fun on b hb => ?_
        cases on with
        | true =>
          refine .only hR (hR.refl _) ?_
          rw [if_pos rfl, ← htest]
          rfl
        | false =>
          exact .nothing hR
  | _ =>
    exact .nothing hR

theorem Task.inTurn_range (hR : Interlude R) (name : String) (body : List Stmt) (left taken : Nat)
    (i : Int64) :
    InTurn ctx R s.machine (Moment.parts ctx ⟨fuel, .range name body (left + 1) taken i, s⟩)
      (Moment.left ctx ⟨fuel, .range name body (left + 1) taken i, s⟩) := by
  rw [Moment.left]
  simp only [run, Moment.parts]
  rw [Loop.range]
  cases hadmit : ctx.limits.admitTurn taken with
  | error f =>
    exact .nothing hR
  | ok u =>
    refine .bind hR (Moment.left_turn body) (hR.refl _) fun on b hb => ?_
    cases on with
    | true => exact .only hR (hR.refl _) rfl
    | false =>
      exact .nothing hR

theorem Task.inTurn_call (hR : Ratchet R) (f : Function) (args : List Value) :
    InTurn ctx R s.machine (Moment.parts ctx ⟨fuel + 1, .call f args, s⟩)
      (Moment.left ctx ⟨fuel + 1, .call f args, s⟩) := by
  rw [Moment.left_call, Context.calls, Call.dispatch_apply]
  simp only [Moment.parts]
  cases Call.entry ctx s.scope f args s.machine with
  | error g =>
    exact .nothing hR.interlude
  | ok scope =>
    have henter : R s.machine s.machine.enterCall := hR.quiet rfl rfl rfl
    refine .of_out hR.interlude (.only hR.interlude henter (Moment.left_execAll .unit f.body))
      fun m'' h => ?_
    dsimp only at h ⊢
    cases hrun :
      Stmt.execAll ctx (ctx.calls fuel) fuel .unit f.body ⟨scope, s.machine.enterCall⟩ with
    | none =>
      rw [hrun] at h
      cases h
    | some p =>
      obtain ⟨outcome, b⟩ := p
      have hleave : R b.machine b.machine.leaveCall := hR.quiet rfl rfl rfl
      refine ⟨b.machine, rfl, ?_⟩
      rw [hrun] at h
      dsimp only at h
      cases hcatch : catchReturn outcome with
      | ok c =>
        rw [hcatch] at h
        dsimp only at h
        rw [Call.complete_apply] at h
        cases h
        exact hR.trans hleave (hR.record _ f.name c)
      | error e =>
        rw [hcatch] at h
        cases h
        exact hleave

/-- The parts of a moment that calls nothing itself are carried out in turn. -/
theorem Moment.inTurn_between (hR : Interlude R) {c : Moment}
    (hcall : ∀ f args, c.task ≠ .call f args) :
    InTurn ctx R c.start.machine (c.parts ctx) (c.left ctx) := by
  obtain ⟨fuel, task, s⟩ := c
  cases task with
  | eval e =>
    rw [left_eval]
    exact e.inTurn hR
  | evalAll es =>
    rw [left_evalAll]
    exact Expr.inTurn_all hR es
  | exec t =>
    rw [left_exec]
    exact t.inTurn hR
  | execAll last body =>
    cases body with
    | nil =>
      exact .nothing hR
    | cons t rest =>
      rw [left_execAll, Stmt.execAll]
      refine .bind hR (left_exec t) (hR.refl _) fun v b hv => ?_
      exact .only hR (hR.refl _) (left_execAll v rest)
  | whileTrue test body tests taken =>
    cases tests with
    | zero => exact .done fun m' h => by cases h
    | succ tests => exact Task.inTurn_whileTrue hR test body tests taken
  | range name body left taken i =>
    cases left with
    | zero =>
      exact .nothing hR
    | succ left => exact Task.inTurn_range hR name body left taken i
  | call f args => exact absurd rfl (hcall f args)
  | equal x y =>
    rw [left_equal]
    exact .done fun m' => Interlude.of_from (.equal hR.lawful trivial x y)
  | shown v =>
    rw [left_shown]
    have hshown : (interlude R).From s.machine v.shown fun _ _ => True :=
      .observe hR.lawful trivial fun _ => trivial
    exact .done fun m' => Interlude.of_from hshown

/-- **The parts of a moment are carried out in turn.** -/
theorem Moment.inTurn (hR : Ratchet R) (c : Moment) :
    InTurn ctx R c.start.machine (c.parts ctx) (c.left ctx) := by
  by_cases hcall : ∃ f args, c.task = .call f args
  · obtain ⟨fuel, task, s⟩ := c
    obtain ⟨f, args, rfl⟩ := hcall
    cases fuel with
    | zero => exact .done fun m' h => by cases h
    | succ fuel => exact Task.inTurn_call hR f args
  · exact inTurn_between hR.interlude fun f args h => hcall ⟨f, args, h⟩

end Parts

end Imperative
