import Imperative.Proofs.Moments.Failing

/-!
# Where a failure comes from

A moment fails either because a part of it does (`Moment.HasFailing`), or because it can do nothing
with what its parts have come to.  In the second case all of its parts are completed, the last of
them leaves a certain activation, and the moment is *served* by then (`Moment.Served`).  What is
left of the moment is clean, so it fails where it was served, with nothing done in between, and not
because of a limit.  This is the alternative for expressions (`Expr.fails_served`) and for
statements (`Stmt.fails_served`), except that a statement has to leave its loop.
-/

namespace Imperative

open Imperative.Action

/-! ## Being served -/

namespace Moment

/-- The task is completed, and leaves this activation. -/
def Completes (ctx : Context) (c : Moment) (b : Activation) : Prop :=
  c.task.run ctx c.fuel c.start = some (.ok (), b)

/-- All of the moments are completed.  The last of them leaves the second activation, and if there
are none, it is the first one. -/
def AllComplete (ctx : Context) : List Moment → Activation → Activation → Prop
  | [], s, b => b = s
  | d :: ds, _, b => ∃ s, d.Completes ctx s ∧ AllComplete ctx ds s b

/-- All parts of the moment are completed, and leave this activation. -/
def Served (ctx : Context) (c : Moment) (b : Activation) : Prop :=
  AllComplete ctx (c.parts ctx) c.start b

/-- A moment has a part that fails with a fault. -/
def HasFailing (ctx : Context) (c : Moment) (f : Fault) : Prop :=
  ∃ d b, Starts ctx c d ∧ d.Fails ctx f b

variable {ctx : Context} {fuel : Nat} {s b : Activation} {f : Fault}

theorem AllComplete.completes {ds : List Moment} (h : AllComplete ctx ds s b) {d : Moment}
    (hd : d ∈ ds) : ∃ b', d.Completes ctx b' := by
  induction ds generalizing s with
  | nil => cases hd
  | cons e es ih =>
    obtain ⟨s', hcompletes, hrest⟩ := h
    rcases List.mem_cons.mp hd with rfl | hd
    · exact ⟨s', hcompletes⟩
    · exact ih hrest hd

theorem AllComplete.unique {ds : List Moment} {b' : Activation} (h : AllComplete ctx ds s b)
    (h' : AllComplete ctx ds s b') : b = b' := by
  induction ds generalizing s with
  | nil => exact h.trans h'.symm
  | cons d ds ih =>
    obtain ⟨t, ht, hrest⟩ := h
    obtain ⟨t', ht', hrest'⟩ := h'
    cases ht.symm.trans ht'
    exact ih hrest hrest'

section Parts

variable {c d e : Moment}

theorem served_of_nil (h : c.parts ctx = []) : c.Served ctx c.start := by
  rw [Served, h]
  rfl

theorem served_of_one (h : c.parts ctx = [d]) (hd : d.Completes ctx b) : c.Served ctx b := by
  rw [Served, h]
  exact ⟨b, hd, rfl⟩

theorem served_of_two (h : c.parts ctx = [d, e]) (hd : d.Completes ctx s)
    (he : e.Completes ctx b) : c.Served ctx b := by
  rw [Served, h]
  exact ⟨s, hd, b, he, rfl⟩

end Parts

/-- A moment that is served has no failing parts. -/
theorem Served.not_hasFailing {c : Moment} (h : c.Served ctx b) : ¬ c.HasFailing ctx f := by
  rintro ⟨d, b', hstarts, hfails⟩
  obtain ⟨b'', hcompletes⟩ := AllComplete.completes h (mem_parts.mpr hstarts)
  cases hfails.symm.trans hcompletes

theorem completes_eval {e : Expr} :
    Moment.Completes ctx ⟨fuel, .eval e, s⟩ b ↔
      (∃ v, e.run ctx fuel s.scope s.machine = some (.ok v, b.machine)) ∧ b.scope = s.scope := by
  rw [Completes, Task.run, map_eq_ok]
  simp only [and_true, Exec.eval_eq_ok, exists_and_right]

theorem completes_evalAll {es : List Expr} :
    Moment.Completes ctx ⟨fuel, .evalAll es, s⟩ b ↔
      (∃ vs, Expr.evalAll ctx (ctx.calls fuel) s.scope es s.machine = some (.ok vs, b.machine)) ∧
        b.scope = s.scope := by
  rw [Completes, Task.run, map_eq_ok]
  simp only [and_true, Exec.eval_eq_ok, exists_and_right]

theorem completes_shown {v : Value} :
    Moment.Completes ctx ⟨fuel, .shown v, s⟩ b ↔
      (∃ text, v.shown s.machine = some (.ok text, b.machine)) ∧ b.scope = s.scope := by
  rw [Completes, Task.run, map_eq_ok]
  simp only [and_true, Exec.eval_eq_ok, exists_and_right]

/-- The moment is served here, and the rest of it fails, not because of a limit. -/
structure Declines (ctx : Context) (c : Moment) (f : Fault) (b : Activation) : Prop where
  served : c.Served ctx b
  limit : f.isLimit = false

end Moment

/-! ## Expressions -/

section Expressions

variable {ctx : Context} {fuel : Nat} {s : Activation} {m₁ m' : Machine} {f : Fault} {e a b : Expr}
  {x y : Value}

theorem Expr.hasFailing_first (hfirst : e.first? = some a)
    (h : a.run ctx fuel s.scope s.machine = some (.error f, m')) :
    Moment.HasFailing ctx ⟨fuel, .eval e, s⟩ f :=
  ⟨_, ⟨s.scope, m'⟩, .first hfirst, Moment.fails_eval.mpr ⟨h, rfl⟩⟩

theorem Expr.hasFailing_second (hfirst : e.first? = some a)
    (hx : a.run ctx fuel s.scope s.machine = some (.ok x, m₁)) (hsecond : e.second? x = some b)
    (h : b.run ctx fuel s.scope m₁ = some (.error f, m')) :
    Moment.HasFailing ctx ⟨fuel, .eval e, s⟩ f :=
  ⟨_, ⟨s.scope, m'⟩, .second hfirst hx hsecond, Moment.fails_eval.mpr ⟨h, rfl⟩⟩

theorem Expr.served_first (hfirst : e.first? = some a)
    (hx : a.run ctx fuel s.scope s.machine = some (.ok x, m')) (hsecond : e.second? x = none) :
    Moment.Served ctx ⟨fuel, .eval e, s⟩ ⟨s.scope, m'⟩ := by
  have hparts : Moment.parts ctx ⟨fuel, .eval e, s⟩ = [⟨fuel, .eval a, s⟩] := by
    simp [Moment.parts, parts, hfirst, hx, hsecond]
  exact Moment.served_of_one hparts (Moment.completes_eval.mpr ⟨⟨x, hx⟩, rfl⟩)

theorem Expr.served_second (hfirst : e.first? = some a)
    (hx : a.run ctx fuel s.scope s.machine = some (.ok x, m₁)) (hsecond : e.second? x = some b)
    (hy : b.run ctx fuel s.scope m₁ = some (.ok y, m')) (hequates : e.equates = false) :
    Moment.Served ctx ⟨fuel, .eval e, s⟩ ⟨s.scope, m'⟩ := by
  have hparts : Moment.parts ctx ⟨fuel, .eval e, s⟩ =
      [⟨fuel, .eval a, s⟩, ⟨fuel, .eval b, ⟨s.scope, m₁⟩⟩] := by
    simp [Moment.parts, parts, hfirst, hx, hsecond, hy, hequates]
  have hcompletes : Moment.Completes ctx ⟨fuel, .eval a, s⟩ ⟨s.scope, m₁⟩ :=
    Moment.completes_eval.mpr ⟨⟨x, hx⟩, rfl⟩
  exact Moment.served_of_two hparts hcompletes (Moment.completes_eval.mpr ⟨⟨y, hy⟩, rfl⟩)

/-- An operator with one operand fails because the operand does, or declines it. -/
theorem Expr.unary_fails {o : Value → Eval Value} (hfirst : e.first? = some a)
    (hsecond : ∀ x, e.second? x = none) (ho : ∀ x, (o x).Clean)
    (h : (a.run ctx fuel s.scope >>= o) s.machine = some (.error f, m')) :
    Moment.HasFailing ctx ⟨fuel, .eval e, s⟩ f ∨
      Moment.Declines ctx ⟨fuel, .eval e, s⟩ f ⟨s.scope, m'⟩ := by
  rcases bind_eq_error.mp h with h | ⟨x, m₁, hx, h⟩
  · exact .inl (hasFailing_first hfirst h)
  · obtain ⟨rfl, hlimit⟩ := ho x m₁ f m' h
    exact .inr ⟨served_first hfirst hx (hsecond x), hlimit⟩

/-- An operator with two operands fails because one of them does, or declines them. -/
theorem Expr.binary_fails {o : Value → Value → Eval Value} (hfirst : e.first? = some a)
    (hsecond : ∀ x, e.second? x = some b) (hequates : e.equates = false)
    (ho : ∀ x y, (o x y).Clean)
    (h : (do o (← a.run ctx fuel s.scope) (← b.run ctx fuel s.scope)) s.machine =
      some (.error f, m')) :
    Moment.HasFailing ctx ⟨fuel, .eval e, s⟩ f ∨
      Moment.Declines ctx ⟨fuel, .eval e, s⟩ f ⟨s.scope, m'⟩ := by
  rcases bind_eq_error.mp h with h | ⟨x, m₁, hx, h⟩
  · exact .inl (hasFailing_first hfirst h)
  · rcases bind_eq_error.mp h with h | ⟨y, m₂, hy, h⟩
    · exact .inl (hasFailing_second hfirst hx (hsecond x) h)
    · obtain ⟨rfl, hlimit⟩ := ho x y m₂ f m' h
      exact .inr ⟨served_second hfirst hx (hsecond x) hy hequates, hlimit⟩

/-- An equation fails because one of its sides does. -/
theorem Expr.equation_fails {answer : Bool → Value} (hfirst : e.first? = some a)
    (hsecond : ∀ x, e.second? x = some b)
    (h : (do
        let x ← a.run ctx fuel s.scope
        let y ← b.run ctx fuel s.scope
        return answer (← x.equal y)) s.machine = some (.error f, m')) :
    Moment.HasFailing ctx ⟨fuel, .eval e, s⟩ f := by
  rcases bind_eq_error.mp h with h | ⟨x, m₁, hx, h⟩
  · exact hasFailing_first hfirst h
  · rcases bind_eq_error.mp h with h | ⟨y, m₂, -, h⟩
    · exact hasFailing_second hfirst hx (hsecond x) h
    · rcases bind_eq_error.mp h with h | ⟨p, m₃, -, h⟩
      · simp [Value.equal, Eval.observe] at h
      · cases h

/-- What is no truth value is not followed by a second operand. -/
theorem Expr.second?_logic {op : LogicOp} {describe : Shape → Mismatch}
    (h : x.truth describe m₁ = some (.error f, m')) : (Expr.logic op a b).second? x = none := by
  cases x with
  | bool p => cases h
  | _ => rfl

theorem Expr.operator_fails (hfirst : e.first? = some a)
    (h : e.run ctx fuel s.scope s.machine = some (.error f, m')) :
    Moment.HasFailing ctx ⟨fuel, .eval e, s⟩ f ∨
      Moment.Declines ctx ⟨fuel, .eval e, s⟩ f ⟨s.scope, m'⟩ := by
  cases e with
  | arith op a' b =>
    rw [run, eval] at h
    cases hfirst
    exact binary_fails rfl (fun _ => rfl) rfl (fun x y => (x.primitive_arithmetic op y).clean) h
  | compare op a' b =>
    rw [run, eval] at h
    cases hfirst
    exact binary_fails rfl (fun _ => rfl) rfl (fun x y => (x.primitive_compared op y).clean) h
  | index base position =>
    rw [run, eval] at h
    cases hfirst
    exact binary_fails rfl (fun _ => rfl) rfl (fun x y => (x.primitive_indexAt y).clean) h
  | eq a' b =>
    rw [run, eval] at h
    cases hfirst
    exact .inl (equation_fails rfl (fun _ => rfl) h)
  | ne a' b =>
    rw [run, eval] at h
    cases hfirst
    exact .inl (equation_fails rfl (fun _ => rfl) h)
  | neg e =>
    rw [run, eval] at h
    cases hfirst
    exact unary_fails rfl (fun _ => rfl) (fun x => x.primitive_negate.clean) h
  | not e =>
    rw [run, eval] at h
    cases hfirst
    exact unary_fails rfl (fun _ => rfl)
      (fun x => (x.primitive_truth _).clean.map fun p => Value.bool (!p)) h
  | logic op a' b =>
    rw [run, eval] at h
    cases hfirst
    rcases bind_eq_error.mp h with hx | ⟨x, m₁, hx, htruth⟩
    · exact .inl (hasFailing_first rfl hx)
    rcases bind_eq_error.mp htruth with htruth | ⟨p, m₂, hp, hrest⟩
    · obtain ⟨rfl, hlimit⟩ := (x.primitive_truth _).clean m₁ f m' htruth
      exact .inr ⟨served_first rfl hx (second?_logic htruth), hlimit⟩
    obtain ⟨rfl, rfl⟩ := Value.truth_eq_ok.mp hp
    by_cases hdecisive : p = op.decisive
    · rw [if_pos hdecisive] at hrest
      cases hrest
    have hsecond : (Expr.logic op a b).second? (.bool p) = some b := by simp [second?, hdecisive]
    rw [if_neg hdecisive] at hrest
    rcases bind_eq_error.mp hrest with hy | ⟨y, m₃, hy, htruth⟩
    · exact .inl (hasFailing_second rfl hx hsecond hy)
    · obtain ⟨rfl, hlimit⟩ := ((y.primitive_truth _).clean.map Value.bool) m₃ f m' htruth
      exact .inr ⟨served_second rfl hx hsecond hy rfl, hlimit⟩
  | _ => cases hfirst

theorem Expr.call_fails {name : String} {args : List Expr}
    (h : (Expr.call name args).run ctx fuel s.scope s.machine = some (.error f, m')) :
    Moment.HasFailing ctx ⟨fuel, .eval (.call name args), s⟩ f ∨
      Moment.Declines ctx ⟨fuel, .eval (.call name args), s⟩ f ⟨s.scope, m'⟩ := by
  rw [run, eval] at h
  rcases bind_eq_error.mp h with h | ⟨callee, m₁, hcallee, h⟩
  · obtain ⟨rfl, hlimit⟩ := (ctx.primitive_calleeOf s.scope name args.length).clean s.machine f m' h
    have hparts : Moment.parts ctx ⟨fuel, .eval (.call name args), s⟩ = [] := by
      simp [Moment.parts, parts, first?, h]
    exact .inr ⟨Moment.served_of_nil hparts, hlimit⟩
  rcases bind_eq_error.mp h with h | ⟨vs, m₂, hvs, h⟩
  · exact .inl ⟨_, ⟨s.scope, m'⟩, .args hcallee, Moment.fails_evalAll.mpr ⟨h, rfl⟩⟩
  cases callee with
  | builtin b =>
    obtain ⟨hm, hlimit⟩ := (b.primitive_apply vs).clean m₂ f m' h
    subst hm
    have hparts : Moment.parts ctx ⟨fuel, .eval (.call name args), s⟩ =
        [⟨fuel, .evalAll args, ⟨s.scope, m₁⟩⟩] := by
      simp [Moment.parts, parts, first?, hcallee, hvs]
    have hargs : Moment.Completes ctx ⟨fuel, .evalAll args, ⟨s.scope, m₁⟩⟩ ⟨s.scope, m'⟩ :=
      Moment.completes_evalAll.mpr ⟨⟨vs, hvs⟩, rfl⟩
    exact .inr ⟨Moment.served_of_one hparts hargs, hlimit⟩
  | function g =>
    rcases bind_eq_error.mp h with h | ⟨c, m₃, -, h⟩
    · exact .inl ⟨_, ⟨s.scope, m'⟩, .call hcallee hvs, Moment.fails_call.mpr ⟨h, rfl⟩⟩
    · cases h

/-- **An expression fails because a part of it does, or declines what its parts have come to.** -/
theorem Expr.fails_served (h : e.run ctx fuel s.scope s.machine = some (.error f, m')) :
    Moment.HasFailing ctx ⟨fuel, .eval e, s⟩ f ∨
      Moment.Declines ctx ⟨fuel, .eval e, s⟩ f ⟨s.scope, m'⟩ := by
  cases hfirst : e.first? with
  | some a => exact operator_fails hfirst h
  | none =>
    cases hlisted : e.listed? with
    | none =>
      obtain ⟨rfl, hlimit⟩ := (primitive_atom hfirst hlisted s.scope).clean s.machine f m' h
      have hparts : Moment.parts ctx ⟨fuel, .eval e, s⟩ = [] := by
        cases e <;> simp_all [Moment.parts, parts, first?, listed?]
      exact .inr ⟨Moment.served_of_nil hparts, hlimit⟩
    | some es =>
      cases e with
      | call name args => exact call_fails h
      | list es' =>
        rw [run, eval] at h
        rcases bind_eq_error.mp h with h | ⟨vs, m₁, -, h⟩
        · exact .inl ⟨_, ⟨s.scope, m'⟩, .elements, Moment.fails_evalAll.mpr ⟨h, rfl⟩⟩
        · cases h
      | _ => cases hlisted

end Expressions

/-! ## Statements -/

section Statements

variable {ctx : Context} {fuel : Nat} {s b : Activation} {f : Fault}

/-- What is evaluated and then put to a clean use fails because the evaluation does, or where the
evaluation ends. -/
theorem Exec.eval_bind_fails {α : Type} {e : Expr} {next : Value → Eval α}
    (hnext : ∀ v, (next v).Clean)
    (h : Exec.eval (fun scope => e.run ctx fuel scope >>= next) s = some (.error (.failed f), b)) :
    Moment.Fails ctx ⟨fuel, .eval e, s⟩ f b ∨
      f.isLimit = false ∧ ∃ v, e.run ctx fuel s.scope s.machine = some (.ok v, b.machine) ∧
        next v b.machine = some (.error f, b.machine) ∧ b.scope = s.scope := by
  obtain ⟨h, hscope⟩ := Exec.eval_eq_failed.mp h
  rcases bind_eq_error.mp h with h | ⟨v, m₁, hv, h⟩
  · exact .inl (Moment.fails_eval.mpr ⟨h, hscope⟩)
  · obtain ⟨hm, hlimit⟩ := hnext v m₁ f b.machine h
    subst hm
    exact .inr ⟨hlimit, v, hv, h, hscope⟩

theorem Exec.rescope_eq_failed {g : Scope → Heap → Except Fault Scope}
    (h : Exec.rescope g s = some (.error (.failed f), b)) :
    g s.scope s.machine.heap = .error f ∧ b = s := by
  obtain ⟨scope, m⟩ := s
  simp only [Exec.rescope] at h
  split at h <;> cases h
  exact ⟨‹_›, rfl⟩

theorem Exec.inLoop_eq_failed {α : Type} {x : Exec α}
    (h : Exec.inLoop x s = some (.error (.failed f), b)) :
    ∃ b', x ⟨s.scope, s.machine.enterLoop⟩ = some (.error (.failed f), b') ∧
      b = ⟨b'.scope, { b'.machine with activeLoops := b'.machine.activeLoops - 1 }⟩ := by
  obtain ⟨scope, m⟩ := s
  simp only [Exec.inLoop] at h
  split at h <;> cases h
  exact ⟨_, ‹_›, rfl⟩

/-- The statement is served, and the rest of it fails, not because of a limit, with nothing done but
that a loop is left. -/
def Stmt.Declines (ctx : Context) (fuel : Nat) (t : Stmt) (s : Activation) (f : Fault)
    (b : Activation) : Prop :=
  ∃ m, Moment.Declines ctx ⟨fuel, .exec t, s⟩ f ⟨s.scope, m⟩ ∧ b.scope = s.scope ∧
    b.machine = { m with activeLoops := b.machine.activeLoops }

theorem Stmt.declines_of_one {t : Stmt} {d : Moment} (hlimit : f.isLimit = false)
    (hparts : t.parts ctx fuel s = [d]) (hd : d.Completes ctx b) (hscope : b.scope = s.scope) :
    t.Declines ctx fuel s f b := by
  obtain ⟨scope, m⟩ := b
  cases hscope
  exact ⟨m, ⟨Moment.served_of_one hparts hd, hlimit⟩, rfl, rfl⟩

/-- A statement that changes its scope after it has evaluated its operand. -/
theorem Stmt.rescoping_fails {t : Stmt} {e : Expr} {g : Value → Scope → Heap → Except Fault Scope}
    (hoperand : t.operand? = some e) (hparts : t.parts ctx fuel s = [⟨fuel, .eval e, s⟩])
    (hg : ∀ v scope h, g v scope h = .error f → f.isLimit = false)
    (h : (do
        let v ← Exec.eval fun scope => e.run ctx fuel scope
        Exec.rescope (g v)
        return .unit : Exec Value) s = some (.error (.failed f), b)) :
    Moment.HasFailing ctx ⟨fuel, .exec t, s⟩ f ∨ t.Declines ctx fuel s f b := by
  rcases bind_eq_error.mp h with h | ⟨v, b₁, hv, h⟩
  · exact .inl ⟨_, b, .operand hoperand, Moment.fails_eval.mpr (Exec.eval_eq_failed.mp h)⟩
  rcases bind_eq_error.mp h with h | ⟨u, b₂, -, h⟩
  · obtain ⟨hfault, rfl⟩ := Exec.rescope_eq_failed h
    obtain ⟨hv, hscope⟩ := Exec.eval_eq_ok.mp hv
    exact .inr (declines_of_one (hg v _ _ hfault) hparts
      (Moment.completes_eval.mpr ⟨⟨v, hv⟩, hscope⟩) hscope)
  · cases h

theorem Stmt.cond_fails {test : Expr} {yes no : List Stmt}
    (h : (Stmt.cond test yes no).run ctx fuel s = some (.error (.failed f), b)) :
    Moment.HasFailing ctx ⟨fuel, .exec (.cond test yes no), s⟩ f ∨
      (Stmt.cond test yes no).Declines ctx fuel s f b := by
  rw [run, exec] at h
  rcases bind_eq_error.mp h with h | ⟨p, b₁, hp, h⟩
  · rcases Exec.eval_bind_fails (fun v => (v.primitive_truth _).clean) h with
      htest | ⟨hlimit, v, hv, htruth, hscope⟩
    · exact .inl ⟨_, b, .operand rfl, htest⟩
    · have hparts : (Stmt.cond test yes no).parts ctx fuel s = [⟨fuel, .eval test, s⟩] := by
        cases v with
        | bool p => cases htruth
        | _ => simp [parts, hv]
      exact .inr (declines_of_one hlimit hparts
        (Moment.completes_eval.mpr ⟨⟨v, hv⟩, hscope⟩) hscope)
  · obtain ⟨m, htest, rfl⟩ := Expr.test_eq_ok.mp hp
    refine .inl ⟨_, b, .branch htest, Moment.fails_execAll.mpr ?_⟩
    cases p <;> exact h

theorem Stmt.raise_fails {e : Expr}
    (h : (Stmt.raise e).run ctx fuel s = some (.error (.failed f), b)) :
    Moment.HasFailing ctx ⟨fuel, .exec (.raise e), s⟩ f ∨
      (Stmt.raise e).Declines ctx fuel s f b := by
  rw [run, exec] at h
  rcases bind_eq_error.mp h with h | ⟨text, b₁, htext, h⟩
  · rcases Exec.eval_bind_fails Value.clean_shown h with he | ⟨-, v, -, hshown, -⟩
    · exact .inl ⟨_, b, .operand rfl, he⟩
    · simp [Value.shown, Eval.observe] at hshown
  · cases h
    obtain ⟨htext, hscope⟩ := Exec.eval_eq_ok.mp htext
    obtain ⟨v, m, hv, hshown⟩ := bind_eq_ok.mp htext
    obtain ⟨scope, m'⟩ := b
    cases hscope
    have hparts : (Stmt.raise e).parts ctx fuel s =
        [⟨fuel, .eval e, s⟩, ⟨fuel, .shown v, ⟨s.scope, m⟩⟩] := by
      simp [parts, Expr.run, hv]
    have hcompletes : Moment.Completes ctx ⟨fuel, .eval e, s⟩ ⟨s.scope, m⟩ :=
      Moment.completes_eval.mpr ⟨⟨v, hv⟩, rfl⟩
    have hserved := Moment.served_of_two (c := ⟨fuel, .exec (.raise e), s⟩) hparts hcompletes
      (Moment.completes_shown.mpr ⟨⟨text, hshown⟩, rfl⟩)
    exact .inr ⟨m', ⟨hserved, rfl⟩, rfl, rfl⟩

theorem Stmt.forRange_fails {name : String} {start stop : Expr} {body : List Stmt}
    (h : (Stmt.forRange name start stop body).run ctx fuel s = some (.error (.failed f), b)) :
    Moment.HasFailing ctx ⟨fuel, .exec (.forRange name start stop body), s⟩ f ∨
      (Stmt.forRange name start stop body).Declines ctx fuel s f b := by
  rw [run, exec] at h
  obtain ⟨b', hloop, rfl⟩ := Exec.inLoop_eq_failed h
  rcases bind_eq_error.mp hloop with hloop | ⟨⟨i, j⟩, b₁, hbounds, hloop⟩
  · obtain ⟨heval, hscope⟩ := Exec.eval_eq_failed.mp hloop
    rcases bind_eq_error.mp heval with hx | ⟨x, m₁, hx, heval⟩
    · exact .inl ⟨_, b', .lower, Moment.fails_eval.mpr ⟨hx, hscope⟩⟩
    rcases bind_eq_error.mp heval with hy | ⟨y, m₂, hy, hbounds⟩
    · exact .inl ⟨_, b', .upper hx, Moment.fails_eval.mpr ⟨hy, hscope⟩⟩
    obtain ⟨hm, hlimit⟩ := (Loop.primitive_bounds x y).clean m₂ f b'.machine hbounds
    have hparts : (Stmt.forRange name start stop body).parts ctx fuel s =
        [⟨fuel, .eval start, ⟨s.scope, s.machine.enterLoop⟩⟩,
          ⟨fuel, .eval stop, ⟨s.scope, m₁⟩⟩] := by
      simp only [parts, Expr.run, hx, hy, after_ok]
      cases x with
      | int i =>
        cases y with
        | int j => cases hbounds
        | _ => rfl
      | _ => rfl
    have hstart : Moment.Completes ctx ⟨fuel, .eval start, ⟨s.scope, s.machine.enterLoop⟩⟩
        ⟨s.scope, m₁⟩ := Moment.completes_eval.mpr ⟨⟨x, hx⟩, rfl⟩
    have hstop : Moment.Completes ctx ⟨fuel, .eval stop, ⟨s.scope, m₁⟩⟩ ⟨s.scope, m₂⟩ :=
      Moment.completes_eval.mpr ⟨⟨y, hy⟩, rfl⟩
    refine .inr ⟨m₂, ⟨Moment.served_of_two hparts hstart hstop, hlimit⟩, hscope, ?_⟩
    rw [hm]
  · obtain ⟨hok, hscope⟩ := Exec.eval_eq_ok.mp hbounds
    obtain ⟨x, m₁, hx, hok⟩ := bind_eq_ok.mp hok
    obtain ⟨y, m₂, hy, hok⟩ := bind_eq_ok.mp hok
    obtain ⟨rfl, rfl, hm⟩ := Loop.bounds_eq_ok.mp hok
    obtain ⟨scope₁, m₁'⟩ := b₁
    cases hscope
    cases hm
    rcases bind_eq_error.mp hloop with hrange | ⟨u, b₂, -, hunit⟩
    · exact .inl ⟨_, b', .range hx hy, hrange⟩
    · cases hunit

/-- A guarded body fails where the body does, or the handler. -/
theorem Stmt.guarded_fails {body handler : List Stmt} {name : String}
    (h : (Stmt.guarded body name handler).run ctx fuel s = some (.error (.failed f), b)) :
    ∃ d b', (Moment.parts ctx ⟨fuel, .exec (.guarded body name handler), s⟩).getLast? = some d ∧
      d.Fails ctx f b' := by
  rw [run_guarded] at h
  cases hstart : handlerStart? ctx fuel body name s with
  | none =>
    simp only [hstart] at h
    refine ⟨_, b, ?_, Moment.fails_execAll.mpr h⟩
    simp [Moment.parts, parts, hstart]
  | some p =>
    obtain ⟨scope, b₀⟩ := p
    simp only [hstart, Option.map_eq_some_iff, Prod.mk.injEq] at h
    obtain ⟨⟨r, b₁⟩, hhandler, rfl, -⟩ := h
    refine ⟨_, b₁, ?_, Moment.fails_execAll.mpr hhandler⟩
    simp [Moment.parts, parts, hstart]

/-- **A statement fails because a part of it does, or declines what its parts have come to.** -/
theorem Stmt.fails_served {t : Stmt} (h : t.run ctx fuel s = some (.error (.failed f), b)) :
    Moment.HasFailing ctx ⟨fuel, .exec t, s⟩ f ∨ t.Declines ctx fuel s f b := by
  cases t with
  | declare name ty e =>
    rw [run, exec] at h
    exact rescoping_fails rfl rfl (fun _ _ _ => Scope.isLimit_of_declare) h
  | assign name e =>
    rw [run, exec] at h
    exact rescoping_fails rfl rfl (fun _ _ _ => Scope.isLimit_of_assign) h
  | ret value =>
    rw [run] at h
    cases value with
    | none => cases h
    | some e =>
      rcases bind_eq_error.mp h with h | ⟨v, b₁, -, h⟩
      · exact .inl ⟨_, b, .operand rfl, Moment.fails_eval.mpr (Exec.eval_eq_failed.mp h)⟩
      · cases h
  | cond test yes no => exact cond_fails h
  | whileDo test body =>
    rw [run, exec] at h
    obtain ⟨b', h, -⟩ := Exec.inLoop_eq_failed h
    rcases bind_eq_error.mp h with h | ⟨u, b₁, -, h⟩
    · exact .inl ⟨_, b', .whileDo, h⟩
    · cases h
  | forRange name start stop body => exact forRange_fails h
  | breakLoop =>
    rw [run, exec] at h
    cases h
  | continueLoop =>
    rw [run, exec] at h
    cases h
  | block body =>
    rw [run, exec] at h
    exact .inl ⟨_, b, .block, Moment.fails_execAll.mpr h⟩
  | guarded body name handler =>
    obtain ⟨d, b', hlast, hfails⟩ := guarded_fails h
    exact .inl ⟨d, b', Moment.mem_parts.mp (List.mem_of_getLast? hlast), hfails⟩
  | raise e => exact raise_fails h
  | expr e =>
    rw [run, exec] at h
    exact .inl ⟨_, b, .operand rfl, Moment.fails_eval.mpr (Exec.eval_eq_failed.mp h)⟩

end Statements

end Imperative
