import Imperative.Proofs.Moments

/-!
# The timeline of a run

`Starts` says which parts a moment has, and this file says in which order they come.  The parts of
a moment are carried out one after the other, and each of them waits for the outcome of the one
before: `Moment.parts` is the list of them, and it lists what `Starts` describes and nothing else
(`Moment.mem_parts`).  The *timeline* of a moment consists of the moment itself and, in order, of
the timelines of its parts, so it lists all moments of the run as they come up
(`Moment.mem_timeline`).

What can be read off is where a run stops.  If one moment is the last part of another one, then its
timeline is at the end of the timeline of the other one (`Moment.timeline_suffix`): all that is
carried out from that moment on belongs to it.
-/

namespace Imperative

/-! ## The parts in order -/

/-- What comes up after an action, if the action is completed. -/
def Action.after {ε σ α : Type} (p : Option (Except ε α × σ)) (next : α → σ → List Moment) :
    List Moment :=
  match p with
  | some (.ok a, s) => next a s
  | _ => []

namespace Action

variable {ε σ α : Type} {next : α → σ → List Moment} {p : Option (Except ε α × σ)}

@[simp] theorem after_ok (a : α) (s : σ) : after (some (.ok a, s) : Option (Except ε α × σ)) next =
    next a s := rfl

@[simp] theorem after_error (e : ε) (s : σ) : after (some (.error e, s)) next = [] := rfl

theorem mem_after {d : Moment} :
    d ∈ after p next ↔ ∃ a s, p = some (.ok a, s) ∧ d ∈ next a s := by
  unfold after
  split
  · next a s =>
    simp only [Option.some.injEq, Prod.mk.injEq, Except.ok.injEq]
    constructor
    · intro h
      exact ⟨a, s, ⟨rfl, rfl⟩, h⟩
    · rintro ⟨a', s', ⟨rfl, rfl⟩, h⟩
      exact h
  · next hne =>
    refine iff_of_false List.not_mem_nil ?_
    rintro ⟨a, s, rfl, -⟩
    exact hne a s rfl

end Action

open Imperative.Action

/-- The parts of an expression, in order. -/
def Expr.parts (ctx : Context) (fuel : Nat) (s : Activation) (e : Expr) : List Moment :=
  match e.first? with
  | some a =>
    ⟨fuel, .eval a, s⟩ :: after (a.run ctx fuel s.scope s.machine) fun x m =>
      match e.second? x with
      | some b =>
        ⟨fuel, .eval b, ⟨s.scope, m⟩⟩ :: after (b.run ctx fuel s.scope m) fun y m' =>
          if e.equates then [⟨fuel, .equal x y, ⟨s.scope, m'⟩⟩] else []
      | none => []
  | none =>
    match e with
    | .call name args =>
      after (ctx.calleeOf s.scope name args.length s.machine) fun callee m =>
        ⟨fuel, .evalAll args, ⟨s.scope, m⟩⟩ ::
          after (Expr.evalAll ctx (ctx.calls fuel) s.scope args m) fun vs m' =>
            match callee with
            | .function f => [⟨fuel, .call f vs, ⟨s.scope, m'⟩⟩]
            | .builtin _ => []
    | .list es => [⟨fuel, .evalAll es, s⟩]
    | _ => []

/-- The parts of a statement, in order. -/
def Stmt.parts (ctx : Context) (fuel : Nat) (s : Activation) (t : Stmt) : List Moment :=
  match t with
  | .cond test yes no =>
    ⟨fuel, .eval test, s⟩ :: after (test.run ctx fuel s.scope s.machine) fun x m =>
      match x with
      | .bool p => [⟨fuel, .execAll .unit (if p then yes else no), ⟨s.scope, m⟩⟩]
      | _ => []
  | .raise e =>
    ⟨fuel, .eval e, s⟩ :: after (e.run ctx fuel s.scope s.machine) fun v m =>
      [⟨fuel, .shown v, ⟨s.scope, m⟩⟩]
  | .block body => [⟨fuel, .execAll .unit body, s⟩]
  | .guarded body name handler =>
    ⟨fuel, .execAll .unit body, s⟩ ::
      match Stmt.handlerStart? ctx fuel body name s with
      | some (_, b) => [⟨fuel, .execAll .unit handler, b⟩]
      | none => []
  | .whileDo test body =>
    [⟨fuel, .whileTrue test body (ctx.limits.testBound fuel) 0, ⟨s.scope, s.machine.enterLoop⟩⟩]
  | .forRange name start stop body =>
    ⟨fuel, .eval start, ⟨s.scope, s.machine.enterLoop⟩⟩ ::
      after (start.run ctx fuel s.scope s.machine.enterLoop) fun x m =>
        ⟨fuel, .eval stop, ⟨s.scope, m⟩⟩ :: after (stop.run ctx fuel s.scope m) fun y m' =>
          match x, y with
          | .int i, .int j => [⟨fuel, .range name body (Loop.turns i j) 0 i, ⟨s.scope, m'⟩⟩]
          | _, _ => []
  | t => t.operand?.toList.map fun e => ⟨fuel, .eval e, s⟩

/-- The parts of a moment, in order. -/
def Moment.parts (ctx : Context) (c : Moment) : List Moment :=
  match c with
  | ⟨fuel, .eval e, s⟩ => e.parts ctx fuel s
  | ⟨_, .evalAll [], _⟩ => []
  | ⟨fuel, .evalAll (e :: es), s⟩ =>
    ⟨fuel, .eval e, s⟩ :: after (e.run ctx fuel s.scope s.machine) fun _ m =>
      [⟨fuel, .evalAll es, ⟨s.scope, m⟩⟩]
  | ⟨fuel, .exec t, s⟩ => t.parts ctx fuel s
  | ⟨_, .execAll _ [], _⟩ => []
  | ⟨fuel, .execAll _ (t :: rest), s⟩ =>
    ⟨fuel, .exec t, s⟩ :: after (t.run ctx fuel s) fun v b => [⟨fuel, .execAll v rest, b⟩]
  | ⟨_, .whileTrue _ _ 0 _, _⟩ => []
  | ⟨fuel, .whileTrue test body (tests + 1) taken, s⟩ =>
    ⟨fuel, .eval test, s⟩ :: after (test.run ctx fuel s.scope s.machine) fun x m =>
      match x, ctx.limits.admitTurn taken with
      | .bool true, .ok () =>
        ⟨fuel, .execAll .unit body, ⟨s.scope, m⟩⟩ ::
          after (Task.turn ctx fuel body ⟨s.scope, m⟩) fun on b =>
            if on then [⟨fuel, .whileTrue test body tests (taken + 1), b⟩] else []
      | _, _ => []
  | ⟨_, .range _ _ 0 _ _, _⟩ => []
  | ⟨fuel, .range name body (left + 1) taken i, s⟩ =>
    match ctx.limits.admitTurn taken with
    | .ok () =>
      let s' := ⟨s.scope.define name { value := .int i, ty := some .int }, s.machine⟩
      ⟨fuel, .execAll .unit body, s'⟩ :: after (Task.turn ctx fuel body s') fun on b =>
        if on then [⟨fuel, .range name body left (taken + 1) (i + 1), b⟩] else []
    | .error _ => []
  | ⟨0, .call _ _, _⟩ => []
  | ⟨fuel + 1, .call f args, s⟩ =>
    match Call.entry ctx s.scope f args s.machine with
    | .ok scope => [⟨fuel, .execAll .unit f.body, ⟨scope, s.machine.enterCall⟩⟩]
    | .error _ => []
  | ⟨_, .equal _ _, _⟩ => []
  | ⟨_, .shown _, _⟩ => []

/-- What is in the list of parts is started. -/
theorem Expr.starts_of_mem_parts {ctx : Context} {fuel : Nat} {s : Activation} {e : Expr}
    {d : Moment} (h : d ∈ e.parts ctx fuel s) : Starts ctx ⟨fuel, .eval e, s⟩ d := by
  unfold parts at h
  split at h
  · next a hfirst =>
    rcases List.mem_cons.mp h with rfl | h
    · exact .first hfirst
    obtain ⟨x, m, hx, h⟩ := mem_after.mp h
    split at h
    · next b hsecond =>
      rcases List.mem_cons.mp h with rfl | h
      · exact .second hfirst hx hsecond
      obtain ⟨y, m', hy, h⟩ := mem_after.mp h
      split at h
      · next hequates =>
        rw [List.mem_singleton.mp h]
        exact .equal hequates hfirst hx hsecond hy
      · cases h
    · cases h
  · split at h
    · next name args =>
      obtain ⟨callee, m, hcallee, h⟩ := mem_after.mp h
      rcases List.mem_cons.mp h with rfl | h
      · exact .args hcallee
      obtain ⟨vs, m', hvs, h⟩ := mem_after.mp h
      cases callee with
      | builtin b => cases h
      | function f =>
        rw [List.mem_singleton.mp h]
        exact .call hcallee hvs
    · rw [List.mem_singleton.mp h]
      exact .elements
    · cases h

theorem Stmt.starts_of_mem_parts {ctx : Context} {fuel : Nat} {s : Activation} {t : Stmt}
    {d : Moment} (h : d ∈ t.parts ctx fuel s) : Starts ctx ⟨fuel, .exec t, s⟩ d := by
  unfold parts at h
  split at h
  · next test yes no =>
    rcases List.mem_cons.mp h with rfl | h
    · exact .operand rfl
    obtain ⟨x, m, hx, h⟩ := mem_after.mp h
    cases x with
    | bool p =>
      rw [List.mem_singleton.mp h]
      exact .branch hx
    | _ => cases h
  · next e =>
    rcases List.mem_cons.mp h with rfl | h
    · exact .operand rfl
    obtain ⟨v, m, hv, h⟩ := mem_after.mp h
    rw [List.mem_singleton.mp h]
    exact .shown hv
  · rw [List.mem_singleton.mp h]
    exact .block
  · next body name handler =>
    rcases List.mem_cons.mp h with rfl | h
    · exact .guarded
    split at h
    · next scope b hstart =>
      rw [List.mem_singleton.mp h]
      exact .handler hstart
    · cases h
  · rw [List.mem_singleton.mp h]
    exact .whileDo
  · next name start stop body =>
    rcases List.mem_cons.mp h with rfl | h
    · exact .lower
    obtain ⟨x, m, hx, h⟩ := mem_after.mp h
    rcases List.mem_cons.mp h with rfl | h
    · exact .upper hx
    obtain ⟨y, m', hy, h⟩ := mem_after.mp h
    split at h
    · rw [List.mem_singleton.mp h]
      exact .range hx hy
    · cases h
  · obtain ⟨e, he, rfl⟩ := List.mem_map.mp h
    exact .operand (Option.mem_toList.mp he)

namespace Moment

theorem starts_of_mem_parts {ctx : Context} {c d : Moment} (h : d ∈ c.parts ctx) :
    Starts ctx c d := by
  obtain ⟨fuel, task, s⟩ := c
  cases task with
  | eval e => exact Expr.starts_of_mem_parts h
  | exec t => exact Stmt.starts_of_mem_parts h
  | evalAll es =>
    cases es with
    | nil => cases h
    | cons e es =>
      rcases List.mem_cons.mp h with rfl | h
      · exact .firstOf
      obtain ⟨v, m, hv, h⟩ := mem_after.mp h
      rw [List.mem_singleton.mp h]
      exact .restOf hv
  | execAll last body =>
    cases body with
    | nil => cases h
    | cons t rest =>
      rcases List.mem_cons.mp h with rfl | h
      · exact .head
      obtain ⟨v, b, hv, h⟩ := mem_after.mp h
      rw [List.mem_singleton.mp h]
      exact .tail hv
  | whileTrue test body tests taken =>
    cases tests with
    | zero => cases h
    | succ tests =>
      rcases List.mem_cons.mp h with rfl | h
      · exact .test
      obtain ⟨x, m, hx, h⟩ := mem_after.mp h
      split at h
      · next hadmit =>
        rcases List.mem_cons.mp h with rfl | h
        · exact .whileTurn hx hadmit
        obtain ⟨on, b, hb, h⟩ := mem_after.mp h
        cases on with
        | false => cases h
        | true =>
          rw [List.mem_singleton.mp h]
          exact .whileNext hx hadmit hb
      · cases h
  | range name body left taken i =>
    cases left with
    | zero => cases h
    | succ left =>
      simp only [parts] at h
      split at h
      · next hadmit =>
        rcases List.mem_cons.mp h with rfl | h
        · exact .rangeTurn hadmit
        obtain ⟨on, b, hb, h⟩ := mem_after.mp h
        cases on with
        | false => cases h
        | true =>
          rw [List.mem_singleton.mp h]
          exact .rangeNext hadmit hb
      · cases h
  | call f args =>
    cases fuel with
    | zero => cases h
    | succ fuel =>
      simp only [parts] at h
      split at h
      · next scope hentry =>
        rw [List.mem_singleton.mp h]
        exact .body hentry
      · cases h
  | equal x y => cases h
  | shown v => cases h

/-- **The list of parts is complete.** -/
theorem mem_parts {ctx : Context} {c d : Moment} : d ∈ c.parts ctx ↔ Starts ctx c d := by
  refine ⟨starts_of_mem_parts, fun h => ?_⟩
  cases h with
  | first hfirst => simp [parts, Expr.parts, hfirst]
  | second hfirst hx hsecond => simp [parts, Expr.parts, hfirst, hx, hsecond]
  | equal hequates hfirst hx hsecond hy =>
    simp [parts, Expr.parts, hfirst, hx, hsecond, hy, hequates]
  | args hcallee => simp [parts, Expr.parts, Expr.first?, hcallee]
  | call hcallee hvs => simp [parts, Expr.parts, Expr.first?, hcallee, hvs]
  | elements => simp [parts, Expr.parts, Expr.first?]
  | restOf hv => simp [parts, hv]
  | @operand _ _ t _ ht => cases t <;> cases ht <;> simp [parts, Stmt.parts, Stmt.operand?]
  | branch htest => simp [parts, Stmt.parts, htest]
  | shown hv => simp [parts, Stmt.parts, hv]
  | handler hstart => simp [parts, Stmt.parts, hstart]
  | tail hv => simp [parts, hv]
  | whileTurn htest hadmit => simp [parts, htest, hadmit]
  | whileNext htest hadmit hb => simp [parts, htest, hadmit, hb]
  | upper hx => simp [parts, Stmt.parts, hx]
  | range hx hy => simp [parts, Stmt.parts, hx, hy]
  | rangeTurn hadmit => simp [parts, hadmit]
  | rangeNext hadmit hb => simp [parts, hadmit, hb]
  | body hentry => simp [parts, hentry]
  | _ => simp [parts, Stmt.parts]

/-! ## Timelines -/

/-- The moments of a run, as they come up. -/
noncomputable def timeline (ctx : Context) (c : Moment) : List Moment :=
  c :: (c.parts ctx).attach.flatMap fun d => timeline ctx d.1
termination_by (starts_wf ctx).wrap c
decreasing_by exact mem_parts.mp d.2

theorem timeline_eq (ctx : Context) (c : Moment) :
    c.timeline ctx = c :: (c.parts ctx).flatMap (timeline ctx) := by
  rw [timeline]
  simp

/-- The timeline of a moment lists what the moment reaches. -/
theorem mem_timeline {ctx : Context} {c d : Moment} : d ∈ c.timeline ctx ↔ c.Reaches ctx d := by
  induction c using (starts_wf ctx).induction with
  | _ c ih =>
    rw [timeline_eq, List.mem_cons, List.mem_flatMap, Reaches, Relation.ReflTransGen.cases_head_iff]
    refine or_congr eq_comm (exists_congr fun e => ?_)
    rw [mem_parts]
    exact and_congr_right fun he => ih e he

/-- From the last part of a moment on, nothing is carried out that does not belong to the part. -/
theorem timeline_suffix {ctx : Context} {c d : Moment} (h : (c.parts ctx).getLast? = some d) :
    d.timeline ctx <:+ c.timeline ctx := by
  obtain ⟨before, hparts⟩ := List.getLast?_eq_some_iff.mp h
  refine ⟨c :: before.flatMap (timeline ctx), ?_⟩
  rw [timeline_eq ctx c, hparts, List.flatMap_append, List.flatMap_singleton, List.cons_append]

end Moment

end Imperative
