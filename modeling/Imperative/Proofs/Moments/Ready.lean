import Imperative.Proofs.Moments

/-!
# Disciplines at the moments of a run

A discipline says what holds between any two actions of a run, and the moments of a run are where
its actions start.  A moment is *ready* for a discipline if its activation is, if its code has only
constructs that are allowed, and if the values that the task comes with hold (`Moment.Ready`).  From
such a moment the task is in order (`Moment.Ready.runs`), and its parts are ready as well
(`Moment.Ready.part`).  So if the first moment of a run is ready, all its moments are.
-/

namespace Imperative

namespace Task

/-- Whether a construct occurs in the code of a task.  The code of a function that is called is not
part of it. -/
def has (c : Construct) : Task → Bool
  | .eval e => e.has c
  | .evalAll es => Expr.anyHas c es
  | .exec s => s.has c
  | .execAll _ body => Stmt.anyHas c body
  | .whileTrue test body _ _ => test.has c || Stmt.anyHas c body
  | .range _ body _ _ _ => Stmt.anyHas c body
  | _ => false

/-- The values that a task comes with. -/
def values : Task → List Value
  | .execAll last _ => [last]
  | .call _ args => args
  | .equal x y => [x, y]
  | .shown v => [v]
  | _ => []

end Task

/-- What a discipline asks of a moment. -/
structure Moment.Ready (D : Discipline) (c : Moment) : Prop where
  start : D.Ready c.start
  allows : ∀ k, c.task.has k = true → D.Allows k
  callable : ∀ f args, c.task = .call f args → D.Callable f
  holds : ∀ v ∈ c.task.values, D.Holds c.start.machine.heap v

/-! ## What a moment enters -/

/-- The machine that the parts of a moment set out from: a loop statement counts its loop as in
progress, and a call its body. -/
def Moment.entered (c : Moment) : Machine :=
  match c.task with
  | .exec (.whileDo _ _) => c.start.machine.enterLoop
  | .exec (.forRange _ _ _ _) => c.start.machine.enterLoop
  | .call _ _ => c.start.machine.enterCall
  | _ => c.start.machine

theorem Moment.entered_of_operand {t : Stmt} {e : Expr} (h : t.operand? = some e) {fuel : Nat}
    {s : Activation} : Moment.entered ⟨fuel, .exec t, s⟩ = s.machine := by
  cases t <;> first | rfl | cases h

/-- Entering something records nothing. -/
theorem Moment.trace_entered (c : Moment) : c.entered.trace = c.start.machine.trace := by
  unfold entered
  split <;> rfl

/-! ## The constructs of parts -/

theorem Expr.has_of_first {e a : Expr} {c : Construct} (h : e.first? = some a)
    (ha : a.has c = true) : e.has c = true := by
  cases e <;> cases h <;> simp [Expr.has, ha]

theorem Expr.has_of_second {e b : Expr} {x : Value} {c : Construct} (h : e.second? x = some b)
    (hb : b.has c = true) : e.has c = true := by
  cases e with
  | logic op a d =>
    cases x with
    | bool p =>
      simp only [second?, Option.ite_none_left_eq_some, Option.some.injEq] at h
      simp [Expr.has, h.2, hb]
    | _ => cases h
  | _ => cases h <;> simp [Expr.has, hb]

theorem Stmt.has_of_operand {t : Stmt} {e : Expr} {c : Construct} (h : t.operand? = some e)
    (he : e.has c = true) : t.has c = true := by
  cases t with
  | ret value =>
    cases h
    exact he
  | cond test yes no =>
    cases h
    simp [Stmt.has, he]
  | _ => cases h <;> exact he

/-! ## Ready moments -/

section Ready

variable {D : Discipline} {ctx : Context} {fuel : Nat}

/-- An action in order is in order without its value. -/
theorem Discipline.Runs.discard (L : D.Lawful ctx) {α : Type} {a : Activation} {x : Exec α}
    {post : α → Activation → Prop} (hx : D.Runs a x post) :
    D.Runs a ((fun _ => ()) <$> x) fun _ _ => True := by
  rw [map_eq_pure_bind]
  refine Runs.bind L hx ?_
  intro v b hb _ _
  exact Runs.pure L hb trivial

theorem Discipline.Runs.discardEval (L : D.Lawful ctx) {α : Type} {a : Activation}
    (ha : D.Ready a) {x : Scope → Eval α} {post : α → Machine → Prop}
    (hx : D.From a.machine (x a.scope) post) :
    D.Runs a ((fun _ => ()) <$> Exec.eval x) fun _ _ => True := by
  have heval : D.Runs a (Exec.eval x) fun _ _ => True := .eval L ha hx fun _ _ _ => trivial
  exact heval.discard L

theorem Discipline.Lawful.runs_turn (L : D.Lawful ctx) {body : List Stmt}
    (hbody : ∀ k, Stmt.anyHas k body = true → D.Allows k) {a : Activation} (ha : D.Ready a) :
    D.Runs a (Task.turn ctx fuel body) fun _ _ => True :=
  .turn L (L.runs_body fuel hbody ha)

/-- **From a ready moment the task is in order.** -/
theorem Moment.Ready.runs {c : Moment} (L : D.Lawful ctx) (hc : c.Ready D) :
    D.Runs c.start (c.task.run ctx c.fuel) fun _ _ => True := by
  obtain ⟨fuel, task, s⟩ := c
  obtain ⟨hs, hallows, hcallable, hholds⟩ := hc
  have hcalls := L.covers_calls fuel
  cases task with
  | eval e => exact .discardEval L hs (L.from_run fuel hallows hs.sound hs.keeps)
  | evalAll es => exact .discardEval L hs (L.from_evalAll hcalls es hallows hs.sound hs.keeps)
  | exec t => exact .discard L (L.runs_run fuel hallows hs)
  | execAll last body =>
    have hlast := hholds last List.mem_cons_self
    exact .discard L (L.runs_execAll hcalls fuel body hallows hs hlast)
  | whileTrue test body tests taken =>
    have htest : ∀ k, test.has k = true → D.Allows k :=
      fun k hk => hallows k (by simp [Task.has, hk])
    have hbody : ∀ k, Stmt.anyHas k body = true → D.Allows k :=
      fun k hk => hallows k (by simp [Task.has, hk])
    exact .whileTrue L (fun a ha => .evalTest L hcalls htest _ ha)
      (fun a ha => L.runs_turn hbody ha) tests taken s hs
  | range name body left taken i =>
    exact .range L (fun a ha => L.runs_turn hallows ha) name left taken i s hs
  | call f args =>
    have hf := hcalls f s.scope args s.machine (hcallable f args rfl) hs.sound hs.keeps hholds
    exact .discardEval L hs hf
  | equal x y => exact .discardEval L hs (.equal L hs.sound x y)
  | shown v =>
    have hshown : D.From s.machine v.shown fun _ _ => True := .observe L hs.sound fun _ => trivial
    exact .discardEval L hs hshown

/-- A ready moment whose task is code that comes with no values. -/
theorem Moment.Ready.of_code {task : Task} {a : Activation} (ha : D.Ready a)
    (hallows : ∀ k, task.has k = true → D.Allows k) (hcall : ∀ f args, task ≠ .call f args)
    (hvalues : task.values = []) : Moment.Ready D ⟨fuel, task, a⟩ where
  start := ha
  allows := hallows
  callable f args hf := absurd hf (hcall f args)
  holds v hv := by
    rw [hvalues] at hv
    cases hv

/-- A ready moment whose task is to execute a body. -/
theorem Moment.Ready.of_body {last : Value} {body : List Stmt} {a : Activation} (ha : D.Ready a)
    (hallows : ∀ k, Stmt.anyHas k body = true → D.Allows k)
    (hlast : D.Holds a.machine.heap last) : Moment.Ready D ⟨fuel, .execAll last body, a⟩ where
  start := ha
  allows := hallows
  callable f args hf := by cases hf
  holds v hv := by
    rw [List.mem_singleton.mp hv]
    exact hlast

theorem Discipline.Ready.eval (L : D.Lawful ctx) {s : Activation} (hs : D.Ready s) {e : Expr}
    (he : ∀ k, e.has k = true → D.Allows k) {v : Value} {m : Machine}
    (h : e.run ctx fuel s.scope s.machine = some (.ok v, m)) :
    D.Ready ⟨s.scope, m⟩ ∧ D.Step s.machine none m ∧ D.Holds m.heap v := by
  obtain ⟨hl, hv⟩ := (L.from_run fuel he hs.sound hs.keeps).ok v m h
  exact ⟨⟨hl.1, L.keeps_mono hl.2 hs.keeps⟩, hl.2, hv⟩

/-- The name of a loop over a range is bound to an integer. -/
theorem Discipline.Ready.define (L : D.Lawful ctx) {s : Activation} (hs : D.Ready s)
    (name : String) (i : Int64) :
    D.Ready ⟨s.scope.define name { value := .int i, ty := some .int }, s.machine⟩ :=
  ⟨hs.sound, L.keeps_define hs.keeps (L.holds_plain rfl) rfl⟩

/-- **The parts of a ready moment are ready**, and each of them is one step away from what the moment
has entered. -/
theorem Moment.Ready.part {c d : Moment} (L : D.Lawful ctx) (hc : c.Ready D)
    (h : Starts ctx c d) : d.Ready D ∧ D.Step c.entered none d.start.machine := by
  obtain ⟨hs, hallows, hcallable, hholds⟩ := hc
  have hunit (h : Heap) : D.Holds h .unit := L.holds_plain rfl
  cases h with
  | first ha =>
    exact ⟨.of_code hs (fun k hk => hallows k (Expr.has_of_first ha hk)) nofun rfl, L.refl _⟩
  | second ha hx hb =>
    obtain ⟨hready, hstep, -⟩ := hs.eval L (fun k hk => hallows k (Expr.has_of_first ha hk)) hx
    exact ⟨.of_code hready (fun k hk => hallows k (Expr.has_of_second hb hk)) nofun rfl, hstep⟩
  | equal _ ha hx hb hy =>
    obtain ⟨hready, hstep, hvx⟩ := hs.eval L (fun k hk => hallows k (Expr.has_of_first ha hk)) hx
    obtain ⟨hready', hstep', hvy⟩ :=
      hready.eval L (fun k hk => hallows k (Expr.has_of_second hb hk)) hy
    refine ⟨⟨hready', fun k hk => (by cases hk), fun f args hf => (by cases hf), fun v hv => ?_⟩,
      L.trans hstep hstep'⟩
    rcases List.mem_cons.mp hv with rfl | hv
    · exact L.holds_mono hstep' hvx
    · rw [List.mem_singleton.mp hv]
      exact hvy
  | args hcallee =>
    have hl := ((Discipline.From.calleeOf L hs.sound hs.keeps _ _).ok _ _ hcallee).1
    exact ⟨.of_code ⟨hl.1, L.keeps_mono hl.2 hs.keeps⟩
      (fun k hk => hallows k (by simp_all [Task.has, Expr.has])) nofun rfl, hl.2⟩
  | @call fuel _ _ args _ _ _ _ hcallee hvs =>
    obtain ⟨hl, hf⟩ := (Discipline.From.calleeOf L hs.sound hs.keeps _ _).ok _ _ hcallee
    have hready : D.Ready ⟨_, _⟩ := ⟨hl.1, L.keeps_mono hl.2 hs.keeps⟩
    have hargs := L.from_evalAll (L.covers_calls fuel) args
      (fun k hk => hallows k (by simp_all [Task.has, Expr.has])) hready.sound hready.keeps
    obtain ⟨hl', hholds'⟩ := hargs.ok _ _ hvs
    refine ⟨⟨⟨hl'.1, L.keeps_mono hl'.2 hready.keeps⟩, fun k hk => (by cases hk), ?_, hholds'⟩,
      L.trans hl.2 hl'.2⟩
    intro g vs hg
    cases hg
    exact hf
  | elements =>
    exact ⟨.of_code hs (fun k hk => hallows k (by simp_all [Task.has, Expr.has])) nofun rfl,
      L.refl _⟩
  | firstOf =>
    exact ⟨.of_code hs (fun k hk => hallows k (by simp_all [Task.has, Expr.anyHas])) nofun rfl,
      L.refl _⟩
  | restOf hv =>
    obtain ⟨hready, hstep, -⟩ :=
      hs.eval L (fun k hk => hallows k (by simp_all [Task.has, Expr.anyHas])) hv
    exact ⟨.of_code hready (fun k hk => hallows k (by simp_all [Task.has, Expr.anyHas])) nofun rfl,
      hstep⟩
  | operand ht =>
    rw [entered_of_operand ht]
    exact ⟨.of_code hs (fun k hk => hallows k (Stmt.has_of_operand ht hk)) nofun rfl, L.refl _⟩
  | branch htest =>
    obtain ⟨hready, hstep, -⟩ :=
      hs.eval L (fun k hk => hallows k (by simp_all [Task.has, Stmt.has])) htest
    refine ⟨.of_body hready (fun k hk => hallows k ?_) (hunit _), hstep⟩
    split at hk <;> simp [Task.has, Stmt.has, hk]
  | shown hv =>
    obtain ⟨hready, hstep, hholds'⟩ := hs.eval L (fun k hk => hallows k hk) hv
    refine ⟨⟨hready, fun k hk => (by cases hk), fun f args hf => (by cases hf), fun v hv => ?_⟩,
      hstep⟩
    rw [List.mem_singleton.mp hv]
    exact hholds'
  | block => exact ⟨.of_body hs hallows (hunit _), L.refl _⟩
  | guarded =>
    exact ⟨.of_body hs (fun k hk => hallows k (by simp [Task.has, Stmt.has, hk])) (hunit _),
      L.refl _⟩
  | handler hstart =>
    obtain ⟨hready, hstep⟩ := L.handlerStart? (hallows .guarded rfl)
      (fun k hk => hallows k (by simp [Task.has, Stmt.has, hk])) hs hstart
    exact ⟨.of_body hready (fun k hk => hallows k (by simp [Task.has, Stmt.has, hk])) (hunit _),
      hstep⟩
  | head =>
    exact ⟨.of_code hs (fun k hk => hallows k (by simp_all [Task.has, Stmt.anyHas])) nofun rfl,
      L.refl _⟩
  | tail hv =>
    obtain ⟨hready, hstep, hlast⟩ := (L.runs_run _
      (fun k hk => hallows k (by simp_all [Task.has, Stmt.anyHas])) hs).ok _ _ hv
    exact ⟨.of_body hready (fun k hk => hallows k (by simp_all [Task.has, Stmt.anyHas])) hlast,
      hstep⟩
  | whileDo => exact ⟨.of_code (hs.enterLoop L) hallows nofun rfl, L.refl _⟩
  | test =>
    exact ⟨.of_code hs (fun k hk => hallows k (by simp_all [Task.has])) nofun rfl, L.refl _⟩
  | whileTurn htest _ =>
    obtain ⟨hready, hstep, -⟩ := hs.eval L (fun k hk => hallows k (by simp_all [Task.has])) htest
    exact ⟨.of_body hready (fun k hk => hallows k (by simp [Task.has, hk])) (hunit _), hstep⟩
  | whileNext htest _ hturn =>
    obtain ⟨hready, hstep, -⟩ := hs.eval L (fun k hk => hallows k (by simp_all [Task.has])) htest
    obtain ⟨hready', hstep', -⟩ :=
      (L.runs_turn (fun k hk => hallows k (by simp [Task.has, hk])) hready).ok _ _ hturn
    exact ⟨.of_code hready' hallows nofun rfl, L.trans hstep hstep'⟩
  | lower =>
    exact ⟨.of_code (hs.enterLoop L) (fun k hk => hallows k (by simp_all [Task.has, Stmt.has]))
      nofun rfl, L.refl _⟩
  | upper hx =>
    obtain ⟨hready, hstep, -⟩ := (hs.enterLoop L).eval L
      (fun k hk => hallows k (by simp_all [Task.has, Stmt.has])) hx
    exact ⟨.of_code hready (fun k hk => hallows k (by simp_all [Task.has, Stmt.has])) nofun rfl,
      hstep⟩
  | range hx hy =>
    obtain ⟨hready, hstep, -⟩ := (hs.enterLoop L).eval L
      (fun k hk => hallows k (by simp_all [Task.has, Stmt.has])) hx
    obtain ⟨hready', hstep', -⟩ :=
      hready.eval L (fun k hk => hallows k (by simp_all [Task.has, Stmt.has])) hy
    exact ⟨.of_code hready' (fun k hk => hallows k (by simp_all [Task.has, Stmt.has])) nofun rfl,
      L.trans hstep hstep'⟩
  | rangeTurn _ => exact ⟨.of_body (hs.define L _ _) hallows (hunit _), L.refl _⟩
  | rangeNext _ hturn =>
    obtain ⟨hready, hstep, -⟩ := (L.runs_turn hallows (hs.define L _ _)).ok _ _ hturn
    exact ⟨.of_code hready hallows nofun rfl, hstep⟩
  | body hentry =>
    have hready := (L.entry_ok hs.sound hs.keeps hholds hentry).2
    exact ⟨.of_body hready (fun k hk => L.allows_body (hcallable _ _ rfl) hk) (hunit _), L.refl _⟩

/-- **All moments of a run are ready, if the first one is.** -/
theorem Moment.Ready.of_reaches {c d : Moment} (L : D.Lawful ctx) (hc : c.Ready D)
    (h : c.Reaches ctx d) : d.Ready D := by
  induction h with
  | refl => exact hc
  | tail _ hstarts ih => exact (ih.part L hstarts).1

end Ready

end Imperative
