import Imperative.Proofs.Construct
import Imperative.Session

/-!
# Disciplines

Most laws about runs have one shape.  Something holds where an evaluation starts; every
action that the evaluation is made of keeps it; so it holds where the evaluation ends,
whichever way it ends.  What differs from law to law is the *something*, and what is the
same is the walk through the language.  A **discipline** is the something, and this
development takes the walk once for all disciplines.

A discipline says four things: which machines are sound, which scopes may be in use with a
heap, which values may be in hand, and what may have happened to a machine between the
start of an action and its end, given the exit it ended with (`Discipline.Step`, where no
exit means that the action was completed).  `Discipline.Lawful` is the list of what has to
be shown of it: one law for each elementary change of a machine, one for each way to bind
a name, one for each construct that starts or stops an exit.  A discipline that is only
about some programs names the constructs it allows and the functions that may be called.

Two judgements carry the walk.  `Discipline.From m x post` says that evaluating `x` from the
machine `m` is in order, and `Discipline.Runs a x post` says it of executing `x` from the
activation `a`.  Both speak of every outcome and of none that is not reached, so an action
that never ends is in order.  This file has the laws of the judgements; operations on
values are in `Imperative.Proofs.Discipline.Operation`, and the walk itself in
`Imperative.Proofs.Discipline.Evaluation`.
-/

namespace Imperative

/-- The exit that an outcome is, if it is one. -/
def Exit.of? {α : Type} : Except Exit α → Option Exit
  | .ok _ => none
  | .error e => some e

/-- The exit by which a body ended that a call has completed. -/
def Completion.exit : Completion → Option Exit
  | .returned s => some (.returned s)
  | .fellThrough _ => none

/-- Whether a value is no handle. -/
def Value.isPlain : Value → Bool
  | .ref _ => false
  | _ => true

/-- What is kept by every action. -/
structure Discipline where
  /-- What holds of a machine between any two actions. -/
  Sound : Machine → Prop
  /-- What holds of the scopes in use. -/
  Keeps : Heap → Scope → Prop
  /-- What holds of the values in hand. -/
  Holds : Heap → Value → Prop
  /-- What an action may have done by the time it is completed or exits. -/
  Step : Machine → Option Exit → Machine → Prop
  /-- The constructs that code may have. -/
  Allows : Construct → Prop
  /-- The functions that may be called. -/
  Callable : Function → Prop

namespace Discipline

/-- An action that starts at one machine may end so at the other, and soundly. -/
def Leads (D : Discipline) (m : Machine) (o : Option Exit) (m' : Machine) : Prop :=
  D.Sound m' ∧ D.Step m o m'

/-- What holds of an activation between any two actions. -/
structure Ready (D : Discipline) (a : Activation) : Prop where
  sound : D.Sound a.machine
  keeps : D.Keeps a.machine.heap a.scope

/-- What holds of the value that an exit carries, if it carries one. -/
def Carries (D : Discipline) (h : Heap) (e : Exit) : Prop :=
  ∀ s, e = .returned s → D.Holds h s.toValue

/-! ## The laws -/

/-- The laws of a discipline, for code that runs in a context. -/
structure Lawful (D : Discipline) (ctx : Context) : Prop where
  refl (m : Machine) : D.Step m none m
  trans {m m₁ m₂ : Machine} {o : Option Exit} :
    D.Step m none m₁ → D.Step m₁ o m₂ → D.Step m o m₂
  keeps_mono {m m' : Machine} {o : Option Exit} {s : Scope} :
    D.Step m o m' → D.Keeps m.heap s → D.Keeps m'.heap s
  holds_mono {m m' : Machine} {o : Option Exit} {v : Value} :
    D.Step m o m' → D.Holds m.heap v → D.Holds m'.heap v
  /- Where values come from: themselves, the scopes, the lists. -/
  holds_plain {h : Heap} {v : Value} : v.isPlain = true → D.Holds h v
  holds_lookup {h : Heap} {s : Scope} {name : String} {b : Binding} :
    D.Keeps h s → s.lookup name = some b → D.Holds h b.value
  holds_item {m : Machine} {r : Handle} {items : Array Value} {v : Value} :
    D.Sound m → m.heap.get? r = some (.list items) → v ∈ items → D.Holds m.heap v
  /- Where scopes come from. -/
  keeps_root (h : Heap) : D.Keeps h .root
  keeps_child {h : Heap} {s : Scope} : D.Keeps h s → D.Keeps h s.child
  keeps_define {h : Heap} {s : Scope} {name : String} {v : Value} {ty : Option Ty} :
    D.Keeps h s → D.Holds h v → h.checkTyped v ty = .ok () →
      D.Keeps h (s.define name { value := v, ty })
  /- The changes of the heap. -/
  internText {m : Machine} (text : String) : D.Sound m →
    D.Leads m none (m.internText text).2 ∧
      D.Holds (m.internText text).2.heap (m.internText text).1
  internFunction {m : Machine} (name : String) : D.Sound m →
    D.Leads m none (m.internFunction name).2 ∧
      D.Holds (m.internFunction name).2.heap (m.internFunction name).1
  alloc {m : Machine} {c : Construct} {o : Object} :
    c.creates = true → D.Allows c → D.Sound m →
      (∀ items, o = .list items → ∀ v ∈ items, D.Holds m.heap v) →
        (∀ name, o ≠ .function name) →
          D.Leads m none (m.alloc o).2 ∧ D.Holds (m.alloc o).2.heap (m.alloc o).1
  append {m : Machine} {r : Handle} {items : Array Value} {v : Value} :
    D.Allows .push → D.Sound m → m.heap.get? r = some (.list items) → D.Holds m.heap (.ref r) →
      D.Holds m.heap v → D.Leads m none { m with heap := m.heap.append r v }
  /- Where exits start.  No construct raises an internal fault of its own accord. -/
  raise {m : Machine} {e : Exit} :
    D.Sound m → (∀ f, e = .failed f → f.isInternal = false) → D.Step m (some e) m
  dangling {m : Machine} {r : Handle} :
    D.Sound m → D.Holds m.heap (.ref r) → m.heap.get? r = none →
      D.Step m (some (.failed (.danglingReference r))) m
  /- Where exits stop: in a handler, and at the end of a turn. -/
  caught {m m' : Machine} {f : Fault} :
    D.Allows .guarded → f.isInternal = false → D.Leads m (some (.failed f)) m' →
      D.Leads m none (m'.emit (.faultCaught f))
  turn {m m' : Machine} {e : Exit} :
    e = .continued ∨ e = .broke → D.Step m (some e) m' → D.Step m none m'
  enterLoop {m : Machine} : D.Sound m → D.Sound m.enterLoop
  leaveLoop {m m' : Machine} {r : Except Exit Value} :
    D.Sound m → D.Leads m.enterLoop (Exit.of? r) m' → D.Leads m (Exit.of? r) (m'.leaveLoop r)
  /- The boundary of a call. -/
  enterCall {m : Machine} :
    D.Sound m → m.callDepth < ctx.limits.callDepth → D.Sound m.enterCall
  complete {m m' : Machine} {f : Function} {c : Completion} :
    D.Callable f → D.Sound m → m.callDepth < ctx.limits.callDepth →
      D.Leads m.enterCall c.exit m' → D.Leads m none (m'.leaveCall.record f.name c)
  abandon {m m' : Machine} {f : Function} {e : Exit} :
    D.Callable f → D.Sound m → m.callDepth < ctx.limits.callDepth → (∀ s, e ≠ .returned s) →
      (∃ calls patience a b, Stmt.execAll ctx calls patience .unit f.body a = some (.error e, b)) →
        D.Leads m.enterCall (some e) m' → D.Leads m (some (.failed e.fault)) m'.leaveCall
  /- The code that is called. -/
  callable {name : String} {f : Function} : ctx.functions[name]? = some f → D.Callable f
  allows_body {f : Function} {c : Construct} :
    D.Callable f → Stmt.anyHas c f.body = true → D.Allows c

variable {D : Discipline} {ctx : Context}

theorem Lawful.leads_refl (L : D.Lawful ctx) {m : Machine} (hm : D.Sound m) : D.Leads m none m :=
  ⟨hm, L.refl m⟩

theorem Lawful.leads_trans (L : D.Lawful ctx) {m m₁ m₂ : Machine} {o : Option Exit}
    (h₁ : D.Leads m none m₁) (h₂ : D.Leads m₁ o m₂) : D.Leads m o m₂ :=
  ⟨h₂.1, L.trans h₁.2 h₂.2⟩

theorem Lawful.leads_raise (L : D.Lawful ctx) {m : Machine} {f : Fault} (hm : D.Sound m)
    (hf : f.isInternal = false) : D.Leads m (some (.failed f)) m := by
  refine ⟨hm, L.raise hm fun g hg => ?_⟩
  cases hg
  exact hf

/-! ## Evaluation in order -/

/-- Evaluating `x` from `m` leads where the discipline allows, and `post` holds of the value
and of the machine if there is a value. -/
structure From {α : Type} (D : Discipline) (m : Machine) (x : Eval α)
    (post : α → Machine → Prop) : Prop where
  ok : ∀ a m', x m = some (.ok a, m') → D.Leads m none m' ∧ post a m'
  error : ∀ f m', x m = some (.error f, m') → D.Leads m (some (.failed f)) m'

section From

variable {α β : Type} {m : Machine} {post : α → Machine → Prop}

/-- An evaluation in order leads where the discipline allows, whichever way it ends. -/
theorem From.ends {x : Eval α} {r : Except Fault α} {m' : Machine} (hx : D.From m x post)
    (h : x m = some (r, m')) : D.Leads m (Exit.of? (r.mapError .failed)) m' := by
  cases r with
  | ok a => exact (hx.ok a m' h).1
  | error f => exact hx.error f m' h

theorem From.pure (L : D.Lawful ctx) (hm : D.Sound m) {a : α} (h : post a m) :
    D.From m (Pure.pure a) post where
  ok b m' hb := by
    rw [Action.pure_apply] at hb
    cases hb
    exact ⟨L.leads_refl hm, h⟩
  error f m' hf := by
    rw [Action.pure_apply] at hf
    cases hf

theorem From.throw (L : D.Lawful ctx) (hm : D.Sound m) {f : Fault} (hf : f.isInternal = false) :
    D.From m (MonadExcept.throw f : Eval α) post where
  ok a m' h := by
    rw [Action.throw_apply] at h
    cases h
  error g m' h := by
    rw [Action.throw_apply] at h
    cases h
    exact L.leads_raise hm hf

theorem From.bind (L : D.Lawful ctx) {x : Eval α} {f : α → Eval β} {mid : α → Machine → Prop}
    {post : β → Machine → Prop} (hx : D.From m x mid)
    (hf : ∀ a m₁, D.Leads m none m₁ → mid a m₁ → D.From m₁ (f a) post) :
    D.From m (x >>= f) post := by
  constructor
  · intro b m₂ h
    rw [Action.bind_apply] at h
    split at h
    · cases h
    · next a m₁ h₁ =>
      obtain ⟨hl, ha⟩ := hx.ok a m₁ h₁
      obtain ⟨hl', hb⟩ := (hf a m₁ hl ha).ok b m₂ h
      exact ⟨L.leads_trans hl hl', hb⟩
    · cases h
  · intro g m₂ h
    rw [Action.bind_apply] at h
    split at h
    · cases h
    · next a m₁ h₁ =>
      obtain ⟨hl, ha⟩ := hx.ok a m₁ h₁
      exact L.leads_trans hl ((hf a m₁ hl ha).error g m₂ h)
    · next e m₁ h₁ =>
      cases h
      exact hx.error g m₂ h₁

/-- Reading the heap is in order if what is read is, and if every fault may be raised. -/
theorem From.read (L : D.Lawful ctx) (hm : D.Sound m) {f : Heap → Except Fault α}
    (hok : ∀ a, f m.heap = .ok a → post a m)
    (herror : ∀ g, f m.heap = .error g → D.Step m (some (.failed g)) m) :
    D.From m (Eval.read f) post where
  ok a m' h := by
    simp only [Eval.read, Option.some.injEq, Prod.mk.injEq] at h
    obtain ⟨ha, rfl⟩ := h
    exact ⟨L.leads_refl hm, hok a ha⟩
  error g m' h := by
    simp only [Eval.read, Option.some.injEq, Prod.mk.injEq] at h
    obtain ⟨hg, rfl⟩ := h
    exact ⟨hm, herror g hg⟩

theorem From.mismatch (L : D.Lawful ctx) (hm : D.Sound m) (f : Heap → Mismatch) :
    D.From m (Eval.mismatch f : Eval α) post := by
  refine From.read L hm (fun a h => by cases h) fun g h => ?_
  cases h
  exact (L.leads_raise hm rfl).2

theorem From.observe (L : D.Lawful ctx) (hm : D.Sound m) {f : Heap → Option α}
    (h : ∀ a, post a m) : D.From m (Eval.observe f) post where
  ok a m' ha := by
    simp only [Eval.observe, Option.map_eq_some_iff, Prod.mk.injEq, Except.ok.injEq] at ha
    obtain ⟨b, -, rfl, rfl⟩ := ha
    exact ⟨L.leads_refl hm, h b⟩
  error g m' hg := by
    simp [Eval.observe] at hg

theorem From.change {f : Machine → α × Machine} (hl : D.Leads m none (f m).2)
    (h : post (f m).1 (f m).2) : D.From m (Eval.change f) post where
  ok a m' ha := by
    simp only [Eval.change, Option.some.injEq, Prod.mk.injEq, Except.ok.injEq] at ha
    obtain ⟨rfl, rfl⟩ := ha
    exact ⟨hl, h⟩
  error g m' hg := by
    simp [Eval.change] at hg

end From

/-! ## Execution in order -/

/-- Executing `x` from `a` leads where the discipline allows, and `post` holds of the value
and of the activation if there is a value. -/
structure Runs {α : Type} (D : Discipline) (a : Activation) (x : Exec α)
    (post : α → Activation → Prop) : Prop where
  ok : ∀ v b, x a = some (.ok v, b) →
    D.Ready b ∧ D.Step a.machine none b.machine ∧ post v b
  error : ∀ e b, x a = some (.error e, b) →
    D.Ready b ∧ D.Step a.machine (some e) b.machine ∧ D.Carries b.machine.heap e

section Runs

variable {α β : Type} {a : Activation} {post : α → Activation → Prop}

/-- An execution in order leads where the discipline allows, whichever way it ends. -/
theorem Runs.ends {x : Exec α} {r : Except Exit α} {b : Activation} (hx : D.Runs a x post)
    (h : x a = some (r, b)) : D.Ready b ∧ D.Step a.machine (Exit.of? r) b.machine := by
  cases r with
  | ok v =>
    obtain ⟨hb, hs, -⟩ := hx.ok v b h
    exact ⟨hb, hs⟩
  | error e =>
    obtain ⟨hb, hs, -⟩ := hx.error e b h
    exact ⟨hb, hs⟩

theorem carries_failed (h : Heap) (f : Fault) : D.Carries h (.failed f) := by
  intro s hs
  cases hs

theorem Runs.pure (L : D.Lawful ctx) (ha : D.Ready a) {v : α} (h : post v a) :
    D.Runs a (Pure.pure v) post where
  ok w b hw := by
    rw [Action.pure_apply] at hw
    cases hw
    exact ⟨ha, L.refl _, h⟩
  error e b he := by
    rw [Action.pure_apply] at he
    cases he

theorem Runs.throw (L : D.Lawful ctx) (ha : D.Ready a) {e : Exit}
    (he : ∀ f, e = .failed f → f.isInternal = false) (hc : D.Carries a.machine.heap e) :
    D.Runs a (MonadExcept.throw e : Exec α) post where
  ok v b h := by
    rw [Action.throw_apply] at h
    cases h
  error e' b h := by
    rw [Action.throw_apply] at h
    cases h
    exact ⟨ha, L.raise ha.sound he, hc⟩

theorem Runs.unfinished : D.Runs a (Exec.unfinished : Exec α) post where
  ok v b h := by cases h
  error e b h := by cases h

theorem Runs.bind (L : D.Lawful ctx) {x : Exec α} {f : α → Exec β}
    {mid : α → Activation → Prop} {post : β → Activation → Prop} (hx : D.Runs a x mid)
    (hf : ∀ v b, D.Ready b → D.Step a.machine none b.machine → mid v b → D.Runs b (f v) post) :
    D.Runs a (x >>= f) post := by
  constructor
  · intro w c h
    rw [Action.bind_apply] at h
    split at h
    · cases h
    · next v b h₁ =>
      obtain ⟨hb, hs, hv⟩ := hx.ok v b h₁
      obtain ⟨hc, hs', hw⟩ := (hf v b hb hs hv).ok w c h
      exact ⟨hc, L.trans hs hs', hw⟩
    · cases h
  · intro e c h
    rw [Action.bind_apply] at h
    split at h
    · cases h
    · next v b h₁ =>
      obtain ⟨hb, hs, hv⟩ := hx.ok v b h₁
      obtain ⟨hc, hs', he⟩ := (hf v b hb hs hv).error e c h
      exact ⟨hc, L.trans hs hs', he⟩
    · next e' b h₁ =>
      cases h
      exact hx.error e c h₁

/-- An evaluation in order is in order as part of an execution. -/
theorem Runs.eval (L : D.Lawful ctx) (ha : D.Ready a) {x : Scope → Eval α}
    {mid : α → Machine → Prop} (hx : D.From a.machine (x a.scope) mid)
    (h : ∀ v m', mid v m' → post v ⟨a.scope, m'⟩) : D.Runs a (Exec.eval x) post where
  ok v b hv := by
    simp only [Exec.eval] at hv
    split at hv <;> cases hv
    next m' h₁ =>
    obtain ⟨hl, hm⟩ := hx.ok v m' h₁
    exact ⟨⟨hl.1, L.keeps_mono hl.2 ha.keeps⟩, hl.2, h v m' hm⟩
  error e b he := by
    simp only [Exec.eval] at he
    split at he <;> cases he
    next f m' h₁ =>
    have hl := hx.error f m' h₁
    exact ⟨⟨hl.1, L.keeps_mono hl.2 ha.keeps⟩, hl.2, carries_failed _ f⟩

theorem Runs.require (L : D.Lawful ctx) (ha : D.Ready a) {c : Except Fault α}
    (hok : ∀ v, c = .ok v → post v a) (hf : ∀ f, c = .error f → f.isInternal = false) :
    D.Runs a (Exec.require c) post where
  ok v b h := by
    simp only [Exec.require] at h
    split at h <;> cases h
    exact ⟨ha, L.refl _, hok v rfl⟩
  error e b h := by
    simp only [Exec.require] at h
    split at h <;> cases h
    next f =>
    exact ⟨ha, (L.leads_raise ha.sound (hf f rfl)).2, carries_failed _ f⟩

theorem Runs.rescope (L : D.Lawful ctx) (ha : D.Ready a)
    {f : Scope → Heap → Except Fault Scope} {post : Unit → Activation → Prop}
    (hok : ∀ s, f a.scope a.machine.heap = .ok s →
      D.Keeps a.machine.heap s ∧ post () ⟨s, a.machine⟩)
    (herror : ∀ g, f a.scope a.machine.heap = .error g →
      D.Step a.machine (some (.failed g)) a.machine) :
    D.Runs a (Exec.rescope f) post where
  ok v b h := by
    simp only [Exec.rescope] at h
    split at h <;> cases h
    next s hs =>
    obtain ⟨hk, hp⟩ := hok s hs
    exact ⟨⟨ha.sound, hk⟩, L.refl _, hp⟩
  error e b h := by
    simp only [Exec.rescope] at h
    split at h <;> cases h
    next g hg =>
    exact ⟨ha, herror g hg, carries_failed _ g⟩

theorem Runs.change (L : D.Lawful ctx) (ha : D.Ready a) {f : Machine → α × Machine}
    (hl : D.Leads a.machine none (f a.machine).2)
    (h : post (f a.machine).1 ⟨a.scope, (f a.machine).2⟩) : D.Runs a (Exec.change f) post where
  ok v b hv := by
    simp only [Exec.change, Option.some.injEq, Prod.mk.injEq, Except.ok.injEq] at hv
    obtain ⟨rfl, rfl⟩ := hv
    exact ⟨⟨hl.1, L.keeps_mono hl.2 ha.keeps⟩, hl.2, h⟩
  error e b he := by
    simp [Exec.change] at he

end Runs

end Discipline

end Imperative
