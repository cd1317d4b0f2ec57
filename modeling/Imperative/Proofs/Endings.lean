import Imperative.Session

/-!
# Actions that end

An action without an outcome is unfinished, and this file says when an action has one: a sequence
ends if its first action does and, unless that one fails, the second one as well (`ends_bind`),
and whatever surrounds an action and takes no decision about going on ends if the action does.

An action is *prompt* if it ends from wherever it starts.  A question about the heap is one that
need not be: a comparison of contents, and the text of a value, exist only for values that do not
contain themselves.
-/

namespace Imperative

/-! ## Sequences -/

namespace Action

variable {ε σ α β : Type} {x : ExceptT ε (StateT σ Option) α}
  {f : α → ExceptT ε (StateT σ Option) β} {s : σ}

/-- The action has an outcome. -/
def Ends (x : ExceptT ε (StateT σ Option) α) (s : σ) : Prop := x s ≠ none

/-- The action has an outcome from wherever it starts. -/
def Prompt (x : ExceptT ε (StateT σ Option) α) : Prop := ∀ s, Ends x s

theorem ends_of_eq_some {p : Except ε α × σ} (h : x s = some p) : Ends x s :=
  Option.ne_none_iff_exists'.mpr ⟨p, h⟩

theorem prompt_pure (a : α) : Prompt (pure a : ExceptT ε (StateT σ Option) α) :=
  fun s => ends_of_eq_some (pure_apply a s)

theorem prompt_throw (e : ε) : Prompt (throw e : ExceptT ε (StateT σ Option) α) :=
  fun s => ends_of_eq_some (throw_apply e s)

/-- A sequence ends if its first action does and what follows it does. -/
theorem ends_bind :
    Ends (x >>= f) s ↔ Ends x s ∧ ∀ a t, x s = some (.ok a, t) → Ends (f a) t := by
  unfold Ends
  rw [bind_apply]
  constructor
  · intro h
    cases hx : x s with
    | none =>
      rw [hx] at h
      exact absurd rfl h
    | some p =>
      refine ⟨Option.some_ne_none p, fun a t ha => ?_⟩
      cases ha
      rw [hx] at h
      exact h
  · rintro ⟨hx, hf⟩
    split
    · next hnone => exact absurd hnone hx
    · next a t ha => exact hf a t ha
    · exact Option.some_ne_none _

theorem ends_bind_of_prompt (hf : ∀ a, Prompt (f a)) : Ends (x >>= f) s ↔ Ends x s :=
  ends_bind.trans (and_iff_left fun a t _ => hf a t)

theorem ends_map {g : α → β} : Ends (g <$> x) s ↔ Ends x s := by
  rw [map_eq_pure_bind]
  exact ends_bind_of_prompt fun a => prompt_pure (g a)

theorem Prompt.bind (hx : Prompt x) (hf : ∀ a, Prompt (f a)) : Prompt (x >>= f) :=
  fun s => (ends_bind_of_prompt hf).mpr (hx s)

/-- What has been done if a sequence is completed. -/
theorem bind_eq_ok {b : β} {u : σ} :
    (x >>= f) s = some (.ok b, u) ↔ ∃ a t, x s = some (.ok a, t) ∧ f a t = some (.ok b, u) := by
  rw [bind_apply]
  constructor
  · intro h
    split at h
    · cases h
    · next a t ha => exact ⟨a, t, ha, h⟩
    · cases h
  · rintro ⟨a, t, ha, hb⟩
    rw [ha]
    exact hb

/-- A sequence fails where its first action fails, or where what follows it does. -/
theorem bind_eq_error {e : ε} {u : σ} :
    (x >>= f) s = some (.error e, u) ↔
      x s = some (.error e, u) ∨ ∃ a t, x s = some (.ok a, t) ∧ f a t = some (.error e, u) := by
  rw [bind_apply]
  cases x s with
  | none => simp
  | some p =>
    obtain ⟨r, t⟩ := p
    cases r with
    | error e' => simp
    | ok a =>
      constructor
      · intro h
        exact .inr ⟨a, t, rfl, h⟩
      · rintro (h | ⟨a', t', h, hf⟩)
        · cases h
        · cases h
          exact hf

theorem map_eq_ok {g : α → β} {b : β} {u : σ} :
    (g <$> x) s = some (.ok b, u) ↔ ∃ a, x s = some (.ok a, u) ∧ g a = b := by
  rw [map_eq_pure_bind, bind_eq_ok]
  constructor
  · rintro ⟨a, t, ha, h⟩
    cases h
    exact ⟨a, ha, rfl⟩
  · rintro ⟨a, ha, rfl⟩
    exact ⟨a, u, ha, rfl⟩

theorem map_eq_error {g : α → β} {e : ε} {u : σ} :
    (g <$> x) s = some (.error e, u) ↔ x s = some (.error e, u) := by
  rw [map_eq_pure_bind, bind_eq_error]
  refine or_iff_left ?_
  rintro ⟨a, t, -, h⟩
  cases h

end Action

open Imperative.Action

/-! ## Evaluation -/

namespace Eval

variable {α : Type}

theorem prompt_read (f : Heap → Except Fault α) : Prompt (read f) := fun _ => Option.some_ne_none _

theorem prompt_change (f : Machine → α × Machine) : Prompt (change f) :=
  fun _ => Option.some_ne_none _

theorem prompt_alloc (o : Object) : Prompt (alloc o) := prompt_change _

theorem ends_observe {f : Heap → Option α} {m : Machine} :
    Ends (observe f) m ↔ f m.heap ≠ none := by
  unfold Ends observe
  cases f m.heap <;> simp

end Eval

/-! ## Execution -/

namespace Exec

variable {α : Type} {a b : Activation}

theorem ends_eval {x : Scope → Eval α} : Ends (eval x) a ↔ Ends (x a.scope) a.machine := by
  obtain ⟨scope, machine⟩ := a
  simp only [Ends, eval]
  cases x scope machine with
  | none => simp
  | some p =>
    obtain ⟨r, machine'⟩ := p
    cases r <;> simp

/-- An evaluation whose result is put to a use that is prompt. -/
theorem ends_eval_bind {β : Type} {x : Scope → Eval α} {f : α → Exec β}
    (hf : ∀ v, Prompt (f v)) : Ends (eval x >>= f) a ↔ Ends (x a.scope) a.machine :=
  (ends_bind_of_prompt hf).trans ends_eval

theorem eval_eq_ok {x : Scope → Eval α} {v : α} :
    eval x a = some (.ok v, b) ↔
      x a.scope a.machine = some (.ok v, b.machine) ∧ b.scope = a.scope := by
  obtain ⟨scope, machine⟩ := a
  obtain ⟨scope', machine'⟩ := b
  simp only [eval]
  cases x scope machine with
  | none => simp
  | some p =>
    obtain ⟨r, machine''⟩ := p
    cases r with
    | ok w =>
      simp only [Option.some.injEq, Prod.mk.injEq, Except.ok.injEq, Activation.mk.injEq]
      constructor
      · rintro ⟨rfl, rfl, rfl⟩
        exact ⟨⟨rfl, rfl⟩, rfl⟩
      · rintro ⟨⟨rfl, rfl⟩, rfl⟩
        exact ⟨rfl, rfl, rfl⟩
    | error f => simp

theorem eval_eq_failed {x : Scope → Eval α} {f : Fault} :
    eval x a = some (.error (.failed f), b) ↔
      x a.scope a.machine = some (.error f, b.machine) ∧ b.scope = a.scope := by
  obtain ⟨scope, machine⟩ := a
  obtain ⟨scope', machine'⟩ := b
  simp only [eval]
  cases x scope machine with
  | none => simp
  | some p =>
    obtain ⟨r, machine''⟩ := p
    cases r with
    | ok w => simp
    | error g =>
      simp only [Option.some.injEq, Prod.mk.injEq, Except.error.injEq, Exit.failed.injEq,
        Activation.mk.injEq]
      constructor
      · rintro ⟨rfl, rfl, rfl⟩
        exact ⟨⟨rfl, rfl⟩, rfl⟩
      · rintro ⟨⟨rfl, rfl⟩, rfl⟩
        exact ⟨rfl, rfl, rfl⟩

theorem prompt_require (c : Except Fault α) : Prompt (require c) := by
  intro a
  cases c <;> exact Option.some_ne_none _

/-- What comes after a check ends if it does where the check succeeds. -/
theorem ends_require_bind {β : Type} {c : Except Fault α} {f : α → Exec β} :
    Ends (require c >>= f) a ↔ ∀ v, c = .ok v → Ends (f v) a := by
  cases c with
  | ok v =>
    refine (ends_bind.trans (and_iff_right (prompt_require _ a))).trans ⟨?_, ?_⟩
    · rintro h w ⟨⟩
      exact h v a rfl
    · rintro h w b hw
      cases hw
      exact h v rfl
  | error g => exact iff_of_true (ends_bind.mpr ⟨prompt_require _ a, nofun⟩) nofun

theorem prompt_rescope (f : Scope → Heap → Except Fault Scope) : Prompt (rescope f) := by
  rintro ⟨scope, machine⟩
  simp only [Ends, rescope]
  cases f scope machine.heap <;> exact Option.some_ne_none _

theorem prompt_define (name : String) (b : Binding) : Prompt (define name b) := prompt_rescope _

theorem prompt_change (f : Machine → α × Machine) : Prompt (change f) :=
  fun _ => Option.some_ne_none _

theorem ends_turn {x : Exec α} : Ends (turn x) a ↔ Ends x a := by
  unfold Ends turn
  split <;> simp_all

theorem inLoop_of_eq_some {x : Exec α} {r : Except Exit α}
    (h : x ⟨a.scope, a.machine.enterLoop⟩ = some (r, b)) :
    inLoop x a = some (r, ⟨b.scope, b.machine.leaveLoop r⟩) := by
  rw [inLoop, h]

theorem ends_inLoop {x : Exec α} : Ends (inLoop x) a ↔ Ends x ⟨a.scope, a.machine.enterLoop⟩ := by
  obtain ⟨scope, machine⟩ := a
  simp only [Ends, inLoop]
  cases x ⟨scope, machine.enterLoop⟩ <;> simp

end Exec

end Imperative
