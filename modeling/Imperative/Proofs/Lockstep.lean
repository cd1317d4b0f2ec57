import Imperative.Execution

/-!
# Lockstep

Two runs go in lockstep under a relation of states if neither of them ends, or if both end, with the
same outcome and in states that are related again (`Paired`).  An action that goes in lockstep with
itself, from whatever related states it starts, is blind to the difference that the relation allows
(`Blind`).

What is here holds of any relation.  To put actions one after the other, to require something, to take
a turn of a loop and to guard a body are ways to go on that ask the outcome and not the state, so they
keep the lockstep whatever the states are.  What reads the state, or writes to it, keeps it only for
relations that know of it.
-/

namespace Imperative

namespace Action

variable {ε σ α β : Type} {R : σ → σ → Prop}

/-- Neither of two actions has ended, or both have, with the same outcome and in related states. -/
inductive Paired (R : σ → σ → Prop) :
    Option (Except ε α × σ) → Option (Except ε α × σ) → Prop where
  | unfinished : Paired R none none
  | ended (r : Except ε α) {s t : σ} : R s t → Paired R (some (r, s)) (some (r, t))

/-- The action does the same in states that are related. -/
def Blind (R : σ → σ → Prop) (x : ExceptT ε (StateT σ Option) α) : Prop :=
  ∀ s t, R s t → Paired R (x s) (x t)

/-! ## Outcomes in pairs -/

namespace Paired

variable {p q o : Option (Except ε α × σ)}

theorem symm (hR : ∀ s t, R s t → R t s) (h : Paired R p q) : Paired R q p := by
  cases h with
  | unfinished => exact .unfinished
  | ended r hst => exact .ended r (hR _ _ hst)

theorem trans (hR : ∀ s t u, R s t → R t u → R s u) (h : Paired R p q) (h' : Paired R q o) :
    Paired R p o := by
  cases h with
  | unfinished => exact h'
  | ended r hst =>
    cases h' with
    | ended _ htu => exact .ended r (hR _ _ _ hst htu)

/-- What is paired with an ended action has ended as well. -/
theorem of_ended {r : Except ε α} {s : σ} (h : Paired R (some (r, s)) q) :
    ∃ t, q = some (r, t) ∧ R s t := by
  cases h with
  | ended _ hst => exact ⟨_, rfl, hst⟩

/-- Two sequences are paired if their first actions are, and what follows them is from wherever
that leads. -/
theorem bind {x y : ExceptT ε (StateT σ Option) α} {f g : α → ExceptT ε (StateT σ Option) β}
    {s t : σ} (hx : Paired R (x s) (y t))
    (hf : ∀ a s' t', R s' t' → Paired R (f a s') (g a t')) :
    Paired R ((x >>= f) s) ((y >>= g) t) := by
  rw [bind_apply, bind_apply]
  generalize x s = p, y t = q at hx
  cases hx with
  | unfinished => exact .unfinished
  | ended r h =>
    cases r with
    | ok a => exact hf a _ _ h
    | error e => exact .ended (.error e) h

end Paired

/-! ## Sequences -/

theorem blind_pure (a : α) : Blind R (pure a : ExceptT ε (StateT σ Option) α) :=
  fun _ _ h => .ended (.ok a) h

theorem blind_throw (e : ε) : Blind R (throw e : ExceptT ε (StateT σ Option) α) :=
  fun _ _ h => .ended (.error e) h

theorem Blind.bind {x : ExceptT ε (StateT σ Option) α} {f : α → ExceptT ε (StateT σ Option) β}
    (hx : Blind R x) (hf : ∀ a, Blind R (f a)) : Blind R (x >>= f) :=
  fun s t h => (hx s t h).bind fun a s' t' h' => hf a s' t' h'

end Action

open Imperative.Action

variable {R : Activation → Activation → Prop}

/-! ## Statements -/

namespace Exec

variable {α : Type} {x : Exec α}

theorem blind_unfinished : Blind R (unfinished : Exec α) := fun _ _ _ => .unfinished

theorem blind_require (c : Except Fault α) : Blind R (require c) := by
  intro a b h
  cases c with
  | ok v => exact .ended (.ok v) h
  | error f => exact .ended (.error (Exit.failed f)) h

theorem blind_turn (hx : Blind R x) : Blind R (turn x) := by
  intro a b hab
  have hpair := hx a b hab
  simp only [turn]
  generalize x a = p, x b = q at hpair
  cases hpair with
  | unfinished => exact .unfinished
  | ended r h =>
    cases r with
    | ok v => exact .ended (.ok true) h
    | error e =>
      cases e with
      | continued => exact .ended (.ok true) h
      | broke => exact .ended (.ok false) h
      | returned s => exact .ended (.error (Exit.returned s)) h
      | failed f => exact .ended (.error (Exit.failed f)) h

theorem blind_guarded {handler : Fault → Exec α} (hx : Blind R x)
    (hhandler : ∀ f, Blind R (handler f)) : Blind R (guarded x handler) := by
  intro a b hab
  have hpair := hx a b hab
  rw [guarded_apply, guarded_apply]
  generalize x a = p, x b = q at hpair
  cases hpair with
  | unfinished => exact .unfinished
  | ended r h =>
    cases r with
    | ok v => exact .ended (.ok v) h
    | error e =>
      cases e with
      | failed f =>
        dsimp only
        split
        · exact .ended (.error (Exit.failed f)) h
        · exact hhandler f _ _ h
      | _ => exact .ended _ h

end Exec

namespace Loop

variable {limits : Limits} {test body : Exec Bool}

theorem blind_whileTrue (htest : Blind R test) (hbody : Blind R body) (tests taken : Nat) :
    Blind R (whileTrue limits test body tests taken) := by
  induction tests generalizing taken with
  | zero =>
    rw [whileTrue]
    exact Exec.blind_unfinished
  | succ tests ih =>
    rw [whileTrue]
    refine htest.bind fun go => ?_
    split
    · refine (Exec.blind_require _).bind fun _ => hbody.bind fun on => ?_
      split
      · exact ih (taken + 1)
      · exact blind_pure ()
    · exact blind_pure ()

theorem blind_range {name : String} (hdefine : ∀ b, Blind R (Exec.define name b))
    (hbody : Blind R body) (left taken : Nat) (i : Int64) :
    Blind R (range limits name body left taken i) := by
  induction left generalizing taken i with
  | zero =>
    rw [range]
    exact blind_pure ()
  | succ left ih =>
    rw [range]
    refine (Exec.blind_require _).bind fun _ => (hdefine _).bind fun _ => hbody.bind fun on => ?_
    split
    · exact ih (taken + 1) (i + 1)
    · exact blind_pure ()

end Loop

end Imperative
