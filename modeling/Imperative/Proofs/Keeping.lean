import Imperative.Proofs.Lockstep

/-!
# What an action keeps

A property of states is kept by an action if it holds of what the action leaves, however it ends,
whenever it holds of what the action starts from (`Action.Keeps`).  There is one rule for each way to
build an action.  What only looks at the machine keeps every property of it, that of being a certain
machine included, and one such thing is to find out what a name stands for in a call
(`Context.keeps_calleeOf`).
-/

namespace Imperative

open Imperative.Action

/-! ## Actions that keep a property -/

namespace Action

variable {ε σ α β : Type} {P : σ → Prop}

/-- However the action ends, the property holds of what it leaves if it holds of what it starts
from. -/
def Keeps (P : σ → Prop) (x : ExceptT ε (StateT σ Option) α) : Prop :=
  ∀ s r t, P s → x s = some (r, t) → P t

/-- An action that keeps a property is in lockstep with itself while the property holds. -/
theorem keeps_iff {x : ExceptT ε (StateT σ Option) α} :
    Keeps P x ↔ Blind (fun s t => s = t ∧ P s) x := by
  constructor
  · rintro h s _ ⟨rfl, hs⟩
    cases hx : x s with
    | none => exact .unfinished
    | some q => exact .ended q.1 ⟨rfl, h s q.1 q.2 hs hx⟩
  · intro h s r t hs hx
    have hpair := h s s ⟨rfl, hs⟩
    rw [hx] at hpair
    obtain ⟨-, -, -, ht⟩ := hpair.of_ended
    exact ht

theorem keeps_pure (a : α) : Keeps P (pure a : ExceptT ε (StateT σ Option) α) :=
  keeps_iff.mpr (blind_pure a)

theorem keeps_throw (e : ε) : Keeps P (throw e : ExceptT ε (StateT σ Option) α) :=
  keeps_iff.mpr (blind_throw e)

/-- What comes second may depend on what comes first having been completed. -/
theorem Keeps.bind_of {x : ExceptT ε (StateT σ Option) α}
    {f : α → ExceptT ε (StateT σ Option) β} (hx : Keeps P x)
    (hf : ∀ a s t, x s = some (.ok a, t) → Keeps P (f a)) : Keeps P (x >>= f) := by
  intro s r t hs h
  rw [bind_apply] at h
  split at h
  · cases h
  · next a u ha => exact hf a s u ha u r t (hx s _ u hs ha) h
  · next e u he =>
    cases h
    exact hx s _ t hs he

theorem Keeps.bind {x : ExceptT ε (StateT σ Option) α} {f : α → ExceptT ε (StateT σ Option) β}
    (hx : Keeps P x) (hf : ∀ a, Keeps P (f a)) : Keeps P (x >>= f) :=
  hx.bind_of fun a _ _ _ => hf a

end Action

/-! ## What evaluation does besides -/

namespace Eval

variable {P : Machine → Prop} {α : Type}

theorem keeps_read (f : Heap → Except Fault α) : Keeps P (read f) := by
  intro m r m' hm h
  cases h
  exact hm

theorem keeps_observe (f : Heap → Option α) : Keeps P (observe f) := by
  intro m r m' hm h
  obtain ⟨a, -, he⟩ := Option.map_eq_some_iff.mp h
  cases he
  exact hm

theorem keeps_mismatch (f : Heap → Mismatch) : Keeps P (mismatch f : Eval α) := keeps_read _

theorem keeps_change {f : Machine → α × Machine} (hf : ∀ m, P m → P (f m).2) :
    Keeps P (change f) := by
  intro m r m' hm h
  cases h
  exact hf m hm

end Eval

/-! ## Names in calls -/

namespace Context

variable {P : Machine → Prop}

theorem keeps_functionOf (ctx : Context) (scope : Scope) (name : String) :
    Keeps P (ctx.functionOf scope name) := by
  unfold functionOf
  split
  · exact keeps_pure _
  · split
    · refine (Eval.keeps_read _).bind fun o => ?_
      split
      · split
        · exact keeps_pure _
        · exact keeps_throw _
      · exact keeps_throw _
    · exact keeps_throw _

theorem keeps_calleeOf (ctx : Context) (scope : Scope) (name : String) (operands : Nat) :
    Keeps P (ctx.calleeOf scope name operands) := by
  unfold calleeOf
  split
  · split
    · exact keeps_pure _
    · exact keeps_throw _
  · exact (keeps_functionOf ctx scope name).bind fun _ => keeps_pure _

/-- Finding out what a call goes to leaves the machine as it is. -/
theorem machine_of_calleeOf {ctx : Context} {scope : Scope} {name : String} {operands : Nat}
    {m m' : Machine} {r : Except Fault Callee}
    (h : ctx.calleeOf scope name operands m = some (r, m')) : m' = m :=
  keeps_calleeOf (P := (· = m)) ctx scope name operands m r m' rfl h

end Context

end Imperative
