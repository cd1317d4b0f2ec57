import Imperative.Proofs.Discipline.Operation
import Imperative.Proofs.Endings

/-!
# Primitive actions

Between the parts of an expression or of a statement something is done with values that are already
there: an operator or a builtin is applied, a name is looked up, a value is bound.  All of this is
of one kind.  A *primitive* action looks at the heap, and may complain about what it sees, and
after that it does at most one thing to the machine (`Eval.Primitive`).

Two laws follow for all of them.  A primitive action ends (`Eval.Primitive.prompt`).  And if it
fails, then it has done nothing, and not because of a limit, since limits are the business of calls
and of loops alone (`Eval.Primitive.clean`).  Two operations are not primitive, the comparison of
contents and the text of a value: they never fail, but they need not end.
-/

namespace Imperative

open Imperative.Action

/-- Whether a fault says that a limit was exceeded. -/
def Fault.isLimit : Fault → Bool
  | .callDepthExceeded _ => true
  | .loopLimitExceeded _ => true
  | _ => false

namespace Eval

/-- If the action fails, then it has done nothing, and not because of a limit. -/
def Clean {α : Type} (x : Eval α) : Prop :=
  ∀ m f m', x m = some (.error f, m') → m' = m ∧ f.isLimit = false

/-- The action looks at the heap and then does at most one thing. -/
inductive Primitive {α : Type} : Eval α → Prop
  | pure (a : α) : Primitive (pure a)
  | throw {f : Fault} : f.isLimit = false → Primitive (throw f)
  | change (f : Machine → α × Machine) : Primitive (change f)
  | look {β : Type} {f : Heap → Except Fault β} {next : β → Eval α} :
    (∀ h g, f h = .error g → g.isLimit = false) → (∀ b, Primitive (next b)) →
      Primitive (read f >>= next)

variable {α β : Type} {x : Eval α}

/-! ## The laws of primitive actions -/

theorem Primitive.prompt (hx : Primitive x) : Prompt x := by
  induction hx with
  | pure a => exact prompt_pure a
  | throw _ => exact prompt_throw _
  | change f => exact prompt_change f
  | look _ _ ih => exact (prompt_read _).bind ih

theorem Primitive.clean (hx : Primitive x) : Clean x := by
  induction hx with
  | pure a =>
    intro m g m' h
    rw [pure_apply] at h
    simp at h
  | throw hf =>
    intro m g m' h
    cases h
    exact ⟨rfl, hf⟩
  | change f =>
    intro m g m' h
    simp [Eval.change] at h
  | @look β f next hlimit _ ih =>
    intro m g m' h
    rcases bind_eq_error.mp h with h | ⟨b, m₁, hb, h⟩
    · simp only [read, Option.some.injEq, Prod.mk.injEq] at h
      exact ⟨h.2.symm, hlimit m.heap g h.1⟩
    · simp only [read, Option.some.injEq, Prod.mk.injEq] at hb
      rw [hb.2]
      exact ih b m₁ g m' h

/-- What is only made of the value does not matter. -/
theorem Clean.map (hx : Clean x) (g : α → β) : Clean (x >>= fun a => Pure.pure (g a)) := by
  intro m f m' h
  rcases bind_eq_error.mp h with h | ⟨a, m₁, -, h⟩
  · exact hx m f m' h
  · cases h

/-- A question never fails. -/
theorem clean_observe (f : Heap → Option α) : Clean (observe f) := by
  intro m g m' h
  simp [observe] at h

/-! ## More ways to be primitive -/

theorem Primitive.read {f : Heap → Except Fault α} (hf : ∀ h g, f h = .error g → g.isLimit = false) :
    Primitive (read f) := by
  have hlook : Primitive (Eval.read f >>= Pure.pure) := .look hf .pure
  rwa [bind_pure] at hlook

theorem Primitive.mismatch (f : Heap → Mismatch) : Primitive (mismatch f : Eval α) := by
  refine .read fun h g hg => ?_
  cases hg
  rfl

theorem Primitive.fetch {r : Handle} {next : Object → Eval α} (hnext : ∀ o, Primitive (next o)) :
    Primitive (fetch r >>= next) := by
  refine .look (fun h g hg => ?_) hnext
  rw [(Heap.fetch_eq_error_iff.mp hg).2]
  rfl

theorem Primitive.map (hx : Primitive x) (g : α → β) :
    Primitive (x >>= fun a => Pure.pure (g a)) := by
  induction hx with
  | pure a =>
    rw [pure_bind]
    exact .pure (g a)
  | throw hf => exact .throw hf
  | change f => exact .change fun m => (g (f m).1, (f m).2)
  | look hlimit _ ih =>
    rw [bind_assoc]
    exact .look hlimit ih

end Eval

open Eval

/-! ## Operations on values -/

namespace Value

theorem primitive_refuseArithmetic {α : Type} (op : ArithOp) (x y : Value) :
    Primitive (refuseArithmetic op x y : Eval α) := .mismatch _

theorem primitive_join (p q : Handle) : Primitive (join p q) := by
  refine .fetch fun a => .fetch fun b => ?_
  cases a.join? b with
  | some o => exact .change _
  | none => exact primitive_refuseArithmetic _ _ _

theorem primitive_arithmetic (op : ArithOp) (x y : Value) : Primitive (x.arithmetic op y) := by
  unfold arithmetic
  split
  · next p q =>
    refine .read fun _ g hg => ?_
    cases hints : op.onInts p q with
    | ok n =>
      rw [hints] at hg
      cases hg
    | error f =>
      rw [hints] at hg
      cases hg
      rw [Discipline.onInts_error hints]
      rfl
  · split
    · exact primitive_join _ _
    · exact primitive_refuseArithmetic _ _ _
  · split
    · exact .pure _
    · exact primitive_refuseArithmetic _ _ _

theorem primitive_negate (x : Value) : Primitive x.negate := by
  unfold negate
  split
  · exact .pure _
  · exact .pure _
  · exact .mismatch _

theorem primitive_compared (op : CompareOp) (x y : Value) : Primitive (x.compared op y) := by
  unfold compared
  split
  · exact .pure _
  · exact .mismatch _

theorem primitive_truth (describe : Shape → Mismatch) (x : Value) : Primitive (x.truth describe) := by
  unfold truth
  split
  · exact .pure _
  · exact .mismatch _

theorem truth_eq_ok {describe : Shape → Mismatch} {x : Value} {p : Bool} {m m' : Machine} :
    x.truth describe m = some (.ok p, m') ↔ x = .bool p ∧ m' = m := by
  unfold truth
  split
  · next b =>
    rw [pure_apply]
    simp [eq_comm]
  · next hne =>
    refine iff_of_false (fun h => ?_) fun h => hne p h.1
    cases h

theorem primitive_index (base : Value) (position : Int64) : Primitive (base.index position) := by
  unfold index
  split
  · refine .fetch fun o => ?_
    split
    · split
      · exact .pure _
      · exact .throw rfl
    · split
      · exact .change _
      · exact .throw rfl
    · exact .throw rfl
  · exact .throw rfl

/-- Finding out which position is meant belongs to the operation. -/
theorem primitive_indexAt (base position : Value) :
    Primitive (position.position >>= fun i => base.index i) := by
  unfold Value.position
  split
  · rw [pure_bind]
    exact base.primitive_index _
  · refine .look (fun h g hg => ?_) base.primitive_index
    cases hg
    rfl

theorem primitive_length (x : Value) : Primitive x.length := by
  unfold length
  split
  · refine .fetch fun o => ?_
    split
    · exact .pure _
    · exact .pure _
    · exact .throw rfl
  · exact .throw rfl

theorem primitive_push (target item : Value) : Primitive (target.push item) := by
  unfold push
  split
  · refine .fetch fun o => ?_
    split
    · exact .change _
    · exact .throw rfl
  · exact .throw rfl

theorem clean_shown (v : Value) : Clean v.shown := clean_observe _

end Value

theorem Builtin.primitive_apply (b : Builtin) (args : List Value) : Primitive (b.apply args) := by
  unfold apply
  split
  · exact Value.primitive_length _
  · exact Value.primitive_push _ _
  · exact .throw rfl

theorem Loop.primitive_bounds (start stop : Value) : Primitive (bounds start stop) := by
  unfold bounds
  split
  · exact .pure _
  · exact .mismatch _

/-! ## Names -/

namespace Context

variable (ctx : Context) (scope : Scope) (name : String)

theorem primitive_valueOf : Primitive (ctx.valueOf scope name) := by
  unfold valueOf
  split
  · exact .pure _
  · split
    · exact .change _
    · exact .throw rfl

theorem primitive_functionOf : Primitive (ctx.functionOf scope name) := by
  unfold functionOf
  split
  · exact .pure _
  · split
    · refine .fetch fun o => ?_
      split
      · split
        · exact .pure _
        · exact .throw rfl
      · exact .throw rfl
    · exact .throw rfl

theorem primitive_calleeOf (operands : Nat) : Primitive (ctx.calleeOf scope name operands) := by
  unfold calleeOf
  split
  · split
    · exact .pure _
    · exact .throw rfl
  · exact (ctx.primitive_functionOf scope name).map Callee.function

end Context

/-! ## Bindings -/

section Bindings

variable {f : Fault}

theorem Heap.isLimit_of_checkTyped {h : Heap} {v : Value} {ty : Option Ty}
    (hf : h.checkTyped v ty = .error f) : f.isLimit = false := by
  cases ty with
  | none => cases hf
  | some t => rcases check_eq_error hf with rfl | ⟨r, -, -, rfl⟩ <;> rfl

theorem Scope.isLimit_of_declare {s : Scope} {h : Heap} {name : String} {ty : Option Ty} {v : Value}
    (hf : s.declare h name ty v = .error f) : f.isLimit = false := by
  rw [declare] at hf
  cases hcheck : h.checkTyped v ty with
  | ok u =>
    rw [hcheck] at hf
    cases hf
  | error g =>
    rw [hcheck] at hf
    cases hf
    exact Heap.isLimit_of_checkTyped hcheck

theorem Scope.isLimit_of_assign {s : Scope} {h : Heap} {name : String} {v : Value}
    (hf : s.assign h name v = .error f) : f.isLimit = false := by
  rw [assign] at hf
  split at hf
  · exact isLimit_of_declare hf
  · cases hf
    rfl

theorem Call.isLimit_of_bind {h : Heap} {ps : List Param} {args : List Value} {s : Scope}
    (hf : bind h ps args s = .error f) : f.isLimit = false := by
  induction ps generalizing args s with
  | nil =>
    rw [bind_no_params] at hf
    cases hf
  | cons p ps ih =>
    cases args with
    | nil =>
      rw [bind_no_args] at hf
      cases hf
    | cons v vs =>
      rw [bind] at hf
      split at hf
      · exact ih hf
      · next g hdeclare =>
        cases hf
        exact Scope.isLimit_of_declare hdeclare

end Bindings

end Imperative
