import Imperative.Proofs.Discipline.Operation

/-!
# Every evaluation is in order

The first half of the walk through the language: if an expression has only constructs that
a discipline allows, then evaluating it is in order, from every sound machine and in every
scope that is kept.

Evaluation takes the meaning of calls as a parameter, and so does this file: what a meaning
of calls has to satisfy is `Discipline.Covers`.  The recursion is the one of the
definitions, on the expression.  What it passes from operand to operand is that the scope is
still kept and the values in hand still hold, because both are monotone along
`Discipline.Step`.
-/

namespace Imperative
namespace Discipline

variable {D : Discipline} {ctx : Context} {calls : Calls}

/-- Calls of functions that may be called, from scopes in use and with values that hold, are
in order, and so are the values they yield. -/
def Covers (D : Discipline) (calls : Calls) : Prop :=
  ∀ (f : Function) (caller : Scope) (args : List Value) (m : Machine),
    D.Callable f → D.Sound m → D.Keeps m.heap caller → (∀ v ∈ args, D.Holds m.heap v) →
      D.From m (calls caller f args) fun c m' => D.Holds m'.heap c.value

/-! ## Names -/

theorem ofName?_eq_some {name : String} {b : Builtin} (h : Builtin.ofName? name = some b) :
    name = b.name := by
  unfold Builtin.ofName? at h
  split at h
  · next hn =>
    cases h
    exact hn
  · split at h
    · next hn =>
      cases h
      exact hn
    · cases h

/-- The context of the name need not be the one of the discipline. -/
theorem From.valueOf {ctx' : Context} (L : D.Lawful ctx') {m : Machine} (hm : D.Sound m)
    {scope : Scope} (hs : D.Keeps m.heap scope) (name : String) :
    D.From m (ctx.valueOf scope name) fun v m' => D.Holds m'.heap v := by
  unfold Context.valueOf
  split
  · next b hb => exact From.pure L hm (L.holds_lookup hs hb)
  · split
    · obtain ⟨hl, hv⟩ := L.internFunction name hm
      exact From.change hl hv
    · exact From.throw L hm rfl

theorem From.functionOf (L : D.Lawful ctx) {m : Machine} (hm : D.Sound m) {scope : Scope}
    (hs : D.Keeps m.heap scope) (name : String) :
    D.From m (ctx.functionOf scope name) fun f m' => m' = m ∧ D.Callable f := by
  unfold Context.functionOf
  split
  · next f hf => exact From.pure L hm ⟨rfl, L.callable hf⟩
  · split
    · next r ty hb =>
      refine From.bind L (From.fetch L hm (L.holds_lookup hs hb)) ?_
      rintro o m₁ - ⟨rfl, -⟩
      split
      · split
        · next f hf => exact From.pure L hm ⟨rfl, L.callable hf⟩
        · exact From.throw L hm rfl
      · exact From.throw L hm rfl
    · exact From.throw L hm rfl

/-- What a callee has to be for its call to be in order. -/
def Admits (D : Discipline) (name : String) : Callee → Prop
  | .builtin b => name = b.name
  | .function f => D.Callable f

theorem From.calleeOf (L : D.Lawful ctx) {m : Machine} (hm : D.Sound m) {scope : Scope}
    (hs : D.Keeps m.heap scope) (name : String) (operands : Nat) :
    D.From m (ctx.calleeOf scope name operands) fun callee _ => D.Admits name callee := by
  unfold Context.calleeOf
  split
  · next b hb =>
    split
    · exact From.pure L hm (ofName?_eq_some hb)
    · exact From.throw L hm rfl
  · refine From.bind L (From.functionOf L hm hs name) ?_
    rintro f m₁ - ⟨rfl, hf⟩
    exact From.pure L hm hf

theorem From.apply (L : D.Lawful ctx) (hcalls : D.Covers calls) {m : Machine} (hm : D.Sound m)
    {scope : Scope} (hs : D.Keeps m.heap scope) {name : String}
    (hpush : name = Builtin.push.name → D.Allows .push) {callee : Callee}
    (hcallee : D.Admits name callee) {args : List Value}
    (hargs : ∀ v ∈ args, D.Holds m.heap v) :
    D.From m (callee.apply calls scope args) fun v m' => D.Holds m'.heap v := by
  cases callee with
  | builtin b =>
    refine From.builtin L (fun hb => hpush ?_) hm hargs
    rw [hcallee, hb]
  | function f =>
    refine From.bind L (hcalls f scope args m hcallee hm hs hargs) ?_
    intro c m₁ h₁ hc
    exact From.pure L h₁.1 hc

/-! ## Expressions -/

/-- Two operands in a row: where the second one is done, the values of both hold. -/
theorem From.operands {α : Type} (L : D.Lawful ctx) {m : Machine} {x y : Eval Value}
    {k : Value → Value → Eval α} {post : α → Machine → Prop}
    (hx : D.From m x fun v m' => D.Holds m'.heap v)
    (hy : ∀ m₁, D.Leads m none m₁ → D.From m₁ y fun v m' => D.Holds m'.heap v)
    (hk : ∀ v w m₂, D.Leads m none m₂ → D.Holds m₂.heap v → D.Holds m₂.heap w →
      D.From m₂ (k v w) post) :
    D.From m (x >>= fun v => y >>= fun w => k v w) post := by
  refine From.bind L hx ?_
  intro v m₁ h₁ hv
  refine From.bind L (hy m₁ h₁) ?_
  intro w m₂ h₂ hw
  exact hk v w m₂ (L.leads_trans h₁ h₂) (L.holds_mono h₂.2 hv) hw

mutual

/-- **Evaluating an expression is in order**, if its constructs are allowed. -/
theorem Lawful.from_eval (L : D.Lawful ctx) (hcalls : D.Covers calls) :
    ∀ (e : Expr) {m : Machine} {scope : Scope}, (∀ c, e.has c = true → D.Allows c) →
      D.Sound m → D.Keeps m.heap scope →
        D.From m (e.eval ctx calls scope) fun v m' => D.Holds m'.heap v
  | .int n, m, scope, _, hm, _ => by
    rw [Expr.eval]
    exact From.pure L hm (L.holds_plain rfl)
  | .float x, m, scope, _, hm, _ => by
    rw [Expr.eval]
    exact From.pure L hm (L.holds_plain rfl)
  | .text s, m, scope, _, hm, _ => by
    rw [Expr.eval]
    obtain ⟨hl, hv⟩ := L.internText s hm
    exact From.change hl hv
  | .bool b, m, scope, _, hm, _ => by
    rw [Expr.eval]
    exact From.pure L hm (L.holds_plain rfl)
  | .ident name, m, scope, _, hm, hs => by
    rw [Expr.eval]
    exact From.valueOf L hm hs name
  | .arith op a b, m, scope, h, hm, hs => by
    rw [Expr.eval]
    have hadd : op = .add → D.Allows .sum := fun hop => h _ (by simp [Expr.has, hop])
    refine From.operands L
      (L.from_eval hcalls a (fun c hc => h c (by simp [Expr.has, hc])) hm hs)
      (fun m₁ h₁ => L.from_eval hcalls b (fun c hc => h c (by simp [Expr.has, hc])) h₁.1
        (L.keeps_mono h₁.2 hs)) ?_
    intro x y m₂ h₂ hx hy
    exact From.arithmetic L hadd h₂.1 hx hy
  | .neg e, m, scope, h, hm, hs => by
    rw [Expr.eval]
    refine From.bind L (L.from_eval hcalls e (fun c hc => h c (by simp [Expr.has, hc])) hm hs) ?_
    intro x m₁ h₁ _
    exact From.negate L h₁.1 x
  | .eq a b, m, scope, h, hm, hs => by
    rw [Expr.eval]
    refine From.operands L
      (L.from_eval hcalls a (fun c hc => h c (by simp [Expr.has, hc])) hm hs)
      (fun m₁ h₁ => L.from_eval hcalls b (fun c hc => h c (by simp [Expr.has, hc])) h₁.1
        (L.keeps_mono h₁.2 hs)) ?_
    intro x y m₂ h₂ _ _
    refine From.bind L (From.equal L h₂.1 x y) ?_
    intro p m₃ h₃ _
    exact From.pure L h₃.1 (L.holds_plain rfl)
  | .ne a b, m, scope, h, hm, hs => by
    rw [Expr.eval]
    refine From.operands L
      (L.from_eval hcalls a (fun c hc => h c (by simp [Expr.has, hc])) hm hs)
      (fun m₁ h₁ => L.from_eval hcalls b (fun c hc => h c (by simp [Expr.has, hc])) h₁.1
        (L.keeps_mono h₁.2 hs)) ?_
    intro x y m₂ h₂ _ _
    refine From.bind L (From.equal L h₂.1 x y) ?_
    intro p m₃ h₃ _
    exact From.pure L h₃.1 (L.holds_plain rfl)
  | .compare op a b, m, scope, h, hm, hs => by
    rw [Expr.eval]
    refine From.operands L
      (L.from_eval hcalls a (fun c hc => h c (by simp [Expr.has, hc])) hm hs)
      (fun m₁ h₁ => L.from_eval hcalls b (fun c hc => h c (by simp [Expr.has, hc])) h₁.1
        (L.keeps_mono h₁.2 hs)) ?_
    intro x y m₂ h₂ _ _
    exact From.compared L h₂.1 op x y
  | .logic op a b, m, scope, h, hm, hs => by
    rw [Expr.eval]
    refine From.bind L (L.from_eval hcalls a (fun c hc => h c (by simp [Expr.has, hc])) hm hs) ?_
    intro x m₁ h₁ _
    refine From.bind L (From.truth L h₁.1 _ x) ?_
    intro p m₂ h₂ _
    split
    · exact From.pure L h₂.1 (L.holds_plain rfl)
    · refine From.bind L (L.from_eval hcalls b (fun c hc => h c (by simp [Expr.has, hc])) h₂.1
        (L.keeps_mono h₂.2 (L.keeps_mono h₁.2 hs))) ?_
      intro y m₃ h₃ _
      refine From.bind L (From.truth L h₃.1 _ y) ?_
      intro q m₄ h₄ _
      exact From.pure L h₄.1 (L.holds_plain rfl)
  | .not e, m, scope, h, hm, hs => by
    rw [Expr.eval]
    refine From.bind L (L.from_eval hcalls e (fun c hc => h c (by simp [Expr.has, hc])) hm hs) ?_
    intro x m₁ h₁ _
    refine From.bind L (From.truth L h₁.1 _ x) ?_
    intro p m₂ h₂ _
    exact From.pure L h₂.1 (L.holds_plain rfl)
  | .call name args, m, scope, h, hm, hs => by
    rw [Expr.eval]
    have hpush : name = Builtin.push.name → D.Allows .push :=
      fun hn => h _ (by simp [Expr.has, hn])
    refine From.bind L (From.calleeOf L hm hs name args.length) ?_
    intro callee m₁ h₁ hcallee
    refine From.bind L (L.from_evalAll hcalls args (fun c hc => h c (by simp [Expr.has, hc])) h₁.1
      (L.keeps_mono h₁.2 hs)) ?_
    intro vs m₂ h₂ hvs
    exact From.apply L hcalls h₂.1 (L.keeps_mono h₂.2 (L.keeps_mono h₁.2 hs)) hpush hcallee hvs
  | .list elements, m, scope, h, hm, hs => by
    rw [Expr.eval]
    have hlist : D.Allows .list := h _ (by simp [Expr.has])
    refine From.bind L (L.from_evalAll hcalls elements (fun c hc => h c (by simp [Expr.has, hc]))
      hm hs) ?_
    intro vs m₁ h₁ hvs
    have hitems : ∀ items, Object.list vs.toArray = .list items →
        ∀ v ∈ items, D.Holds m₁.heap v := by
      intro items he v hv
      cases he
      exact hvs v (List.mem_toArray.mp hv)
    obtain ⟨hl, hv⟩ := L.alloc rfl hlist h₁.1 hitems fun name hn => by cases hn
    exact From.change hl hv
  | .index base position, m, scope, h, hm, hs => by
    rw [Expr.eval]
    have hindex : D.Allows .index := h _ (by simp [Expr.has])
    refine From.operands L
      (L.from_eval hcalls base (fun c hc => h c (by simp [Expr.has, hc])) hm hs)
      (fun m₁ h₁ => L.from_eval hcalls position (fun c hc => h c (by simp [Expr.has, hc])) h₁.1
        (L.keeps_mono h₁.2 hs)) ?_
    intro b p m₂ h₂ hb _
    refine From.bind L (From.position L h₂.1 p) ?_
    intro i m₃ h₃ _
    exact From.index L hindex h₃.1 (L.holds_mono h₃.2 hb) i

/-- Evaluating expressions from left to right is in order, and all their values hold at the
end. -/
theorem Lawful.from_evalAll (L : D.Lawful ctx) (hcalls : D.Covers calls) :
    ∀ (es : List Expr) {m : Machine} {scope : Scope}, (∀ c, Expr.anyHas c es = true → D.Allows c) →
      D.Sound m → D.Keeps m.heap scope →
        D.From m (Expr.evalAll ctx calls scope es) fun vs m' => ∀ v ∈ vs, D.Holds m'.heap v
  | [], m, scope, _, hm, _ => by
    rw [Expr.evalAll]
    exact From.pure L hm fun v hv => by cases hv
  | e :: es, m, scope, h, hm, hs => by
    rw [Expr.evalAll]
    refine From.bind L (L.from_eval hcalls e (fun c hc => h c (by simp [Expr.anyHas, hc])) hm
      hs) ?_
    intro x m₁ h₁ hx
    refine From.bind L (L.from_evalAll hcalls es (fun c hc => h c (by simp [Expr.anyHas, hc]))
      h₁.1 (L.keeps_mono h₁.2 hs)) ?_
    intro vs m₂ h₂ hvs
    refine From.pure L h₂.1 fun v hv => ?_
    rcases List.mem_cons.mp hv with rfl | hv
    · exact L.holds_mono h₂.2 hx
    · exact hvs v hv

end

end Discipline
end Imperative
