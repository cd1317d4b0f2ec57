import Imperative.Proofs.Discipline.Evaluation

/-!
# Every execution is in order

The second half of the walk through the language: statements, calls, and what a host can
ask for.

Statements are executed by recursion on the statement, over a meaning of calls that is in
order itself (`Discipline.Covers`).  The two loops know nothing of statements, and neither
do their lemmas, `Discipline.Runs.whileTrue` and `Discipline.Runs.range`: whatever the test
and the body are, if they are in order then so is the loop, by induction on the tests or
the turns that are left.  The knot is tied by an induction on fuel in
`Discipline.Lawful.covers_calls`, since a body is executed with the meaning of calls that
one less fuel gives.

What a discipline gives in the end is stated once for each way to set a run in motion:
`Discipline.Lawful.runs_run` and `Discipline.Lawful.runs_body` for statements,
`Discipline.Lawful.from_run` for expressions, `Discipline.Lawful.covers_calls` for calls, and
`Discipline.Lawful.runIn` with `Discipline.Lawful.complete_host` for hosts.
-/

namespace Imperative
namespace Discipline

variable {D : Discipline} {ctx : Context} {calls : Calls}

/-- What an execution ends with if it ends with a value: the value holds. -/
def Yields (D : Discipline) (v : Value) (b : Activation) : Prop := D.Holds b.machine.heap v

/-! ## Control -/

section Control

variable {α : Type} {a : Activation}

theorem Runs.turn (L : D.Lawful ctx) {body : Exec α} {post : α → Activation → Prop}
    (hbody : D.Runs a body post) : D.Runs a (Exec.turn body) fun _ _ => True where
  ok v b h := by
    simp only [Exec.turn] at h
    split at h <;> cases h
    · next w h₁ =>
      obtain ⟨hb, hs, -⟩ := hbody.ok w b h₁
      exact ⟨hb, hs, trivial⟩
    · next h₁ =>
      obtain ⟨hb, hs, -⟩ := hbody.error .continued b h₁
      exact ⟨hb, L.turn (.inl rfl) hs, trivial⟩
    · next h₁ =>
      obtain ⟨hb, hs, -⟩ := hbody.error .broke b h₁
      exact ⟨hb, L.turn (.inr rfl) hs, trivial⟩
  error e b h := by
    simp only [Exec.turn] at h
    split at h <;> cases h
    next h₁ => exact hbody.error e b h₁

theorem Ready.enterLoop (L : D.Lawful ctx) (ha : D.Ready a) :
    D.Ready ⟨a.scope, a.machine.enterLoop⟩ :=
  ⟨L.enterLoop ha.sound, ha.keeps⟩

theorem Runs.inLoop (L : D.Lawful ctx) (ha : D.Ready a) {x : Exec Value}
    (hx : D.Runs ⟨a.scope, a.machine.enterLoop⟩ x D.Yields) :
    D.Runs a (Exec.inLoop x) D.Yields := by
  constructor
  · intro v b h
    simp only [Exec.inLoop] at h
    split at h <;> cases h
    next scope m h₁ =>
    obtain ⟨hb, hs, hv⟩ := hx.ok v _ h₁
    have hl := L.leaveLoop (r := .ok v) ha.sound ⟨hb.sound, hs⟩
    have hheap : (m.leaveLoop (.ok v : Except Exit Value)).heap = m.heap := m.heap_leaveLoop _
    refine ⟨⟨hl.1, ?_⟩, hl.2, ?_⟩
    · rw [hheap]
      exact hb.keeps
    · rw [Yields, hheap]
      exact hv
  · intro e b h
    simp only [Exec.inLoop] at h
    split at h <;> cases h
    next scope m h₁ =>
    obtain ⟨hb, hs, hc⟩ := hx.error e _ h₁
    have hl := L.leaveLoop (r := .error e) ha.sound ⟨hb.sound, hs⟩
    have hheap : (m.leaveLoop (.error e : Except Exit Value)).heap = m.heap := m.heap_leaveLoop _
    refine ⟨⟨hl.1, ?_⟩, hl.2, ?_⟩
    · rw [hheap]
      exact hb.keeps
    · rw [hheap]
      exact hc

/-- A body in a scope of its own is in order where it ends, and so is the scope around it,
which is what it was and is kept by the heap that the body leaves. -/
theorem Runs.inChild (L : D.Lawful ctx) (ha : D.Ready a) {name : String} {b : Binding}
    {x : Exec Value} (hx : D.Runs ⟨a.scope.child.define name b, a.machine⟩ x D.Yields) :
    D.Runs a (Exec.inChild name b x) D.Yields where
  ok v c h := by
    simp only [Exec.inChild] at h
    split at h <;> cases h
    next d h₁ =>
    obtain ⟨hd, hs, hv⟩ := hx.ok v d h₁
    exact ⟨⟨hd.sound, L.keeps_mono hs ha.keeps⟩, hs, hv⟩
  error e c h := by
    simp only [Exec.inChild] at h
    split at h <;> cases h
    next d h₁ =>
    obtain ⟨hd, hs, hc⟩ := hx.error e d h₁
    exact ⟨⟨hd.sound, L.keeps_mono hs ha.keeps⟩, hs, hc⟩

/-- What is executed from a later activation is in order from the earlier one too. -/
theorem Runs.after (L : D.Lawful ctx) {b : Activation} {x y : Exec α}
    {post : α → Activation → Prop} (h : D.Step a.machine none b.machine) (hx : D.Runs b x post)
    (hy : y a = x b) : D.Runs a y post where
  ok v c hv := by
    obtain ⟨hc, hs, hp⟩ := hx.ok v c (hy ▸ hv)
    exact ⟨hc, L.trans h hs, hp⟩
  error e c he := by
    obtain ⟨hc, hs, hp⟩ := hx.error e c (hy ▸ he)
    exact ⟨hc, L.trans h hs, hp⟩

/-- A guarded body is in order if the body is, and if the handler is wherever a failure of
the body has led. -/
theorem Runs.guarded {body : Exec α} {handler : Fault → Exec α} {post : α → Activation → Prop}
    (hbody : D.Runs a body post)
    (hhandler : ∀ f b, f.isInternal = false → D.Ready b →
      D.Step a.machine (some (.failed f)) b.machine → D.Runs a (fun _ => handler f b) post) :
    D.Runs a (Exec.guarded body handler) post where
  ok v c h := by
    rw [Exec.guarded_apply] at h
    split at h
    · cases h
    · next f b h₁ =>
      obtain ⟨hb, hs, -⟩ := hbody.error _ b h₁
      split at h
      · cases h
      · next hf => exact (hhandler f b (by simpa using hf) hb hs).ok v c h
    · next r b _ h₁ =>
      cases h
      exact hbody.ok v c h₁
  error e c h := by
    rw [Exec.guarded_apply] at h
    split at h
    · cases h
    · next f b h₁ =>
      obtain ⟨hb, hs, hc⟩ := hbody.error _ b h₁
      split at h
      · cases h
        exact ⟨hb, hs, hc⟩
      · next hf => exact (hhandler f b (by simpa using hf) hb hs).error e c h
    · next r b _ h₁ =>
      cases h
      exact hbody.error e c h₁

/-- The handler of a guarded body starts with the text of the fault in the heap, one step
after the body has ended. -/
theorem Lawful.handler_ready (L : D.Lawful ctx) (hallow : D.Allows .guarded) {f : Fault}
    (hf : f.isInternal = false) {b : Activation} (hb : D.Ready b)
    (hs : D.Step a.machine (some (.failed f)) b.machine) (name : String) :
    let p := (b.machine.emit (.faultCaught f)).alloc (.string f.message)
    D.Ready ⟨b.scope, p.2⟩ ∧ D.Ready ⟨b.scope.child.define name { value := p.1 }, p.2⟩ ∧
      D.Step a.machine none p.2 := by
  have hcaught := L.caught hallow hf ⟨hb.sound, hs⟩
  obtain ⟨hl, hv⟩ := L.alloc rfl hallow hcaught.1 (o := .string f.message)
    (fun items hi => by cases hi) fun name hn => by cases hn
  have hk : D.Keeps (b.machine.emit (.faultCaught f)).heap b.scope := hb.keeps
  have hk' := L.keeps_mono hl.2 hk
  exact ⟨⟨hl.1, hk'⟩, ⟨hl.1, L.keeps_define (L.keeps_child hk') hv rfl⟩, L.trans hcaught.2 hl.2⟩

/-- The handler of a guarded body is in order from where the body started. -/
theorem Runs.handler (L : D.Lawful ctx) (hallow : D.Allows .guarded) {f : Fault}
    (hf : f.isInternal = false) {b : Activation} (hb : D.Ready b)
    (hs : D.Step a.machine (some (.failed f)) b.machine) (name : String) {x : Exec Value}
    (hx : ∀ c, D.Ready c → D.Runs c x D.Yields) :
    D.Runs a (fun _ => (do
      let text ← Exec.change fun m => (m.emit (.faultCaught f)).alloc (.string f.message)
      Exec.inChild name { value := text } x : Exec Value) b) D.Yields := by
  obtain ⟨hstart, hchild, hstep⟩ := L.handler_ready hallow hf hb hs name
  generalize halloc : (b.machine.emit (.faultCaught f)).alloc (.string f.message) = p
    at hstart hchild hstep
  obtain ⟨text, m⟩ := p
  refine Runs.after L hstep (Runs.inChild L hstart (hx _ hchild)) ?_
  simp only [Action.bind_apply, Exec.change, halloc]

end Control

/-! ## Loops -/

section Loops

variable {limits : Limits} {test body : Exec Bool}

theorem Runs.admitTurn (L : D.Lawful ctx) {a : Activation} (ha : D.Ready a) (taken : Nat) :
    D.Runs a (Exec.require (limits.admitTurn taken)) fun _ _ => True := by
  refine Runs.require L ha (fun _ _ => trivial) fun f hf => ?_
  unfold Limits.admitTurn at hf
  split at hf
  · cases hf
  · split at hf <;> cases hf
    rfl

/-- **A loop is in order if its test and its body are**, however many tests it may make. -/
theorem Runs.whileTrue (L : D.Lawful ctx)
    (htest : ∀ a, D.Ready a → D.Runs a test fun _ _ => True)
    (hbody : ∀ a, D.Ready a → D.Runs a body fun _ _ => True) (tests : Nat) :
    ∀ (taken : Nat) (a : Activation), D.Ready a →
      D.Runs a (Loop.whileTrue limits test body tests taken) fun _ _ => True := by
  induction tests with
  | zero =>
    intro taken a _
    rw [Loop.whileTrue]
    exact Runs.unfinished
  | succ tests ih =>
    intro taken a ha
    rw [Loop.whileTrue]
    refine Runs.bind L (htest a ha) ?_
    intro p b hb _ _
    split
    · refine Runs.bind L (Runs.admitTurn L hb taken) ?_
      intro _ c hc _ _
      refine Runs.bind L (hbody c hc) ?_
      intro q d hd _ _
      split
      · exact ih (taken + 1) d hd
      · exact Runs.pure L hd trivial
    · exact Runs.pure L hb trivial

theorem Runs.define (L : D.Lawful ctx) {a : Activation} (ha : D.Ready a) (name : String)
    (i : Int64) :
    D.Runs a (Exec.define name { value := .int i, ty := some .int }) fun _ _ => True := by
  refine Runs.rescope L ha (fun s hs => ⟨?_, trivial⟩) fun g hg => by cases hg
  cases hs
  exact L.keeps_define ha.keeps (L.holds_plain rfl) rfl

/-- **A loop over a range is in order if its body is**, however many turns are left. -/
theorem Runs.range (L : D.Lawful ctx) (hbody : ∀ a, D.Ready a → D.Runs a body fun _ _ => True)
    (name : String) (left : Nat) :
    ∀ (taken : Nat) (i : Int64) (a : Activation), D.Ready a →
      D.Runs a (Loop.range limits name body left taken i) fun _ _ => True := by
  induction left with
  | zero =>
    intro taken i a ha
    rw [Loop.range]
    exact Runs.pure L ha trivial
  | succ left ih =>
    intro taken i a ha
    rw [Loop.range]
    refine Runs.bind L (Runs.admitTurn L ha taken) ?_
    intro _ b hb _ _
    refine Runs.bind L (Runs.define L hb name i) ?_
    intro _ c hc _ _
    refine Runs.bind L (hbody c hc) ?_
    intro q d hd _ _
    split
    · exact ih (taken + 1) (i + 1) d hd
    · exact Runs.pure L hd trivial

theorem Runs.whileLoop (L : D.Lawful ctx)
    (htest : ∀ a, D.Ready a → D.Runs a test fun _ _ => True)
    (hbody : ∀ a, D.Ready a → D.Runs a body fun _ _ => True) (tests : Nat) {a : Activation}
    (ha : D.Ready a) :
    D.Runs a (do Loop.whileTrue limits test body tests 0; return .unit) D.Yields := by
  refine Runs.bind L (Runs.whileTrue L htest hbody tests 0 a ha) ?_
  intro _ b hb _ _
  exact Runs.pure L hb (L.holds_plain rfl)

theorem Runs.rangeLoop (L : D.Lawful ctx) {bounds : Exec (Int64 × Int64)} {name : String}
    {a : Activation} (hbounds : D.Runs a bounds fun _ _ => True)
    (hbody : ∀ a, D.Ready a → D.Runs a body fun _ _ => True) :
    D.Runs a (do
      let (i, j) ← bounds
      Loop.range limits name body (Loop.turns i j) 0 i
      return .unit) D.Yields := by
  refine Runs.bind L hbounds ?_
  rintro ⟨i, j⟩ b hb - -
  refine Runs.bind L (Runs.range L hbody name _ 0 i b hb) ?_
  intro _ c hc _ _
  exact Runs.pure L hc (L.holds_plain rfl)

theorem From.bounds (L : D.Lawful ctx) {m : Machine} (hm : D.Sound m) (x y : Value) :
    D.From m (Loop.bounds x y) fun _ _ => True := by
  unfold Loop.bounds
  split
  · exact From.pure L hm trivial
  · exact From.mismatch L hm _

end Loops

/-! ## Statements -/

theorem Runs.rebind (L : D.Lawful ctx) {a : Activation} (ha : D.Ready a)
    {f : Scope → Heap → Except Fault Scope}
    (hok : ∀ s, f a.scope a.machine.heap = .ok s → D.Keeps a.machine.heap s)
    (herror : ∀ g, f a.scope a.machine.heap = .error g →
      D.Step a.machine (some (.failed g)) a.machine) :
    D.Runs a (do Exec.rescope f; return .unit) D.Yields := by
  have hf : D.Runs a (Exec.rescope f) fun _ _ => True :=
    Runs.rescope L ha (fun s hs => ⟨hok s hs, trivial⟩) herror
  refine Runs.bind L hf ?_
  intro _ b hb _ _
  exact Runs.pure L hb (L.holds_plain rfl)

theorem Runs.evalExpr (L : D.Lawful ctx) (hcalls : D.Covers calls) {e : Expr}
    (he : ∀ c, e.has c = true → D.Allows c) {a : Activation} (ha : D.Ready a) :
    D.Runs a (Exec.eval fun scope => e.eval ctx calls scope) D.Yields :=
  Runs.eval L ha (L.from_eval hcalls e he ha.sound ha.keeps) fun _ _ hv => hv

theorem Runs.evalTest (L : D.Lawful ctx) (hcalls : D.Covers calls) {e : Expr}
    (he : ∀ c, e.has c = true → D.Allows c) (describe : Shape → Mismatch) {a : Activation}
    (ha : D.Ready a) :
    D.Runs a (Exec.eval fun scope => e.eval ctx calls scope >>= Value.truth describe)
      fun _ _ => True := by
  have htest : D.From a.machine (e.eval ctx calls a.scope >>= Value.truth describe)
      fun _ _ => True := by
    refine From.bind L (L.from_eval hcalls e he ha.sound ha.keeps) ?_
    intro v m₁ h₁ _
    exact From.truth L h₁.1 describe v
  exact Runs.eval L ha htest fun _ _ _ => trivial

theorem Runs.evalBounds (L : D.Lawful ctx) (hcalls : D.Covers calls) {start stop : Expr}
    (hstart : ∀ c, start.has c = true → D.Allows c) (hstop : ∀ c, stop.has c = true → D.Allows c)
    {a : Activation} (ha : D.Ready a) :
    D.Runs a (Exec.eval fun scope => start.eval ctx calls scope >>= fun x =>
      stop.eval ctx calls scope >>= fun y => Loop.bounds x y) fun _ _ => True := by
  have hbounds : D.From a.machine (start.eval ctx calls a.scope >>= fun x =>
      stop.eval ctx calls a.scope >>= fun y => Loop.bounds x y) fun _ _ => True := by
    refine From.operands L (L.from_eval hcalls start hstart ha.sound ha.keeps)
      (fun m₁ h₁ => L.from_eval hcalls stop hstop h₁.1 (L.keeps_mono h₁.2 ha.keeps)) ?_
    intro x y m₂ h₂ _ _
    exact From.bounds L h₂.1 x y
  exact Runs.eval L ha hbounds fun _ _ _ => trivial

theorem Runs.evalText (L : D.Lawful ctx) (hcalls : D.Covers calls) {e : Expr}
    (he : ∀ c, e.has c = true → D.Allows c) {a : Activation} (ha : D.Ready a) :
    D.Runs a (Exec.eval fun scope => e.eval ctx calls scope >>= Value.shown)
      fun _ _ => True := by
  have htext : D.From a.machine (e.eval ctx calls a.scope >>= Value.shown) fun _ _ => True := by
    refine From.bind L (L.from_eval hcalls e he ha.sound ha.keeps) ?_
    intro v m₁ h₁ _
    exact From.observe L h₁.1 fun _ => trivial
  exact Runs.eval L ha htext fun _ _ _ => trivial

mutual

/-- **Executing a statement is in order**, if its constructs are allowed. -/
theorem Lawful.runs_exec (L : D.Lawful ctx) (hcalls : D.Covers calls) (patience : Nat) :
    ∀ (s : Stmt) {a : Activation}, (∀ c, s.has c = true → D.Allows c) → D.Ready a →
      D.Runs a (s.exec ctx calls patience) D.Yields
  | .declare name ty e, a, h, ha => by
    rw [Stmt.exec]
    refine Runs.bind L (Runs.evalExpr L hcalls (fun c hc => h c (by simp [Stmt.has, hc])) ha) ?_
    intro v b hb _ hv
    exact Runs.rebind L hb (fun s hs => L.declare_ok hb.keeps hv hs)
      fun g hg => L.declare_error hb.sound hv hg
  | .assign name e, a, h, ha => by
    rw [Stmt.exec]
    refine Runs.bind L (Runs.evalExpr L hcalls (fun c hc => h c (by simp [Stmt.has, hc])) ha) ?_
    intro v b hb _ hv
    exact Runs.rebind L hb (fun s hs => L.assign_ok hb.keeps hv hs)
      fun g hg => L.assign_error hb.sound hv hg
  | .ret none, a, _, ha => by
    rw [Stmt.exec]
    refine Runs.throw L ha (fun f hf => by cases hf) fun s hs => ?_
    cases hs
    exact L.holds_plain rfl
  | .ret (some e), a, h, ha => by
    rw [Stmt.exec]
    refine Runs.bind L (Runs.evalExpr L hcalls (fun c hc => h c (by simp [Stmt.has, hc])) ha) ?_
    intro v b hb _ hv
    refine Runs.throw L hb (fun f hf => by cases hf) fun s hs => ?_
    cases hs
    rw [Signal.toValue_ofValue]
    exact hv
  | .cond test yes no, a, h, ha => by
    rw [Stmt.exec]
    refine Runs.bind L
      (Runs.evalTest L hcalls (fun c hc => h c (by simp [Stmt.has, hc])) _ ha) ?_
    intro p b hb _ _
    split
    · exact L.runs_execAll hcalls patience yes (fun c hc => h c (by simp [Stmt.has, hc])) hb
        (L.holds_plain rfl)
    · exact L.runs_execAll hcalls patience no (fun c hc => h c (by simp [Stmt.has, hc])) hb
        (L.holds_plain rfl)
  | .whileDo test body, a, h, ha => by
    rw [Stmt.exec]
    refine Runs.inLoop L ha (Runs.whileLoop L ?_ ?_ _ (ha.enterLoop L))
    · intro b hb
      exact Runs.evalTest L hcalls (fun c hc => h c (by simp [Stmt.has, hc])) _ hb
    · intro b hb
      exact Runs.turn L (L.runs_execAll hcalls patience body
        (fun c hc => h c (by simp [Stmt.has, hc])) hb (L.holds_plain rfl))
  | .forRange name start stop body, a, h, ha => by
    rw [Stmt.exec]
    refine Runs.inLoop L ha (Runs.rangeLoop L (Runs.evalBounds L hcalls
      (fun c hc => h c (by simp [Stmt.has, hc])) (fun c hc => h c (by simp [Stmt.has, hc]))
      (ha.enterLoop L)) ?_)
    intro b hb
    exact Runs.turn L (L.runs_execAll hcalls patience body
      (fun c hc => h c (by simp [Stmt.has, hc])) hb (L.holds_plain rfl))
  | .breakLoop, a, _, ha => by
    rw [Stmt.exec]
    exact Runs.throw L ha (fun f hf => by cases hf) fun s hs => by cases hs
  | .continueLoop, a, _, ha => by
    rw [Stmt.exec]
    exact Runs.throw L ha (fun f hf => by cases hf) fun s hs => by cases hs
  | .block body, a, h, ha => by
    rw [Stmt.exec]
    exact L.runs_execAll hcalls patience body (fun c hc => h c (by simp [Stmt.has, hc])) ha
      (L.holds_plain rfl)
  | .guarded body name handler, a, h, ha => by
    rw [Stmt.exec]
    have hallow : D.Allows .guarded := h _ (by simp [Stmt.has])
    refine Runs.guarded (L.runs_execAll hcalls patience body
      (fun c hc => h c (by simp [Stmt.has, hc])) ha (L.holds_plain rfl)) ?_
    intro f b hf hb hs
    refine Runs.handler L hallow hf hb hs name fun c hc => ?_
    exact L.runs_execAll hcalls patience handler (fun c hc => h c (by simp [Stmt.has, hc])) hc
      (L.holds_plain rfl)
  | .raise e, a, h, ha => by
    rw [Stmt.exec]
    refine Runs.bind L (Runs.evalText L hcalls (fun c hc => h c (by simp [Stmt.has, hc])) ha) ?_
    intro text b hb _ _
    refine Runs.throw L hb (fun f hf => ?_) fun s hs => by cases hs
    cases hf
    rfl
  | .expr e, a, h, ha => by
    rw [Stmt.exec]
    exact Runs.evalExpr L hcalls (fun c hc => h c (by simp [Stmt.has, hc])) ha

/-- Executing statements in order is in order. -/
theorem Lawful.runs_execAll (L : D.Lawful ctx) (hcalls : D.Covers calls) (patience : Nat) :
    ∀ (body : List Stmt) {a : Activation} {last : Value},
      (∀ c, Stmt.anyHas c body = true → D.Allows c) → D.Ready a → D.Holds a.machine.heap last →
        D.Runs a (Stmt.execAll ctx calls patience last body) D.Yields
  | [], a, last, _, ha, hlast => by
    rw [Stmt.execAll]
    exact Runs.pure L ha hlast
  | s :: rest, a, last, h, ha, _ => by
    rw [Stmt.execAll]
    refine Runs.bind L (L.runs_exec hcalls patience s
      (fun c hc => h c (by simp [Stmt.anyHas, hc])) ha) ?_
    intro v b hb _ hv
    exact L.runs_execAll hcalls patience rest (fun c hc => h c (by simp [Stmt.anyHas, hc])) hb hv

end

/-! ## Calls -/

theorem Lawful.keeps_bind (L : D.Lawful ctx) {h : Heap} :
    ∀ {ps : List Param} {vs : List Value} {s s' : Scope}, D.Keeps h s →
      (∀ v ∈ vs, D.Holds h v) → Call.bind h ps vs s = .ok s' → D.Keeps h s'
  | [], _, _, _, hs, _, hb => by
    rw [Call.bind_no_params] at hb
    cases hb
    exact hs
  | _ :: _, [], _, _, hs, _, hb => by
    rw [Call.bind_no_args] at hb
    cases hb
    exact hs
  | p :: ps, v :: vs, s, s', hs, hvs, hb => by
    rw [Call.bind] at hb
    split at hb
    · next t ht =>
      exact L.keeps_bind (L.declare_ok hs (hvs v List.mem_cons_self) ht)
        (fun w hw => hvs w (List.mem_cons_of_mem v hw)) hb
    · cases hb

theorem Lawful.bind_error (L : D.Lawful ctx) {m : Machine} (hm : D.Sound m) {f : Fault} :
    ∀ {ps : List Param} {vs : List Value} {s : Scope}, (∀ v ∈ vs, D.Holds m.heap v) →
      Call.bind m.heap ps vs s = .error f → D.Step m (some (.failed f)) m
  | [], _, _, _, hb => by
    rw [Call.bind_no_params] at hb
    cases hb
  | _ :: _, [], _, _, hb => by
    rw [Call.bind_no_args] at hb
    cases hb
  | p :: ps, v :: vs, s, hvs, hb => by
    rw [Call.bind] at hb
    split at hb
    · exact L.bind_error hm (fun w hw => hvs w (List.mem_cons_of_mem v hw)) hb
    · next g hg =>
      cases hb
      exact L.declare_error hm (hvs v List.mem_cons_self) hg

/-- The body of a call that is admitted starts from an activation that is ready. -/
theorem Lawful.entry_ok (L : D.Lawful ctx) {m : Machine} (hm : D.Sound m) {caller scope : Scope}
    {f : Function} {args : List Value} (hs : D.Keeps m.heap caller)
    (hargs : ∀ v ∈ args, D.Holds m.heap v) (h : Call.entry ctx caller f args m = .ok scope) :
    m.callDepth < ctx.limits.callDepth ∧ D.Ready ⟨scope, m.enterCall⟩ := by
  obtain ⟨-, hdepth, hbind⟩ := Call.entry_eq_ok_iff.mp h
  exact ⟨hdepth, L.enterCall hm hdepth, L.keeps_bind (L.keeps_child hs) hargs hbind⟩

theorem Lawful.entry_error (L : D.Lawful ctx) {m : Machine} (hm : D.Sound m) {caller : Scope}
    {f : Function} {args : List Value} {g : Fault} (hargs : ∀ v ∈ args, D.Holds m.heap v)
    (h : Call.entry ctx caller f args m = .error g) : D.Step m (some (.failed g)) m := by
  unfold Call.entry at h
  split at h
  · cases h
    exact (L.leads_raise hm rfl).2
  · split at h
    · exact L.bind_error hm hargs h
    · next hg =>
      cases h
      unfold Limits.admitCall at hg
      split at hg <;> cases hg
      exact (L.leads_raise hm rfl).2

theorem Runs.caught {x : Exec Value} {a b : Activation} {outcome : Except Exit Value}
    {c : Completion} (hx : D.Runs a x D.Yields) (h : x a = some (outcome, b))
    (hc : catchReturn outcome = .ok c) :
    D.Leads a.machine c.exit b.machine ∧ D.Holds b.machine.heap c.value := by
  unfold catchReturn at hc
  split at hc <;> cases hc
  · next v =>
    obtain ⟨hb, hs, hv⟩ := hx.ok v b h
    exact ⟨⟨hb.sound, hs⟩, hv⟩
  · next s =>
    obtain ⟨hb, hs, hv⟩ := hx.error _ b h
    exact ⟨⟨hb.sound, hs⟩, hv s rfl⟩

theorem catchReturn_error {outcome : Except Exit Value} {e : Exit}
    (h : catchReturn outcome = .error e) : outcome = .error e ∧ ∀ s, e ≠ .returned s := by
  unfold catchReturn at h
  split at h <;> cases h
  next hne => exact ⟨rfl, fun s hs => hne s (by rw [hs])⟩

/-- **A call is in order if its body is.**  The body starts in the scope of its parameters,
with one more call in progress, and what it ends with is caught at the boundary. -/
theorem From.dispatch (L : D.Lawful ctx) {fuel : Nat} {f : Function} (hf : D.Callable f)
    (hbody : ∀ a, D.Ready a →
      D.Runs a (Stmt.execAll ctx (ctx.calls fuel) fuel .unit f.body) D.Yields)
    {m : Machine} (hm : D.Sound m) {caller : Scope} (hs : D.Keeps m.heap caller)
    {args : List Value} (hargs : ∀ v ∈ args, D.Holds m.heap v) :
    D.From m (Call.dispatch ctx (Stmt.execAll ctx (ctx.calls fuel) fuel .unit) caller f args)
      fun c m' => D.Holds m'.heap c.value := by
  constructor
  · intro c m' h
    obtain ⟨scope, outcome, b, hscope, hrun, hc, -, rfl⟩ := Call.dispatch_eq_ok h
    obtain ⟨hdepth, ha⟩ := L.entry_ok hm hs hargs hscope
    obtain ⟨hl, hv⟩ := (hbody _ ha).caught hrun hc
    refine ⟨L.complete hf hm hdepth hl, ?_⟩
    rw [Machine.heap_record, Machine.heap_leaveCall]
    exact hv
  · intro g m' h
    obtain ⟨hg, rfl⟩ | ⟨scope, outcome, b, hscope, hrun, hend⟩ := Call.dispatch_eq_error h
    · exact ⟨hm, L.entry_error hm hargs hg⟩
    · obtain ⟨hdepth, ha⟩ := L.entry_ok hm hs hargs hscope
      obtain ⟨c, hc, hcheck, rfl⟩ | ⟨e, he, rfl, rfl⟩ := hend
      · obtain ⟨hl, hv⟩ := (hbody _ ha).caught hrun hc
        have hl' := L.complete hf hm hdepth hl
        have hheap : (b.machine.leaveCall.record f.name c).heap = b.machine.heap := by
          rw [Machine.heap_record, Machine.heap_leaveCall]
        rw [← hheap] at hcheck hv
        exact L.leads_trans hl' ⟨hl'.1, L.checkTyped_error hl'.1 hv hcheck⟩
      · obtain ⟨rfl, hne⟩ := catchReturn_error he
        obtain ⟨hb, hstep, -⟩ := (hbody _ ha).error e b hrun
        exact L.abandon hf hm hdepth hne ⟨_, fuel, _, b, hrun⟩ ⟨hb.sound, hstep⟩

/-- **With any amount of fuel, calls are in order.** -/
theorem Lawful.covers_calls (L : D.Lawful ctx) (fuel : Nat) : D.Covers (ctx.calls fuel) := by
  induction fuel with
  | zero =>
    intro f caller args m _ _ _ _
    have hnone : ctx.calls 0 caller f args m = none := rfl
    constructor
    · intro c m' h
      rw [hnone] at h
      cases h
    · intro g m' h
      rw [hnone] at h
      cases h
  | succ fuel ih =>
    intro f caller args m hf hm hs hargs
    refine From.dispatch L hf (fun a ha => ?_) hm hs hargs
    exact L.runs_execAll ih fuel f.body (fun c hc => L.allows_body hf hc) ha
      (L.holds_plain rfl)

/-! ## Runs -/

/-- **Evaluating an expression with any amount of fuel is in order.** -/
theorem Lawful.from_run (L : D.Lawful ctx) (fuel : Nat) {e : Expr}
    (he : ∀ c, e.has c = true → D.Allows c) {m : Machine} {scope : Scope} (hm : D.Sound m)
    (hs : D.Keeps m.heap scope) :
    D.From m (e.run ctx fuel scope) fun v m' => D.Holds m'.heap v :=
  L.from_eval (L.covers_calls fuel) e he hm hs

/-- **Executing a statement with any amount of fuel is in order.** -/
theorem Lawful.runs_run (L : D.Lawful ctx) (fuel : Nat) {s : Stmt}
    (hs : ∀ c, s.has c = true → D.Allows c) {a : Activation} (ha : D.Ready a) :
    D.Runs a (s.run ctx fuel) D.Yields :=
  L.runs_exec (L.covers_calls fuel) fuel s hs ha

/-- **Executing a body with any amount of fuel is in order.** -/
theorem Lawful.runs_body (L : D.Lawful ctx) (fuel : Nat) {body : List Stmt}
    (hbody : ∀ c, Stmt.anyHas c body = true → D.Allows c) {a : Activation} (ha : D.Ready a) :
    D.Runs a (Stmt.execAll ctx (ctx.calls fuel) fuel .unit body) D.Yields :=
  L.runs_execAll (L.covers_calls fuel) fuel body hbody ha (L.holds_plain rfl)

theorem Lawful.runs_program (L : D.Lawful ctx) (fuel : Nat) {body : List Stmt}
    (hbody : ∀ c, Stmt.anyHas c body = true → D.Allows c) {a : Activation} (ha : D.Ready a) :
    D.Runs a (Program.exec ctx fuel body)
      fun v b => ∀ w, v = some w → D.Holds b.machine.heap w := by
  cases body with
  | nil =>
    rw [Program.exec]
    exact Runs.pure L ha fun w hw => by cases hw
  | cons s rest =>
    rw [Program.exec, map_eq_pure_bind]
    refine Runs.bind L (L.runs_body fuel hbody ha) ?_
    intro v b hb _ hv
    refine Runs.pure L hb fun w hw => ?_
    cases hw
    exact hv

/-- **A run of a program is in order up to its last statement.**  If it succeeds, the machine
is what the statements leave; if not, an exit has been taken note of at the top level. -/
theorem Lawful.runIn {i : Interpreter} {p : Program} {scope : Scope} {fuel : Nat}
    {ran : Interpreter.Ran} (L : D.Lawful (i.declareAll p.functions).context)
    (hp : ∀ c, Stmt.anyHas c p.statements = true → D.Allows c) (hm : D.Sound i.machine)
    (hs : D.Keeps i.machine.heap scope) (h : i.runIn fuel scope p = some ran) :
    ∃ b, D.Ready b ∧ ran.scope = b.scope ∧
      ((∃ v, ran.result = .ok v ∧ ran.interpreter.machine = b.machine ∧
          D.Step i.machine none b.machine ∧ ∀ w, v = some w → D.Holds b.machine.heap w) ∨
        ∃ e, ran.result = .error e.fault ∧ ran.interpreter.machine = b.machine.escape e ∧
          D.Step i.machine (some e) b.machine) := by
  have hready : D.Ready ⟨scope, i.machine⟩ := ⟨hm, hs⟩
  have hruns := L.runs_program fuel hp hready
  rw [Interpreter.runIn] at h
  obtain ⟨v, b, hrun, rfl⟩ | ⟨e, b, hrun, rfl⟩ := Interpreter.execute_eq_some h
  · rw [Interpreter.machine_declareAll] at hrun
    obtain ⟨hb, hstep, hv⟩ := hruns.ok v b hrun
    exact ⟨b, hb, rfl, .inl ⟨v, rfl, rfl, hstep, hv⟩⟩
  · rw [Interpreter.machine_declareAll] at hrun
    obtain ⟨hb, hstep, -⟩ := hruns.error e b hrun
    exact ⟨b, hb, rfl, .inr ⟨e, rfl, rfl, hstep⟩⟩

/-- **A call by a host is in order.** -/
theorem Lawful.complete_host {i i' : Interpreter} {name : String} {args : List Value} {fuel : Nat}
    {r : Except Fault Completion} (L : D.Lawful i.context) (hm : D.Sound i.machine)
    (hargs : ∀ v ∈ args, D.Holds i.machine.heap v)
    (h : i.complete fuel name args = some (r, i')) :
    (∃ c, r = .ok c ∧ D.Leads i.machine none i'.machine ∧ D.Holds i'.machine.heap c.value) ∨
      ∃ f, r = .error f ∧ D.Leads i.machine (some (.failed f)) i'.machine := by
  have hcall : D.From i.machine (i.context.functionOf .root name >>= fun f =>
      i.context.calls fuel .root f args) fun c m' => D.Holds m'.heap c.value := by
    refine From.bind L (From.functionOf L hm (L.keeps_root _) name) ?_
    rintro f m₁ - ⟨rfl, hf⟩
    exact L.covers_calls fuel f .root args _ hf hm (L.keeps_root _) hargs
  obtain ⟨m', hrun, rfl⟩ := Interpreter.evaluate_eq_some h
  cases r with
  | ok c =>
    obtain ⟨hl, hv⟩ := hcall.ok c m' hrun
    exact .inl ⟨c, rfl, hl, hv⟩
  | error f => exact .inr ⟨f, rfl, hcall.error f m' hrun⟩

/-- A call by a host leads where the discipline allows, whichever way it ends. -/
theorem Lawful.complete_ends {i i' : Interpreter} {name : String} {args : List Value} {fuel : Nat}
    {r : Except Fault Completion} (L : D.Lawful i.context) (hm : D.Sound i.machine)
    (hargs : ∀ v ∈ args, D.Holds i.machine.heap v)
    (h : i.complete fuel name args = some (r, i')) :
    D.Leads i.machine (Exit.of? (r.mapError .failed)) i'.machine := by
  obtain ⟨c, rfl, hl, -⟩ | ⟨f, rfl, hl⟩ := L.complete_host hm hargs h
  · exact hl
  · exact hl

end Discipline
end Imperative
