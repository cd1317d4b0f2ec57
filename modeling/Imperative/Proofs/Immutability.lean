import Imperative.Proofs.Layers
import Imperative.Proofs.Moments.Ready
import Imperative.Proofs.Termination

/-!
# Without a push nothing changes

A push is the one construct that changes an object.  Code without it, calling only functions
without it, does nothing to a heap but store new objects at its end, and a new object names only
objects that are there already.  So the heap stays layered (`Heap.Layered`): no list comes to
contain itself, every value has a text and any two values can be compared, at every moment of such a
run.  And a value is immutable: whatever could be told of it before can be told of it afterwards,
and nothing else (`Heap.Preserved`).

What is kept by every action is that the machine is *founded*: all handles in it are live, and those
in a list are smaller than the handle of the list (`Machine.Founded`).  This is the discipline
`immutability`, and the law is `values_immutable`.
-/

namespace Imperative

/-- Every handle in a machine is live, and every handle in a list is smaller than the handle of the
list. -/
structure Machine.Founded (m : Machine) : Prop where
  valid : m.Valid
  layered : m.heap.Layered

/-- An activation with a founded machine, whose scope has only live handles. -/
structure Activation.Founded (a : Activation) : Prop where
  machine : a.machine.Founded
  scope : a.scope.Live a.machine.heap

namespace Machine

variable {m : Machine}

theorem founded_empty : Founded {} := ⟨valid_empty, Heap.layered_empty⟩

theorem Founded.observable (hm : m.Founded) : m.heap.Observable := hm.layered.observable

theorem Founded.preserved {m' : Machine} (hm : m.Founded) (he : m.heap.Extended m'.heap) :
    m.heap.Preserved m'.heap :=
  hm.layered.preserved hm.valid.objects he

/-- A machine may store an object that names only objects from before, or none. -/
theorem Founded.store {m' : Machine} (hm : m.Founded) (hvalid : m'.Valid)
    (hheap : m'.heap = m.heap ∨ ∃ o : Object, o.Live m.heap ∧ m'.heap = m.heap.alloc o) :
    m'.Founded ∧ m.heap.Extended m'.heap := by
  rcases hheap with hheap | ⟨o, ho, hheap⟩
  · rw [hheap]
    refine ⟨⟨hvalid, ?_⟩, .refl m.heap⟩
    rw [hheap]
    exact hm.layered
  · rw [hheap]
    refine ⟨⟨hvalid, ?_⟩, .alloc m.heap o⟩
    rw [hheap]
    exact hm.layered.alloc ho

theorem Founded.alloc (hm : m.Founded) {o : Object} (ho : o.Live m.heap) : (m.alloc o).2.Founded :=
  (hm.store (hm.valid.alloc ho).1 (.inr ⟨o, ho, rfl⟩)).1

theorem Founded.same {m' : Machine} (hm : m.Founded) (hvalid : m'.Valid)
    (hheap : m'.heap = m.heap) : m'.Founded :=
  (hm.store hvalid (.inl hheap)).1

theorem Founded.of_eq {m' : Machine} (hm : m.Founded) (hheap : m'.heap = m.heap)
    (htexts : m'.texts = m.texts) (hrefs : m'.functionRefs = m.functionRefs) : m'.Founded :=
  hm.same (hm.valid.of_eq hheap htexts hrefs) hheap

theorem Founded.record (hm : m.Founded) (function : String) (c : Completion) :
    (m.record function c).Founded :=
  hm.same (hm.valid.record function c) (m.heap_record function c)

theorem Founded.leaveLoop {α : Type} (hm : m.Founded) (r : Except Exit α) :
    (m.leaveLoop r).Founded :=
  hm.same (hm.valid.leaveLoop r) (m.heap_leaveLoop r)

theorem Founded.escape (hm : m.Founded) (e : Exit) : (m.escape e).Founded :=
  hm.same (hm.valid.escape e) (m.heap_escape e)

theorem Founded.internText (hm : m.Founded) (text : String) :
    (m.internText text).2.Founded ∧ m.heap.Extended (m.internText text).2.heap := by
  refine hm.store (hm.valid.internText text).1 ?_
  unfold Machine.internText
  split
  · exact .inl rfl
  · exact .inr ⟨.string text, fun items hi => (by cases hi), rfl⟩

theorem Founded.internFunction (hm : m.Founded) (name : String) :
    (m.internFunction name).2.Founded ∧ m.heap.Extended (m.internFunction name).2.heap := by
  refine hm.store (hm.valid.internFunction name).1 ?_
  unfold Machine.internFunction
  split
  · exact .inl rfl
  · exact .inr ⟨.function name, fun items hi => (by cases hi), rfl⟩

end Machine

/-! ## The discipline -/

/-- The discipline of storing objects and changing none, by code that does not push. -/
def immutability : Discipline where
  Sound m := m.Founded
  Keeps h s := s.Live h
  Holds h v := v.Live h
  Step m _ m' := m.heap.Extended m'.heap
  Allows k := k ≠ .push
  Callable f := Stmt.anyHas .push f.body = false

/-- Code without a push has only constructs that are allowed. -/
theorem allows_of_lacks {p : Construct → Bool} (hp : p .push = false) (k : Construct)
    (hk : p k = true) : immutability.Allows k := by
  rintro rfl
  rw [hp] at hk
  cases hk

theorem immutability_lawful {ctx : Context} (hctx : ctx.Lacks .push) :
    immutability.Lawful ctx where
  refl m := .refl m.heap
  trans h₁ h₂ := h₁.trans h₂
  keeps_mono h hs := Scope.Live.mono hs h.size_le
  holds_mono h hv := Value.Live.mono hv h.size_le
  holds_plain h := by
    rintro r rfl
    cases h
  holds_lookup hs hb := Scope.All.lookup hs hb
  holds_item hm hr hv := (Machine.Founded.valid hm).objects _ _ hr _ rfl _ hv
  keeps_root _ := Scope.all_root
  keeps_child hs := Scope.All.child hs
  keeps_define hs hv _ := Scope.Live.define hs hv _ _
  internText text hm :=
    ⟨Machine.Founded.internText hm text,
      ((Machine.Founded.valid hm).internText text).2.2⟩
  internFunction name hm :=
    ⟨Machine.Founded.internFunction hm name,
      ((Machine.Founded.valid hm).internFunction name).2.2⟩
  alloc {m} _ o _ _ hm hitems _ := by
    obtain ⟨hvalid, hv⟩ := (Machine.Founded.valid hm).alloc (o := o) hitems
    exact ⟨Machine.Founded.store hm hvalid (.inr ⟨o, hitems, rfl⟩), hv⟩
  append h _ _ _ _ := absurd rfl h
  raise {m} _ _ _ := .refl m.heap
  dangling {m} _ _ _ _ := .refl m.heap
  caught _ _ h := ⟨Machine.Founded.of_eq h.1 rfl rfl rfl, h.2⟩
  turn _ h := h
  enterLoop hm := Machine.Founded.of_eq hm rfl rfl rfl
  leaveLoop {m m'} r _ h := by
    refine ⟨Machine.Founded.leaveLoop h.1 r, ?_⟩
    show m.heap.Extended (m'.leaveLoop r).heap
    rw [Machine.heap_leaveLoop]
    exact h.2
  enterCall hm _ := Machine.Founded.of_eq hm rfl rfl rfl
  complete {m m'} f c _ _ _ h := by
    have hleave : m'.leaveCall.Founded := Machine.Founded.of_eq h.1 rfl rfl rfl
    refine ⟨hleave.record f.name c, ?_⟩
    show m.heap.Extended (m'.leaveCall.record f.name c).heap
    rw [Machine.heap_record]
    exact h.2
  abandon _ _ _ _ _ h := ⟨Machine.Founded.of_eq h.1 rfl rfl rfl, h.2⟩
  callable {name f} hf := hctx name f hf
  allows_body {f k} hf hk := allows_of_lacks (p := fun k => Stmt.anyHas k f.body) hf k hk

/-! ## Outcomes -/

/-- From one machine it came to another one, which is founded: nothing is to be told of what was
live that was not the same before, and whatever is asked of a value now has an answer. -/
structure Machine.Preserves (m m' : Machine) : Prop where
  founded : m'.Founded
  preserved : m.heap.Preserved m'.heap
  observable : m'.heap.Observable

theorem Machine.Founded.preserves {m m' : Machine} {o : Option Exit} (hm : m.Founded)
    (hl : immutability.Leads m o m') : m.Preserves m' where
  founded := hl.1
  preserved := hm.preserved hl.2
  observable := Founded.observable hl.1

theorem Machine.Preserves.escape {m m' : Machine} (h : m.Preserves m') (e : Exit) :
    m.Preserves (m'.escape e) where
  founded := h.founded.escape e
  preserved := by
    rw [Machine.heap_escape]
    exact h.preserved
  observable := by
    rw [Machine.heap_escape]
    exact h.observable

section Outcomes

variable {ctx : Context} {fuel : Nat}

theorem preserves_of_exec {x : Exec Value} {a b : Activation} {r : Except Exit Value}
    (hx : immutability.Runs a x immutability.Yields) (hlive : liveness.Runs a x liveness.Yields)
    (ha : a.Founded) (h : x a = some (r, b)) :
    a.machine.Preserves b.machine ∧ b.scope.Live b.machine.heap ∧ LiveOutcome b.machine.heap r := by
  obtain ⟨hb, hs⟩ := hx.ends h
  exact ⟨ha.machine.preserves ⟨hb.sound, hs⟩, hb.keeps, (live_of_runs hlive h).2⟩

theorem preserves_of_eval {α : Type} {x : Eval α} {holds : α → Machine → Prop} {m m' : Machine}
    {r : Except Fault α} (hx : immutability.From m x holds) (hlive : liveness.From m x holds)
    (hm : m.Founded) (h : x m = some (r, m')) :
    m.Preserves m' ∧ LiveResult (fun a => holds a m') r :=
  ⟨hm.preserves (hx.ends h), (live_of_from hlive h).2.2⟩

theorem preserves_of_runIn {i : Interpreter} {p : Program} {scope : Scope}
    {ran : Interpreter.Ran} (h : i.runIn fuel scope p = some ran) (hi : i.context.Lacks .push)
    (hp : p.Lacks .push) (hm : i.machine.Founded) (hs : scope.Live i.machine.heap) :
    i.machine.Preserves ran.interpreter.machine ∧ ran.scope.Live ran.interpreter.machine.heap ∧
      LiveResult (fun v => ∀ w, v = some w → w.Live ran.interpreter.machine.heap) ran.result := by
  obtain ⟨-, hscope, -, hresult⟩ := live_of_runIn h hm.valid hs
  refine ⟨?_, hscope, hresult⟩
  have L := immutability_lawful (Interpreter.lacks_declareAll hi hp.functions)
  obtain ⟨b, hb, -, ⟨v, -, hmachine, hstep, -⟩ | ⟨e, -, hmachine, hstep⟩⟩ :=
    L.runIn (allows_of_lacks hp.statements)
      hm hs h
  · rw [hmachine]
    exact hm.preserves ⟨hb.sound, hstep⟩
  · rw [hmachine]
    exact (hm.preserves ⟨hb.sound, hstep⟩).escape e

theorem preserves_of_complete {i i' : Interpreter} {name : String} {args : List Value}
    {r : Except Fault Completion} (h : i.complete fuel name args = some (r, i'))
    (hi : i.context.Lacks .push) (hm : i.machine.Founded)
    (hargs : ∀ v ∈ args, v.Live i.machine.heap) :
    i.machine.Preserves i'.machine ∧ LiveResult (fun c => c.value.Live i'.machine.heap) r :=
  ⟨hm.preserves ((immutability_lawful hi).complete_ends hm hargs h),
    (live_of_complete h hm.valid hargs).2.2⟩

end Outcomes

/-- A task without a push, in its code and in the function that it calls, that comes with live
values from a founded activation. -/
structure Moment.Founded (c : Moment) : Prop where
  start : c.start.Founded
  code : c.task.has .push = false
  callee : ∀ f args, c.task = .call f args → Stmt.anyHas .push f.body = false
  live : ∀ v ∈ c.task.values, v.Live c.start.machine.heap

theorem Moment.Founded.of_reaches {ctx : Context} (hctx : ctx.Lacks .push) {c d : Moment}
    (hc : c.Founded) (h : c.Reaches ctx d) : d.Founded := by
  have hready : c.Ready immutability := {
    start := ⟨hc.start.machine, hc.start.scope⟩
    allows := allows_of_lacks hc.code
    callable := hc.callee
    holds := hc.live }
  obtain ⟨⟨hm, hs⟩, hallows, hcallee, hlive⟩ := hready.of_reaches (immutability_lawful hctx) h
  refine ⟨⟨hm, hs⟩, ?_, hcallee, hlive⟩
  rw [Bool.eq_false_iff]
  exact fun hpush => hallows .push hpush rfl

/-- A question at a moment of a founded run has an answer. -/
theorem Moment.Founded.answered {c : Moment} (hc : c.Founded) : c.Answered := by
  obtain ⟨fuel, task, s⟩ := c
  have hobservable := hc.start.machine.observable
  cases task with
  | equal x y => exact hobservable.equal x y
  | shown v => exact hobservable.text v
  | _ => trivial

/-! ## Immutability -/

/-- **Without a push, values are immutable.**  Let no declared function push, and let the machine be
founded.  Then whatever is carried out without a push, and however it ends, it ends with a founded
machine: the heap is the old one with perhaps more objects after it, all that can be told of values
that were live before, by showing them, by their shapes, by checking them against annotations and
by comparing them, is as it was, and every value can be shown and any two compared.  So it is of a
statement, a body, an expression, a call, a program and a call by a host.

At every moment on the way, whether the run ends or not, the machine is founded as well, so that no
question which the run asks is left without an answer. -/
theorem values_immutable (ctx : Context) (fuel : Nat) (hctx : ctx.Lacks .push) :
    (∀ (s : Stmt) (a b : Activation) (r : Except Exit Value), s.has .push = false →
      a.Founded → s.run ctx fuel a = some (r, b) →
        a.machine.Preserves b.machine ∧ b.scope.Live b.machine.heap ∧
          LiveOutcome b.machine.heap r) ∧
    (∀ (body : List Stmt) (a b : Activation) (r : Except Exit Value),
      Stmt.anyHas .push body = false → a.Founded →
        Stmt.execAll ctx (ctx.calls fuel) fuel .unit body a = some (r, b) →
          a.machine.Preserves b.machine ∧ b.scope.Live b.machine.heap ∧
            LiveOutcome b.machine.heap r) ∧
    (∀ (e : Expr) (scope : Scope) (m m' : Machine) (r : Except Fault Value),
      e.has .push = false → m.Founded → scope.Live m.heap →
        e.run ctx fuel scope m = some (r, m') →
          m.Preserves m' ∧ LiveResult (fun v => v.Live m'.heap) r) ∧
    (∀ (caller : Scope) (f : Function) (args : List Value) (m m' : Machine)
        (r : Except Fault Completion), Stmt.anyHas .push f.body = false → m.Founded →
      caller.Live m.heap → (∀ v ∈ args, v.Live m.heap) →
        ctx.calls fuel caller f args m = some (r, m') →
          m.Preserves m' ∧ LiveResult (fun c => c.value.Live m'.heap) r) ∧
    (∀ (i : Interpreter) (scope : Scope) (p : Program) (ran : Interpreter.Ran),
      i.context = ctx → p.Lacks .push → i.machine.Founded → scope.Live i.machine.heap →
        i.runIn fuel scope p = some ran →
          i.machine.Preserves ran.interpreter.machine ∧
            ran.scope.Live ran.interpreter.machine.heap ∧
              LiveResult (fun v => ∀ w, v = some w → w.Live ran.interpreter.machine.heap)
                ran.result) ∧
    (∀ (i i' : Interpreter) (name : String) (args : List Value) (r : Except Fault Completion),
      i.context = ctx → i.machine.Founded → (∀ v ∈ args, v.Live i.machine.heap) →
        i.complete fuel name args = some (r, i') →
          i.machine.Preserves i'.machine ∧ LiveResult (fun c => c.value.Live i'.machine.heap) r) ∧
    (∀ c : Moment, c.Founded →
      (∀ d, c.Reaches ctx d → d.start.Founded ∧ d.start.machine.heap.Observable) ∧
        c.AllAnswered ctx) := by
  have L := immutability_lawful hctx
  have Llive := liveness_lawful ctx
  refine ⟨?stmt, ?body, ?expr, ?call, ?program, ?host, ?moment⟩
  case stmt =>
    intro s a b r hs ha h
    have hready : immutability.Ready a := ⟨ha.machine, ha.scope⟩
    have hvalid : liveness.Ready a := ⟨ha.machine.valid, ha.scope⟩
    exact preserves_of_exec (L.runs_run fuel (allows_of_lacks hs) hready)
      (Llive.runs_run fuel (fun _ _ => trivial) hvalid) ha h
  case body =>
    intro body a b r hbody ha h
    have hready : immutability.Ready a := ⟨ha.machine, ha.scope⟩
    have hvalid : liveness.Ready a := ⟨ha.machine.valid, ha.scope⟩
    exact preserves_of_exec (L.runs_body fuel (allows_of_lacks hbody) hready)
      (Llive.runs_body fuel (fun _ _ => trivial) hvalid) ha h
  case expr =>
    intro e scope m m' r he hm hs h
    exact preserves_of_eval (L.from_run fuel (allows_of_lacks he) hm hs)
      (Llive.from_run fuel (fun _ _ => trivial) hm.valid hs) hm h
  case call =>
    intro caller f args m m' r hf hm hs hargs h
    exact preserves_of_eval (L.covers_calls fuel f caller args m hf hm hs hargs)
      (Llive.covers_calls fuel f caller args m trivial hm.valid hs hargs) hm h
  case program =>
    intro i scope p ran hi hp hm hs h
    subst hi
    exact preserves_of_runIn h hctx hp hm hs
  case host =>
    intro i i' name args r hi hm hargs h
    subst hi
    exact preserves_of_complete h hctx hm hargs
  case moment =>
    intro c hc
    refine ⟨fun d hd => ?_, fun d hd => (hc.of_reaches hctx hd).answered⟩
    have hstart := (hc.of_reaches hctx hd).start
    exact ⟨hstart, hstart.machine.observable⟩

/-- A function that puts its operand into a list twice. -/
def twice : Function where
  name := "twice"
  params := [⟨"x", none⟩]
  body := [.ret (some (.list [.ident "x", .ident "x"]))]

/-- A list joined with one that holds it twice, which is thrown, caught, and compared with the
first. -/
def joinsTwice : Stmt :=
  .block [
    .declare "ys" none (.arith .add (.ident "xs") (.call "twice" [.ident "xs"])),
    .guarded [.raise (.ident "ys")] "e" [.ret (some (.eq (.ident "xs") (.ident "ys")))]]

/-- A machine with a string, and with a list that holds it. -/
def stringInList : Machine := (({} : Machine).alloc (.string "a")).2.alloc (.list #[.ref ⟨0⟩]) |>.2

theorem founded_stringInList : stringInList.Founded := by
  have hstring := Machine.founded_empty.alloc (o := .string "a") fun items hi => by cases hi
  refine hstring.alloc fun items hi v hv => ?_
  cases hi
  rw [Array.mem_singleton.mp hv]
  exact Value.live_ref Nat.zero_lt_one

/-- Four objects later, the list still has the text that it had. -/
theorem values_immutable_joinsTwice :
    ∃ r b, joinsTwice.run ⟨{}, (∅ : Std.ExtTreeMap String Function).insert "twice" twice⟩ 2
        ⟨Scope.root.define "xs" { value := .ref ⟨1⟩ }, stringInList⟩ = some (r, b) ∧
      stringInList.Preserves b.machine ∧ b.machine.heap.size = 5 ∧
        b.machine.heap.show? (.ref ⟨1⟩) = some "[a]" := by
  have hsize : (joinsTwice.run ⟨{}, (∅ : Std.ExtTreeMap String Function).insert "twice" twice⟩ 2
      ⟨Scope.root.define "xs" { value := .ref ⟨1⟩ }, stringInList⟩).map
        (fun p => p.2.machine.heap.size) = some 5 := by
    decide +kernel
  obtain ⟨⟨r, b⟩, hrun, hfive⟩ := Option.map_eq_some_iff.mp hsize
  have hlacks : Context.Lacks ⟨{}, (∅ : Std.ExtTreeMap String Function).insert "twice" twice⟩
      .push := by
    intro name f hf
    rw [Context.eq_of_single hf]
    decide
  have hone : (Value.ref ⟨1⟩).Live stringInList.heap := Value.live_ref Nat.one_lt_two
  have hscope : (Scope.root.define "xs" { value := .ref ⟨1⟩ }).Live stringInList.heap :=
    Scope.Live.define Scope.all_root hone "xs" none
  have hkept := ((values_immutable _ 2 hlacks).1 joinsTwice _ b r (by decide)
    ⟨founded_stringInList, hscope⟩ hrun).1
  refine ⟨r, b, hrun, hkept, hfive, ?_⟩
  rw [hkept.preserved.text _ hone]
  decide +kernel

end Imperative
