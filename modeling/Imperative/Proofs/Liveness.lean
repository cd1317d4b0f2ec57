import Imperative.Proofs.Bindings
import Imperative.Proofs.Discipline.Interior
import Imperative.Proofs.Sessions

/-!
# No handle dangles

Handles are plain numbers, and reading through one that names no object is a fault that no
program can handle.  This file shows that no program can cause it either.  A value is *live*
in a heap if it is no handle, or a handle that names an object.  A machine is *valid* if every
handle that it stores is live, in its lists and in both tables of shared objects
(`Machine.Valid`); an activation is valid if, besides, all bindings of its scope are live.

From a valid activation everything is valid: what is evaluated, what is returned, and what
is left behind, also by an evaluation that fails midway.  As a discipline, `liveness`, this
is the one whose values in hand matter, because a value in hand may be stored at any time.
The heap never shrinks, so what is live stays live; a fetch through a live handle succeeds;
and so the one law with a fault in it, `Discipline.Lawful.dangling`, holds for want of a case.

For hosts it follows that whoever names only live handles never hears of a dangling one
(`handles_live`).
-/

namespace Imperative

/-- A handle names an object. -/
def Handle.Live (h : Heap) (r : Handle) : Prop := r.index < h.size

/-- A value is no handle, or a handle that names an object. -/
def Value.Live (h : Heap) (v : Value) : Prop := ∀ r, v = .ref r → r.Live h

/-- The items of an object are live, if it has any. -/
def Object.Live (h : Heap) (o : Object) : Prop := ∀ items, o = .list items → ∀ v ∈ items, v.Live h

/-- Every binding of a scope is live, in all its frames. -/
def Scope.Live (h : Heap) (s : Scope) : Prop := s.All fun b => b.value.Live h

/-- Every handle that a machine stores is live: in its lists, and in the tables of shared
objects. -/
structure Machine.Valid (m : Machine) : Prop where
  objects : ∀ r o, m.heap.get? r = some o → o.Live m.heap
  texts : ∀ (text : String) (r : Handle), m.texts[text]? = some r → r.Live m.heap
  functionRefs : ∀ (name : String) (r : Handle), m.functionRefs[name]? = some r → r.Live m.heap

/-- Every handle that an activation can reach is live. -/
structure Activation.Valid (a : Activation) : Prop where
  machine : a.machine.Valid
  scope : a.scope.Live a.machine.heap

/-! ## What is live stays live -/

section Growing

variable {h h' : Heap}

theorem Handle.Live.mono {r : Handle} (hr : r.Live h) (hle : h.size ≤ h'.size) : r.Live h' :=
  Nat.lt_of_lt_of_le hr hle

theorem Value.Live.mono {v : Value} (hv : v.Live h) (hle : h.size ≤ h'.size) : v.Live h' :=
  fun r hr => (hv r hr).mono hle

theorem Object.Live.mono {o : Object} (ho : o.Live h) (hle : h.size ≤ h'.size) : o.Live h' :=
  fun items hi v hv => (ho items hi v hv).mono hle

theorem Scope.Live.mono {s : Scope} (hs : s.Live h) (hle : h.size ≤ h'.size) : s.Live h' :=
  hs.imp fun _ hb => hb.mono hle

theorem Scope.Live.define {s : Scope} (hs : s.Live h) {v : Value} (hv : v.Live h) (name : String)
    (ty : Option Ty) : (s.define name { value := v, ty }).Live h :=
  Scope.All.define (p := fun b => b.value.Live h) hs hv name

theorem Value.live_ref {r : Handle} (hr : r.Live h) : (Value.ref r).Live h := by
  intro q hq
  cases hq
  exact hr

/-- A live handle names an object. -/
theorem Handle.Live.get?_ne_none {r : Handle} (hr : r.Live h) : h.get? r ≠ none := by
  rw [Ne, h.get?_eq_none_iff]
  exact Nat.not_le_of_lt hr

theorem Handle.Live.fetch_ne_error {r : Handle} (hr : r.Live h) (f : Fault) :
    h.fetch r ≠ .error f :=
  fun hf => hr.get?_ne_none (Heap.fetch_eq_error_iff.mp hf).1

theorem Handle.live_next (h : Heap) (o : Object) : h.next.Live (h.alloc o) := by
  show h.size < (h.alloc o).size
  rw [h.size_alloc]
  exact Nat.lt_succ_self h.size

theorem Heap.size_le_alloc (h : Heap) (o : Object) : h.size ≤ (h.alloc o).size := by
  rw [h.size_alloc]
  exact Nat.le_succ h.size

end Growing

/-! ## Changes of a valid machine -/

namespace Machine

variable {m : Machine}

theorem valid_empty : Machine.Valid {} where
  objects r o ho := by
    rw [Heap.get?_empty] at ho
    cases ho
  texts text r hr := by
    rw [Std.ExtTreeMap.getElem?_empty] at hr
    cases hr
  functionRefs name r hr := by
    rw [Std.ExtTreeMap.getElem?_empty] at hr
    cases hr

theorem Valid.of_eq {m' : Machine} (hm : m.Valid) (hheap : m'.heap = m.heap)
    (htexts : m'.texts = m.texts) (hrefs : m'.functionRefs = m.functionRefs) : m'.Valid where
  objects := by
    rw [hheap]
    exact hm.objects
  texts := by
    rw [hheap, htexts]
    exact hm.texts
  functionRefs := by
    rw [hheap, hrefs]
    exact hm.functionRefs

/-- Objects may be stored and changed, as long as each is live in the heap that results. -/
theorem Valid.withHeap (hm : m.Valid) {h : Heap} (hle : m.heap.size ≤ h.size)
    (hobjects : ∀ r o, h.get? r = some o → o.Live h) : Valid { m with heap := h } where
  objects := hobjects
  texts text r hr := (hm.texts text r hr).mono hle
  functionRefs name r hr := (hm.functionRefs name r hr).mono hle

theorem Valid.alloc (hm : m.Valid) {o : Object} (ho : o.Live m.heap) :
    (m.alloc o).2.Valid ∧ (m.alloc o).1.Live (m.alloc o).2.heap := by
  have hle := m.heap.size_le_alloc o
  refine ⟨hm.withHeap hle fun r p hp => ?_, Value.live_ref (Handle.live_next m.heap o)⟩
  rw [Heap.get?_alloc] at hp
  split at hp
  · cases hp
    exact ho.mono hle
  · exact (hm.objects r p hp).mono hle

theorem Valid.append (hm : m.Valid) {r : Handle} {v : Value} (hv : v.Live m.heap) :
    Valid { m with heap := m.heap.append r v } := by
  have hle : m.heap.size ≤ (m.heap.append r v).size := Nat.le_of_eq (m.heap.size_append r v).symm
  refine hm.withHeap hle fun q p hp => ?_
  rw [Heap.get?_append] at hp
  split at hp
  · obtain ⟨o, ho, rfl⟩ := Option.map_eq_some_iff.mp hp
    intro items hitems w hw
    cases o with
    | string s => cases hitems
    | function name => cases hitems
    | list old =>
      cases hitems
      rcases Array.mem_push.mp hw with hw | rfl
      · exact (hm.objects q _ ho old rfl w hw).mono hle
      · exact hv.mono hle
  · exact (hm.objects q p hp).mono hle

theorem Valid.replace (hm : m.Valid) {r : Handle} {o : Object} (ho : o.Live m.heap) :
    Valid { m with heap := m.heap.replace r o } := by
  have hle : m.heap.size ≤ (m.heap.replace r o).size := Nat.le_of_eq (m.heap.size_replace r o).symm
  refine hm.withHeap hle fun q p hp => ?_
  rw [Heap.get?_replace] at hp
  split at hp
  · obtain ⟨old, -, rfl⟩ := Option.map_eq_some_iff.mp hp
    exact ho.mono hle
  · exact (hm.objects q p hp).mono hle

theorem live_insert {h h' : Heap} {table : Std.ExtTreeMap String Handle}
    (htable : ∀ (key : String) (r : Handle), table[key]? = some r → r.Live h)
    (hle : h.size ≤ h'.size) {q : Handle} (hq : q.Live h') (name key : String) (r : Handle)
    (hr : (table.insert name q)[key]? = some r) : r.Live h' := by
  rw [Std.ExtTreeMap.getElem?_insert] at hr
  split at hr
  · cases hr
    exact hq
  · exact (htable key r hr).mono hle

theorem Valid.internText (hm : m.Valid) (text : String) :
    (m.internText text).2.Valid ∧ m.heap.size ≤ (m.internText text).2.heap.size ∧
      (m.internText text).1.Live (m.internText text).2.heap := by
  unfold Machine.internText
  split
  · next r hr => exact ⟨hm, Nat.le_refl _, Value.live_ref (hm.texts text r hr)⟩
  · have hle := m.heap.size_le_alloc (.string text)
    have hnext := Handle.live_next m.heap (.string text)
    obtain ⟨hvalid, hv⟩ := hm.alloc (o := .string text) fun items hi => by cases hi
    exact ⟨⟨hvalid.objects, live_insert hm.texts hle hnext text, hvalid.functionRefs⟩, hle, hv⟩

theorem Valid.internFunction (hm : m.Valid) (name : String) :
    (m.internFunction name).2.Valid ∧ m.heap.size ≤ (m.internFunction name).2.heap.size ∧
      (m.internFunction name).1.Live (m.internFunction name).2.heap := by
  unfold Machine.internFunction
  split
  · next r hr => exact ⟨hm, Nat.le_refl _, Value.live_ref (hm.functionRefs name r hr)⟩
  · have hle := m.heap.size_le_alloc (.function name)
    have hnext := Handle.live_next m.heap (.function name)
    obtain ⟨hvalid, hv⟩ := hm.alloc (o := .function name) fun items hi => by cases hi
    exact ⟨⟨hvalid.objects, hvalid.texts, live_insert hm.functionRefs hle hnext name⟩, hle, hv⟩

theorem Valid.record (hm : m.Valid) (function : String) (c : Completion) :
    (m.record function c).Valid := by
  cases c with
  | returned s => exact hm.of_eq rfl rfl rfl
  | fellThrough v => exact hm.of_eq rfl rfl rfl

theorem Valid.leaveLoop {α : Type} (hm : m.Valid) (r : Except Exit α) : (m.leaveLoop r).Valid := by
  unfold Machine.leaveLoop
  split
  · exact hm.of_eq rfl rfl rfl
  · exact hm.of_eq rfl rfl rfl

theorem Valid.escape (hm : m.Valid) (e : Exit) : (m.escape e).Valid := by
  cases e with
  | returned s => exact hm.of_eq rfl rfl rfl
  | broke => exact hm
  | continued => exact hm
  | failed f => exact hm

end Machine

/-! ## The discipline -/

/-- The discipline of naming only objects that there are, and of never failing with a dangling
handle. -/
def liveness : Discipline where
  Sound m := m.Valid
  Keeps h s := s.Live h
  Holds h v := v.Live h
  Step m o m' := m.heap.size ≤ m'.heap.size ∧ ∀ r, o ≠ some (.failed (.danglingReference r))
  Allows _ := True
  Callable _ := True

theorem liveness_step {m m' : Machine} (hle : m.heap.size ≤ m'.heap.size) :
    liveness.Step m none m' := by
  refine ⟨hle, fun r hr => ?_⟩
  cases hr

theorem liveness_lawful (ctx : Context) : liveness.Lawful ctx where
  refl _ := liveness_step (Nat.le_refl _)
  trans h₁ h₂ := ⟨Nat.le_trans h₁.1 h₂.1, h₂.2⟩
  keeps_mono h hs := Scope.Live.mono hs h.1
  holds_mono h hv := Value.Live.mono hv h.1
  holds_plain h := by
    rintro r rfl
    cases h
  holds_lookup hs hb := Scope.All.lookup hs hb
  holds_item hm hr hv := (Machine.Valid.objects hm _ _ hr) _ rfl _ hv
  keeps_root _ := Scope.all_root
  keeps_child hs := Scope.All.child hs
  keeps_define hs hv _ := Scope.Live.define hs hv _ _
  internText text hm := by
    obtain ⟨hvalid, hle, hv⟩ := Machine.Valid.internText hm text
    exact ⟨⟨hvalid, liveness_step hle⟩, hv⟩
  internFunction name hm := by
    obtain ⟨hvalid, hle, hv⟩ := Machine.Valid.internFunction hm name
    exact ⟨⟨hvalid, liveness_step hle⟩, hv⟩
  alloc {m} _ o _ _ hm hitems _ := by
    obtain ⟨hvalid, hv⟩ := Machine.Valid.alloc hm (o := o) hitems
    exact ⟨⟨hvalid, liveness_step (m.heap.size_le_alloc o)⟩, hv⟩
  append {m} r _ v _ hm _ _ hv :=
    ⟨Machine.Valid.append hm hv, liveness_step (Nat.le_of_eq (m.heap.size_append r v).symm)⟩
  raise {m e} _ he := by
    refine ⟨Nat.le_refl _, fun r hr => ?_⟩
    cases hr
    have hinternal : true = false := he _ rfl
    cases hinternal
  dangling _ hr hnone := absurd hnone (Handle.Live.get?_ne_none (hr _ rfl))
  caught _ _ h := ⟨Machine.Valid.of_eq h.1 rfl rfl rfl, liveness_step h.2.1⟩
  turn _ h := liveness_step h.1
  enterLoop hm := Machine.Valid.of_eq hm rfl rfl rfl
  leaveLoop {m m'} r _ h := by
    refine ⟨Machine.Valid.leaveLoop h.1 r, ?_, h.2.2⟩
    rw [Machine.heap_leaveLoop]
    exact h.2.1
  enterCall hm _ := Machine.Valid.of_eq hm rfl rfl rfl
  complete {m m'} f c _ _ _ h := by
    have hleave : m'.leaveCall.Valid := Machine.Valid.of_eq h.1 rfl rfl rfl
    refine ⟨hleave.record f.name c, liveness_step ?_⟩
    rw [Machine.heap_record]
    exact h.2.1
  abandon {m m' f e} _ _ _ _ _ h := by
    refine ⟨Machine.Valid.of_eq h.1 rfl rfl rfl, h.2.1, fun r hr => ?_⟩
    cases e with
    | returned s => cases hr
    | broke => cases hr
    | continued => cases hr
    | failed f =>
      cases hr
      exact h.2.2 r rfl
  callable _ := trivial
  allows_body _ _ := trivial

/-! ## Outcomes -/

/-- A result holds what it should, if it holds anything, and does not complain of a dangling
handle. -/
def LiveResult {α : Type} (holds : α → Prop) : Except Fault α → Prop
  | .ok a => holds a
  | .error f => ∀ r, f ≠ .danglingReference r

/-- The value that an outcome carries is live, also in a return, and the outcome does not
complain of a dangling handle. -/
def LiveOutcome (h : Heap) : Except Exit Value → Prop
  | .ok v => v.Live h
  | .error (.returned s) => s.toValue.Live h
  | .error (.failed f) => ∀ r, f ≠ .danglingReference r
  | .error .broke => True
  | .error .continued => True

theorem LiveResult.ne_dangling {α : Type} {holds : α → Prop} {result : Except Fault α}
    (h : LiveResult holds result) (r : Handle) : result ≠ .error (.danglingReference r) := by
  intro hr
  rw [hr] at h
  exact h r rfl

section Outcomes

variable {ctx : Context} {fuel : Nat}

theorem step_ne_dangling {m m' : Machine} {f : Fault} (h : liveness.Step m (some (.failed f)) m')
    (r : Handle) : f ≠ .danglingReference r :=
  fun hf => h.2 r (by rw [hf])

theorem live_of_from {α : Type} {x : Eval α} {holds : α → Machine → Prop} {m m' : Machine}
    {r : Except Fault α} (hx : liveness.From m x holds) (h : x m = some (r, m')) :
    m'.Valid ∧ m.heap.size ≤ m'.heap.size ∧ LiveResult (fun a => holds a m') r := by
  cases r with
  | ok a =>
    obtain ⟨hl, ha⟩ := hx.ok a m' h
    exact ⟨hl.1, hl.2.1, ha⟩
  | error f =>
    have hl := hx.error f m' h
    exact ⟨hl.1, hl.2.1, step_ne_dangling hl.2⟩

theorem live_of_runs {x : Exec Value} {a b : Activation} {r : Except Exit Value}
    (hx : liveness.Runs a x liveness.Yields) (h : x a = some (r, b)) :
    b.Valid ∧ LiveOutcome b.machine.heap r := by
  obtain ⟨hb, hs⟩ := hx.ends h
  refine ⟨⟨hb.sound, hb.keeps⟩, ?_⟩
  cases r with
  | ok v => exact (hx.ok v b h).2.2
  | error e =>
    cases e with
    | returned s => exact (hx.error _ b h).2.2 s rfl
    | broke => exact trivial
    | continued => exact trivial
    | failed f => exact step_ne_dangling hs

theorem live_of_call {caller : Scope} {f : Function} {args : List Value} {m m' : Machine}
    {r : Except Fault Completion} (h : ctx.calls fuel caller f args m = some (r, m'))
    (hm : m.Valid) (hs : caller.Live m.heap) (hargs : ∀ v ∈ args, v.Live m.heap) :
    m'.Valid ∧ m.heap.size ≤ m'.heap.size ∧ LiveResult (fun c => c.value.Live m'.heap) r :=
  live_of_from ((liveness_lawful ctx).covers_calls fuel f caller args m trivial hm hs hargs) h

end Outcomes

/-! ## What a host does -/

theorem live_of_runIn {i : Interpreter} {p : Program} {scope : Scope} {fuel : Nat}
    {ran : Interpreter.Ran} (h : i.runIn fuel scope p = some ran) (hm : i.machine.Valid)
    (hs : scope.Live i.machine.heap) :
    ran.interpreter.machine.Valid ∧ ran.scope.Live ran.interpreter.machine.heap ∧
      i.machine.heap.size ≤ ran.interpreter.machine.heap.size ∧
        LiveResult (fun v => ∀ w, v = some w → w.Live ran.interpreter.machine.heap) ran.result := by
  obtain ⟨b, hb, hscope, ⟨v, hr, hmachine, hstep, hv⟩ | ⟨e, hr, hmachine, hstep⟩⟩ :=
    (liveness_lawful _).runIn (fun _ _ => trivial) hm hs h
  · rw [hscope, hr, hmachine]
    exact ⟨hb.sound, hb.keeps, hstep.1, hv⟩
  · rw [hscope, hr, hmachine, Machine.heap_escape]
    refine ⟨Machine.Valid.escape hb.sound e, hb.keeps, hstep.1, ?_⟩
    cases e with
    | returned s => exact fun r hf => by cases hf
    | broke => exact fun r hf => by cases hf
    | continued => exact fun r hf => by cases hf
    | failed f => exact step_ne_dangling hstep

theorem live_of_complete {i i' : Interpreter} {name : String} {args : List Value} {fuel : Nat}
    {r : Except Fault Completion} (h : i.complete fuel name args = some (r, i'))
    (hm : i.machine.Valid) (hargs : ∀ v ∈ args, v.Live i.machine.heap) :
    i'.machine.Valid ∧ i.machine.heap.size ≤ i'.machine.heap.size ∧
      LiveResult (fun c => c.value.Live i'.machine.heap) r := by
  obtain ⟨c, rfl, hl, hc⟩ | ⟨f, rfl, hl⟩ := (liveness_lawful _).complete_host hm hargs h
  · exact ⟨hl.1, hl.2.1, hc⟩
  · exact ⟨hl.1, hl.2.1, step_ne_dangling hl.2⟩

/-- A command names only live handles.  Commands that name none, or that look at what they
name without asking for its object, may be issued at any time. -/
def Command.Live (s : Session) : Command → Prop
  | .call _ args => ∀ v ∈ args, v.Live s.heap
  | .complete _ args => ∀ v ∈ args, v.Live s.heap
  | .store o => o.Live s.heap
  | .fetch r => r.Live s.heap
  | .replace r o => r.Live s.heap ∧ o.Live s.heap
  | .check v _ => v.Live s.heap
  | _ => True

/-- Every handle that a session keeps is live, in its machine and in all its scopes. -/
structure Session.Valid (s : Session) : Prop where
  machine : s.interpreter.machine.Valid
  scopes : ∀ name, (s.scope name).Live s.heap

namespace Session

theorem Valid.with {s : Session} {i : Interpreter} (hs : s.Valid) (hi : i.machine.Valid)
    (hle : s.heap.size ≤ i.machine.heap.size) : Session.Valid { s with interpreter := i } :=
  ⟨hi, fun name => (hs.scopes name).mono hle⟩

theorem Valid.insert {s : Session} {i : Interpreter} {scope : Scope} (hs : s.Valid)
    (hi : i.machine.Valid) (hle : s.heap.size ≤ i.machine.heap.size)
    (hscope : scope.Live i.machine.heap) (name : String) :
    Session.Valid { interpreter := i, scopes := s.scopes.insert name scope } := by
  refine ⟨hi, fun other => ?_⟩
  rw [scope_insert]
  split
  · exact hscope
  · exact (hs.scopes other).mono hle

theorem valid_start (limits : Limits) : (Session.start limits).Valid where
  machine := Machine.valid_empty
  scopes name := by
    rw [scope_start]
    exact Scope.all_root

/-- **A command that names only live handles keeps a session valid, and is not answered with
a complaint about a dangling handle.** -/
theorem Valid.performed {fuel : Nat} {s s' : Session} {command : Command} {reply : Reply}
    (hs : s.Valid) (hlive : command.Live s) (h : Performed fuel s command reply s') :
    s'.Valid ∧ ∀ r, reply ≠ .failed (.danglingReference r) := by
  cases h with
  | declare f => exact ⟨hs.with hs.machine (Nat.le_refl _), fun r hr => by cases hr⟩
  | run hran =>
    obtain ⟨hm, hscope, hle, hresult⟩ := live_of_runIn hran hs.machine (hs.scopes _)
    refine ⟨hs.insert hm hle hscope _, fun r => ?_⟩
    exact Reply.ofExcept_ne_failed (fun _ _ hf => by cases hf) (hresult.ne_dangling r)
  | runAlone hran =>
    obtain ⟨hm, -, hle, hresult⟩ := live_of_runIn hran hs.machine Scope.all_root
    refine ⟨hs.with hm hle, fun r => ?_⟩
    exact Reply.ofUnit_ne_failed (map_ne_error (hresult.ne_dangling r) _)
  | call hcomplete =>
    obtain ⟨hm, hle, hresult⟩ := live_of_complete hcomplete hs.machine hlive
    refine ⟨hs.with hm hle, fun r => ?_⟩
    exact Reply.ofExcept_ne_failed (fun _ _ hf => by cases hf)
      (map_ne_error (hresult.ne_dangling r) _)
  | complete hcomplete =>
    obtain ⟨hm, hle, hresult⟩ := live_of_complete hcomplete hs.machine hlive
    refine ⟨hs.with hm hle, fun r => ?_⟩
    exact Reply.ofExcept_ne_failed (fun _ _ hf => by cases hf) (hresult.ne_dangling r)
  | store o =>
    have hle : s.heap.size ≤ (s.heap.alloc o).size := s.heap.size_le_alloc o
    exact ⟨hs.with (hs.machine.alloc hlive).1 hle, fun r hr => by cases hr⟩
  | @replace r old o hold =>
    have hle : s.heap.size ≤ (s.heap.replace r o).size :=
      Nat.le_of_eq (s.heap.size_replace r o).symm
    exact ⟨hs.with (hs.machine.replace hlive.2) hle, fun r hr => by cases hr⟩
  | @refused r f o hf => exact absurd hf (hlive.1.fetch_ne_error f)
  | fetch r =>
    refine ⟨hs, fun q => ?_⟩
    exact Reply.ofExcept_ne_failed (fun _ _ hf => by cases hf) (hlive.fetch_ne_error _)
  | check v t =>
    refine ⟨hs, fun q => Reply.ofUnit_ne_failed fun hf => ?_⟩
    obtain hf | ⟨r, rfl, hnone, -⟩ := Heap.check_eq_error hf
    · cases hf
    · exact (hlive r rfl).get?_ne_none hnone
  | ask _ hreply => exact ⟨hs, fun r => hreply _⟩
  | copy source target =>
    have hle : s.heap.size ≤ s.interpreter.machine.heap.size := Nat.le_refl _
    exact ⟨hs.insert hs.machine hle (hs.scopes source) target, fun r hr => by cases hr⟩

theorem valid_of_reachable {limits : Limits} {s : Session}
    (h : s.Reachable (fun s command => command.Live s) limits) : s.Valid := by
  refine Reachable.induct (P := Session.Valid) (valid_start limits) ?_ h
  intro s s' fuel command reply hs hlive hperformed
  exact (hs.performed hlive hperformed).1

end Session

/-! ## Liveness -/

/-- **No handle dangles.**  From a valid state every evaluation, however it ends, leads to a
valid state; the values that it yields, or carries in a return, are live in the heap that it
leaves; and it does not end in the fault of a dangling handle.  The same holds of what a host
runs and calls, if the operands of a call are live.  So a session whose commands name only
live handles stays valid, and is never answered with that fault. -/
theorem handles_live (ctx : Context) (fuel : Nat) :
    (∀ (s : Stmt) (a b : Activation) (r : Except Exit Value),
      s.run ctx fuel a = some (r, b) → a.Valid → b.Valid ∧ LiveOutcome b.machine.heap r) ∧
    (∀ (body : List Stmt) (a b : Activation) (r : Except Exit Value),
      Stmt.execAll ctx (ctx.calls fuel) fuel .unit body a = some (r, b) → a.Valid →
        b.Valid ∧ LiveOutcome b.machine.heap r) ∧
    (∀ (e : Expr) (scope : Scope) (m m' : Machine) (r : Except Fault Value),
      e.run ctx fuel scope m = some (r, m') → m.Valid → scope.Live m.heap →
        m'.Valid ∧ scope.Live m'.heap ∧ LiveResult (fun v => v.Live m'.heap) r) ∧
    (∀ (caller : Scope) (f : Function) (args : List Value) (m m' : Machine)
        (r : Except Fault Completion),
      ctx.calls fuel caller f args m = some (r, m') → m.Valid → caller.Live m.heap →
        (∀ v ∈ args, v.Live m.heap) →
          m'.Valid ∧ caller.Live m'.heap ∧ LiveResult (fun c => c.value.Live m'.heap) r) ∧
    (∀ (i : Interpreter) (scope : Scope) (p : Program) (ran : Interpreter.Ran),
      i.runIn fuel scope p = some ran → i.machine.Valid → scope.Live i.machine.heap →
        ran.interpreter.machine.Valid ∧ ran.scope.Live ran.interpreter.machine.heap ∧
          LiveResult (fun v => ∀ w, v = some w → w.Live ran.interpreter.machine.heap)
            ran.result) ∧
    (∀ (i i' : Interpreter) (name : String) (args : List Value) (r : Except Fault Completion),
      i.complete fuel name args = some (r, i') → i.machine.Valid →
        (∀ v ∈ args, v.Live i.machine.heap) →
          i'.machine.Valid ∧ LiveResult (fun c => c.value.Live i'.machine.heap) r) ∧
    (∀ (limits : Limits) (s : Session),
      s.Reachable (fun s command => command.Live s) limits → s.Valid ∧
        ∀ (n : Nat) (command : Command) (reply : Reply) (s' : Session),
          command.Live s → s.perform n command = some (reply, s') →
            ∀ r, reply ≠ .failed (.danglingReference r)) := by
  have L := liveness_lawful ctx
  refine ⟨?stmt, ?body, ?expr, ?call, ?program, ?host, ?session⟩
  case stmt =>
    intro s a b r h ha
    have hready : liveness.Ready a := ⟨ha.machine, ha.scope⟩
    exact live_of_runs (L.runs_run fuel (fun _ _ => trivial) hready) h
  case body =>
    intro body a b r h ha
    have hready : liveness.Ready a := ⟨ha.machine, ha.scope⟩
    exact live_of_runs (L.runs_body fuel (fun _ _ => trivial) hready) h
  case expr =>
    intro e scope m m' r h hm hs
    obtain ⟨hvalid, hle, hr⟩ := live_of_from (L.from_run fuel (fun _ _ => trivial) hm hs) h
    exact ⟨hvalid, hs.mono hle, hr⟩
  case call =>
    intro caller f args m m' r h hm hs hargs
    obtain ⟨hvalid, hle, hr⟩ := live_of_call h hm hs hargs
    exact ⟨hvalid, hs.mono hle, hr⟩
  case program =>
    intro i scope p ran h hm hs
    obtain ⟨hvalid, hscope, -, hr⟩ := live_of_runIn h hm hs
    exact ⟨hvalid, hscope, hr⟩
  case host =>
    intro i i' name args r h hm hargs
    obtain ⟨hvalid, -, hr⟩ := live_of_complete h hm hargs
    exact ⟨hvalid, hr⟩
  case session =>
    intro limits s hreach
    have hs := Session.valid_of_reachable hreach
    refine ⟨hs, fun n command reply s' hlive h => ?_⟩
    exact (hs.performed hlive (Session.performed_of_perform h)).2

/-- A function that wraps its operand in a list. -/
def wrapInList : Function where
  name := "wrap"
  params := [⟨"x", none⟩]
  body := [.ret (some (.list [.ident "x"]))]

/-- A list joined from two, one of them from a call through a variable, which then takes the
text of a caught fault as an item and is returned. -/
def joinedLists : Stmt :=
  .block [
    .declare "f" none (.ident "wrap"),
    .declare "xs" none (.arith .add (.list [.text "a"]) (.call "f" [.text "b"])),
    .guarded [.expr (.index (.ident "xs") (.int 9))] "e"
      [.expr (.call "push" [.ident "xs", .ident "e"])],
    .ret (some (.ident "xs"))]

/-- Handles go through a table of shared objects, a call, a join, a handler and a return, and
the one that is returned is live. -/
theorem handles_live_joinedLists :
    ∃ r b, joinedLists.run ⟨{}, (∅ : Std.ExtTreeMap String Function).insert "wrap" wrapInList⟩
        3 ⟨.root, {}⟩ = some (r, b) ∧ b.Valid ∧ LiveOutcome b.machine.heap r := by
  have hsome : (joinedLists.run
      ⟨{}, (∅ : Std.ExtTreeMap String Function).insert "wrap" wrapInList⟩ 3
      ⟨.root, {}⟩).isSome = true := by
    decide +kernel
  obtain ⟨⟨r, b⟩, hrun⟩ := Option.isSome_iff_exists.mp hsome
  have hstart : Activation.Valid ⟨.root, {}⟩ := ⟨Machine.valid_empty, Scope.all_root⟩
  exact ⟨r, b, hrun, (handles_live _ 3).1 _ _ _ _ hrun hstart⟩

end Imperative
