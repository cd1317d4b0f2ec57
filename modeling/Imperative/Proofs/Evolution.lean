import Imperative.Proofs.Discipline.Interior
import Imperative.Proofs.Growth
import Imperative.Proofs.Sessions

/-!
# What becomes of a heap

`Heap.Grows` says what one change does to an object.  A reader of a heap asks the other way
round: here is an object, what can have become of it?  The answer is `Heap.Evolved`, one sort of
object at a time.  A string and a function are what they were.  A list is a list still, and its
items are the old ones, in their places, with perhaps more after them; nothing is ever removed
from a list, replaced in it or moved.  The two say the same (`Heap.grows_iff`).

So growth, which every evaluation goes along, answers the question for every evaluation, however
it ends (`heap_evolves`).  This includes evaluations that fail after some of their operands have
been evaluated, where those operands have stored objects and extended lists, and pushes that
extend a list by itself.  Over a session the answer holds from any point to any later one, as long
as the host replaces no object of its own accord.
-/

namespace Imperative

/-- What has become of a heap, for each sort of object. -/
structure Heap.Evolved (h h' : Heap) : Prop where
  size_le : h.size ≤ h'.size
  string : ∀ r s, h.get? r = some (.string s) → h'.get? r = some (.string s)
  function : ∀ r name, h.get? r = some (.function name) → h'.get? r = some (.function name)
  list : ∀ r items, h.get? r = some (.list items) →
    ∃ items', h'.get? r = some (.list items') ∧ items.toList <+: items'.toList

/-- An array whose items come first in another one is that one up to some point. -/
theorem exists_append_of_prefix {xs ys : Array Value} (h : xs.toList <+: ys.toList) :
    ∃ zs, ys = xs ++ zs := by
  obtain ⟨zs, hzs⟩ := h
  refine ⟨zs.toArray, ?_⟩
  rw [← Array.toList_inj, Array.toList_append, ← hzs]

namespace Heap

variable {h h' : Heap}

theorem Grows.evolved (hg : h.Grows h') : h.Evolved h' where
  size_le := hg.size_le
  string r s hr := by
    obtain ⟨o, ho, hgrow⟩ := hg r _ hr
    cases hgrow
    exact ho
  function r name hr := by
    obtain ⟨o, ho, hgrow⟩ := hg r _ hr
    cases hgrow
    exact ho
  list r items hr := by
    obtain ⟨o, ho, hgrow⟩ := hg r _ hr
    cases hgrow with
    | list _ more =>
      refine ⟨items ++ more, ho, ?_⟩
      rw [Array.toList_append]
      exact List.prefix_append _ _

theorem Evolved.grows (he : h.Evolved h') : h.Grows h' := by
  intro r o ho
  cases o with
  | string s => exact ⟨_, he.string r s ho, .string s⟩
  | function name => exact ⟨_, he.function r name ho, .function name⟩
  | list items =>
    obtain ⟨items', hr, hprefix⟩ := he.list r items ho
    obtain ⟨more, rfl⟩ := exists_append_of_prefix hprefix
    exact ⟨_, hr, .list items more⟩

theorem grows_iff : h.Grows h' ↔ h.Evolved h' := ⟨Grows.evolved, Evolved.grows⟩

namespace Evolved

/-- A handle that names an object names one ever after. -/
theorem get?_ne_none (he : h.Evolved h') {r : Handle} (hr : h.get? r ≠ none) :
    h'.get? r ≠ none := by
  obtain ⟨o, ho⟩ := Option.ne_none_iff_exists'.mp hr
  obtain ⟨o', ho', -⟩ := he.grows r o ho
  rw [ho']
  exact Option.some_ne_none o'

/-- What a message says of a value behind a handle does not change. -/
theorem shape (he : h.Evolved h') {r : Handle} (hr : h.get? r ≠ none) :
    h'.shape (.ref r) = h.shape (.ref r) := by
  obtain ⟨o, ho⟩ := Option.ne_none_iff_exists'.mp hr
  obtain ⟨o', ho', hgrow⟩ := he.grows r o ho
  simp only [Heap.shape, ho, ho']
  cases hgrow <;> rfl

/-- A list gets no shorter. -/
theorem size_list (he : h.Evolved h') {r : Handle} {items items' : Array Value}
    (hr : h.get? r = some (.list items)) (hr' : h'.get? r = some (.list items')) :
    items.size ≤ items'.size := by
  obtain ⟨later, hlater, hprefix⟩ := he.list r items hr
  have heq : later = items' := by
    rw [hr'] at hlater
    cases hlater
    rfl
  rw [← heq]
  exact hprefix.length_le

end Evolved

end Heap

/-! ## Growth of statements, programs and sessions -/

section Growth

variable {ctx : Context} {fuel : Nat}

theorem grows_of_stmt {s : Stmt} {a b : Activation} {r : Except Exit Value}
    (h : s.run ctx fuel a = some (r, b)) : a.machine.heap.Grows b.machine.heap :=
  (((growth_lawful ctx).runs_run fuel (fun _ _ => trivial) ⟨trivial, trivial⟩).ends h).2

theorem grows_of_body {body : List Stmt} {a b : Activation} {r : Except Exit Value}
    (h : Stmt.execAll ctx (ctx.calls fuel) fuel .unit body a = some (r, b)) :
    a.machine.heap.Grows b.machine.heap :=
  (((growth_lawful ctx).runs_body fuel (fun _ _ => trivial) ⟨trivial, trivial⟩).ends h).2

theorem grows_handlerStart? {body : List Stmt} {name : String} {a b : Activation} {scope : Scope}
    (h : Stmt.handlerStart? ctx fuel body name a = some (scope, b)) :
    a.machine.heap.Grows b.machine.heap :=
  ((growth_lawful ctx).handlerStart? trivial (fun _ _ => trivial) ⟨trivial, trivial⟩ h).2

theorem grows_of_runIn {i : Interpreter} {scope : Scope} {p : Program} {ran : Interpreter.Ran}
    (h : i.runIn fuel scope p = some ran) :
    i.machine.heap.Grows ran.interpreter.machine.heap :=
  grows_ratchet.of_runIn h

theorem grows_of_later {s s' : Session}
    (h : s.Later (fun _ command => ∀ r o, command ≠ .replace r o) s') : s.heap.Grows s'.heap :=
  grows_ratchet.of_later h

end Growth

/-! ## Evolution -/

/-- **Heaps evolve by growth alone.**  Whatever is evaluated, from any state, and however the
evaluation ends, the heap has not shrunk, every string and every function is at its handle as it
was, and every list is a list there whose items begin with the items it had.  This is so already
where a handler starts, and it is so from any point of a session to any later one, if the host
replaces no object in between.  So a handle that names an object keeps naming one, and the sort of
the object does not change, and lists get no shorter. -/
theorem heap_evolves (ctx : Context) (fuel : Nat) :
    (∀ (s : Stmt) (a b : Activation) (r : Except Exit Value),
      s.run ctx fuel a = some (r, b) → a.machine.heap.Evolved b.machine.heap) ∧
    (∀ (body : List Stmt) (a b : Activation) (r : Except Exit Value),
      Stmt.execAll ctx (ctx.calls fuel) fuel .unit body a = some (r, b) →
        a.machine.heap.Evolved b.machine.heap) ∧
    (∀ (e : Expr) (scope : Scope) (m m' : Machine) (r : Except Fault Value),
      e.run ctx fuel scope m = some (r, m') → m.heap.Evolved m'.heap) ∧
    (∀ (caller : Scope) (f : Function) (args : List Value) (m m' : Machine)
        (r : Except Fault Completion),
      ctx.calls fuel caller f args m = some (r, m') → m.heap.Evolved m'.heap) ∧
    (∀ (body : List Stmt) (name : String) (a b : Activation) (scope : Scope),
      Stmt.handlerStart? ctx fuel body name a = some (scope, b) →
        a.machine.heap.Evolved b.machine.heap) ∧
    (∀ (i : Interpreter) (scope : Scope) (p : Program) (ran : Interpreter.Ran),
      i.runIn fuel scope p = some ran →
        i.machine.heap.Evolved ran.interpreter.machine.heap) ∧
    (∀ (i i' : Interpreter) (name : String) (args : List Value) (r : Except Fault Completion),
      i.complete fuel name args = some (r, i') → i.machine.heap.Evolved i'.machine.heap) ∧
    (∀ s s' : Session, s.Later (fun _ command => ∀ r o, command ≠ .replace r o) s' →
      s.heap.Evolved s'.heap) ∧
    (∀ h h' : Heap, h.Evolved h' → ∀ r, h.get? r ≠ none →
      h'.get? r ≠ none ∧ h'.shape (.ref r) = h.shape (.ref r) ∧
        ∀ items items', h.get? r = some (.list items) → h'.get? r = some (.list items') →
          items.size ≤ items'.size) := by
  refine ⟨?stmt, ?body, ?expr, ?call, ?handler, ?program, ?host, ?session, ?handles⟩
  case stmt =>
    intro s a b r h
    exact (grows_of_stmt h).evolved
  case body =>
    intro body a b r h
    exact (grows_of_body h).evolved
  case expr =>
    intro e scope m m' r h
    exact (grows_of_expr h).evolved
  case call =>
    intro caller f args m m' r h
    exact (grows_of_call h).evolved
  case handler =>
    intro body name a b scope h
    exact (grows_handlerStart? h).evolved
  case program =>
    intro i scope p ran h
    exact (grows_of_runIn h).evolved
  case host =>
    intro i i' name args r h
    exact (grows_of_complete h).evolved
  case session =>
    intro s s' h
    exact (grows_of_later h).evolved
  case handles =>
    intro h h' he r hr
    exact ⟨he.get?_ne_none hr, he.shape hr, fun items items' => he.size_list⟩

/-- A heap with a string, a function and a list. -/
def threeObjects : Heap := ⟨#[.string "a", .function "f", .list #[.int 1]]⟩

/-- Extends a list by itself under another name, and then fails in the middle of an expression
whose first operand has made a list already. -/
def failsAfterPush : Stmt :=
  .block [
    .declare "ys" none (.ident "xs"),
    .expr (.call "push" [.ident "ys", .ident "ys"]),
    .expr (.arith .sub (.list [.ident "xs"]) (.int 1))]

/-- The list has grown by itself and all three objects are in their places, although the run fails
with a fourth object in the heap. -/
theorem heap_evolves_failsAfterPush :
    ∃ r b, failsAfterPush.run {} 1
        ⟨Scope.root.define "xs" { value := .ref ⟨2⟩ }, { heap := threeObjects }⟩ = some (r, b) ∧
      threeObjects.Evolved b.machine.heap ∧ b.machine.heap.size = 4 := by
  have hsize : (failsAfterPush.run {} 1 ⟨Scope.root.define "xs" { value := .ref ⟨2⟩ },
      { heap := threeObjects }⟩).map (fun p => p.2.machine.heap.size) = some 4 := by
    decide +kernel
  obtain ⟨⟨r, b⟩, hrun, hfour⟩ := Option.map_eq_some_iff.mp hsize
  exact ⟨r, b, hrun, (heap_evolves {} 1).1 _ _ _ _ hrun, hfour⟩

end Imperative
