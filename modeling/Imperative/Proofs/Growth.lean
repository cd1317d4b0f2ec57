import Imperative.Proofs.Ratchet

/-!
# Heaps only grow

What evaluation does to the heap is of a very restricted kind: it stores new objects at the
end, and it adds items at the end of lists.  `Heap.Grows` says that one heap is another one
grown so: every object is still at its handle, and is the same object, except that a list
may have got longer.  It is a preorder, and every elementary change of the heap goes along
it, so it is a ratchet (`grows_ratchet`) and every evaluation goes along it.  As a discipline it
is `growth`.

What an annotation admits depends only on the sort of the object behind a handle, and that
never changes.  So a value that an annotation admits once is admitted ever after
(`Heap.Grows.check`), and this is what the laws about annotations rest on.
-/

namespace Imperative

/-- How an object can change: not at all, or by items at its end if it is a list. -/
inductive Object.Grows : Object → Object → Prop where
  | string (s : String) : Object.Grows (.string s) (.string s)
  | function (name : String) : Object.Grows (.function name) (.function name)
  | list (items more : Array Value) : Object.Grows (.list items) (.list (items ++ more))

namespace Object.Grows

theorem refl (o : Object) : o.Grows o := by
  cases o with
  | string s => exact .string s
  | function name => exact .function name
  | list items =>
    have h := Grows.list items #[]
    rwa [Array.append_empty] at h

theorem trans {o p q : Object} (h₁ : o.Grows p) (h₂ : p.Grows q) : o.Grows q := by
  cases h₁ with
  | string s => exact h₂
  | function name => exact h₂
  | list items more =>
    cases h₂ with
    | list _ more' =>
      rw [Array.append_assoc]
      exact .list items (more ++ more')

theorem append (item : Value) (o : Object) : o.Grows (o.append item) := by
  cases o with
  | string s => exact .string s
  | function name => exact .function name
  | list items =>
    have h := Grows.list items #[item]
    rwa [Array.append_singleton] at h

theorem fits {o p : Object} (h : o.Grows p) (t : Ty) : p.fits t = o.fits t := by
  cases h <;> cases t <;> rfl

end Object.Grows

/-- One heap is another one grown: every object is still there, and has only grown. -/
def Heap.Grows (h h' : Heap) : Prop :=
  ∀ (r : Handle) (o : Object), h.get? r = some o → ∃ o', h'.get? r = some o' ∧ o.Grows o'

namespace Heap.Grows

theorem refl (h : Heap) : h.Grows h := fun _ o ho => ⟨o, ho, .refl o⟩

theorem trans {h₁ h₂ h₃ : Heap} (h₁₂ : h₁.Grows h₂) (h₂₃ : h₂.Grows h₃) : h₁.Grows h₃ := by
  intro r o ho
  obtain ⟨p, hp, hop⟩ := h₁₂ r o ho
  obtain ⟨q, hq, hpq⟩ := h₂₃ r p hp
  exact ⟨q, hq, hop.trans hpq⟩

theorem alloc (h : Heap) (o : Object) : h.Grows (h.alloc o) := by
  intro r p hp
  refine ⟨p, ?_, .refl p⟩
  rw [get?_alloc]
  split
  · next hr =>
    rw [hr, get?_next] at hp
    cases hp
  · exact hp

theorem append (h : Heap) (r : Handle) (item : Value) : h.Grows (h.append r item) := by
  intro q o ho
  rw [get?_append]
  split
  · exact ⟨o.append item, by rw [ho, Option.map_some], .append item o⟩
  · exact ⟨o, ho, .refl o⟩

/-- A grown heap has no fewer objects. -/
theorem size_le {h h' : Heap} (hg : h.Grows h') : h.size ≤ h'.size := by
  rcases Nat.lt_or_ge h'.size h.size with hlt | hle
  · have hsome : h.get? h'.next ≠ none := by
      rw [Ne, h.get?_eq_none_iff]
      exact Nat.not_le_of_lt hlt
    obtain ⟨o, ho⟩ := Option.ne_none_iff_exists'.mp hsome
    obtain ⟨o', ho', -⟩ := hg h'.next o ho
    rw [get?_next] at ho'
    cases ho'
  · exact hle

/-- What an annotation has admitted, it admits in every grown heap. -/
theorem check {h h' : Heap} (hg : h.Grows h') {v : Value} {t : Ty} (hc : h.check v t = .ok ()) :
    h'.check v t = .ok () := by
  cases v with
  | ref r =>
    cases ho : h.get? r with
    | none =>
      rw [Heap.check, admits, fetch, ho] at hc
      cases hc
    | some o =>
      obtain ⟨o', ho', hgrow⟩ := hg r o ho
      cases hfit : o.fits t with
      | false =>
        simp only [Heap.check, admits, fetch, ho, Except.map, hfit] at hc
        cases hc
      | true =>
        have hfit' : o'.fits t = true := (hgrow.fits t).trans hfit
        simp only [Heap.check, admits, fetch, ho', Except.map, hfit']
  | int n => exact hc
  | float x => exact hc
  | bool b => exact hc
  | unit => exact hc

end Heap.Grows

/-! ## The discipline -/

namespace Machine

theorem grows_internText (m : Machine) (s : String) : m.heap.Grows (m.internText s).2.heap := by
  unfold internText
  split
  · exact .refl _
  · exact .alloc _ _

theorem grows_internFunction (m : Machine) (name : String) :
    m.heap.Grows (m.internFunction name).2.heap := by
  unfold internFunction
  split
  · exact .refl _
  · exact .alloc _ _

end Machine

/-- The discipline of letting the heap do nothing but grow. -/
def growth : Discipline where
  Sound _ := True
  Keeps _ _ := True
  Holds _ _ := True
  Step m _ m' := m.heap.Grows m'.heap
  Allows _ := True
  Callable _ := True

theorem grows_ratchet : Ratchet fun m m' => m.heap.Grows m'.heap where
  trans h₁ h₂ := h₁.trans h₂
  quiet {m m'} hheap _ _ := by
    rw [hheap]
    exact .refl m.heap
  internText m text := m.grows_internText text
  internFunction m name := m.grows_internFunction name
  alloc m o := .alloc m.heap o
  append m r v := .append m.heap r v

theorem growth_lawful (ctx : Context) : growth.Lawful ctx := grows_ratchet.lawful ctx

theorem grows_of_expr {ctx : Context} {fuel : Nat} {e : Expr} {scope : Scope} {m m' : Machine}
    {r : Except Fault Value} (h : e.run ctx fuel scope m = some (r, m')) :
    m.heap.Grows m'.heap :=
  (((growth_lawful ctx).from_run fuel (fun _ _ => trivial) trivial trivial).ends h).2

theorem grows_of_call {ctx : Context} {fuel : Nat} {caller : Scope} {f : Function}
    {args : List Value} {m m' : Machine} {r : Except Fault Completion}
    (h : ctx.calls fuel caller f args m = some (r, m')) : m.heap.Grows m'.heap :=
  (((growth_lawful ctx).covers_calls fuel f caller args m trivial trivial trivial
    fun _ _ => trivial).ends h).2

theorem grows_of_complete {i i' : Interpreter} {name : String} {args : List Value} {fuel : Nat}
    {r : Except Fault Completion} (h : i.complete fuel name args = some (r, i')) :
    i.machine.heap.Grows i'.machine.heap :=
  grows_ratchet.of_complete h

end Imperative
