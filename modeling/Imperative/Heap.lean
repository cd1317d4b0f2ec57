import Imperative.Fault

/-!
# The heap

The objects of a run, in the order of their creation.  A handle is the position of its
object, and objects are never removed, so a handle that was once good stays good; what
can change is the content of a list, which grows at its end (`Heap.append`), and
whatever a host chooses to replace (`Heap.replace`).

Reading through a handle that names no object is a fault.  `Heap.get?` is the view on
which everything else is stated, and each operation comes with one lemma that says what
it does to that view.
-/

namespace Imperative

/-- A store of objects. -/
structure Heap where
  objects : Array Object := #[]
deriving BEq, Repr, Inhabited

namespace Heap

/-! ## Reading -/

/-- How many objects there are. -/
def size (h : Heap) : Nat := h.objects.size

/-- The object of a handle, if there is one. -/
def get? (h : Heap) (r : Handle) : Option Object := h.objects[r.index]?

/-- The object of a handle; a handle without one is dangling. -/
def fetch (h : Heap) (r : Handle) : Except Fault Object :=
  match h.get? r with
  | some o => .ok o
  | none => .error (.danglingReference r)

/-- The shape of a value, seen through its handle where it has one with an object. -/
def shape (h : Heap) : Value → Shape
  | .ref r => ((h.get? r).map Object.shape).getD .reference
  | v => v.shape

/-- The text of a value that is a string. -/
def text? (h : Heap) : Value → Option String
  | .ref r =>
    match h.get? r with
    | some (.string s) => some s
    | _ => none
  | _ => none

/-- Whether an annotation admits a value.  A dangling handle is a fault under every
annotation. -/
def admits (h : Heap) (v : Value) (t : Ty) : Except Fault Bool :=
  match v with
  | .ref r => (h.fetch r).map (·.fits t)
  | v => .ok (v.fits t)

/-- Succeeds exactly if the annotation admits the value. -/
def check (h : Heap) (v : Value) (t : Ty) : Except Fault Unit :=
  match h.admits v t with
  | .ok true => .ok ()
  | .ok false => .error (.typeMismatch (.unfit (h.shape v) t))
  | .error f => .error f

/-- As `check`, for an annotation that may be absent; without one every value passes. -/
def checkTyped (h : Heap) (v : Value) : Option Ty → Except Fault Unit
  | none => .ok ()
  | some t => h.check v t

/-! ## Writing -/

/-- The handle that the next object will have. -/
def next (h : Heap) : Handle := ⟨h.size⟩

/-- Stores a new object.  Its handle is `next`. -/
def alloc (h : Heap) (o : Object) : Heap := ⟨h.objects.push o⟩

/-- Puts another object at a handle; nothing happens if the handle names none. -/
def replace (h : Heap) (r : Handle) (o : Object) : Heap := ⟨h.objects.setIfInBounds r.index o⟩

/-- Adds an item at the end of the list at a handle.  Every holder of the handle sees
the longer list. -/
def append (h : Heap) (r : Handle) (item : Value) : Heap :=
  ⟨h.objects.modify r.index (Object.append item)⟩

/-! ## The view -/

@[simp] theorem size_empty : ({} : Heap).size = 0 := rfl

@[simp] theorem get?_empty (r : Handle) : ({} : Heap).get? r = none := by
  simp [get?]

@[simp] theorem size_alloc (h : Heap) (o : Object) : (h.alloc o).size = h.size + 1 := by
  simp [size, alloc]

@[simp] theorem size_replace (h : Heap) (r : Handle) (o : Object) :
    (h.replace r o).size = h.size := by
  simp [size, replace]

@[simp] theorem size_append (h : Heap) (r : Handle) (item : Value) :
    (h.append r item).size = h.size := by
  simp [size, append]

theorem get?_alloc (h : Heap) (o : Object) (r : Handle) :
    (h.alloc o).get? r = if r = h.next then some o else h.get? r := by
  cases r with
  | mk i =>
    simp only [alloc, get?, next, size, Array.getElem?_push, Handle.mk.injEq]

theorem get?_append (h : Heap) (r : Handle) (item : Value) (q : Handle) :
    (h.append r item).get? q =
      if r = q then (h.get? q).map (Object.append item) else h.get? q := by
  cases r; cases q
  simp [append, get?, Array.getElem?_modify]

theorem get?_replace (h : Heap) (r : Handle) (o : Object) (q : Handle) :
    (h.replace r o).get? q = if r = q then (h.get? q).map (fun _ => o) else h.get? q := by
  cases r with
  | mk i =>
    cases q with
    | mk j =>
      by_cases hij : i = j
      · subst hij
        by_cases hi : i < h.objects.size <;> simp [replace, get?, hi]
      · simp [replace, get?, hij]

theorem get?_eq_none_iff (h : Heap) (r : Handle) : h.get? r = none ↔ h.size ≤ r.index := by
  simp [get?, size]

/-- The handle that comes next names no object yet. -/
@[simp] theorem get?_next (h : Heap) : h.get? h.next = none :=
  (h.get?_eq_none_iff h.next).mpr (Nat.le_refl _)

/-! ## What reading can fail with -/

theorem fetch_eq_ok_iff {h : Heap} {r : Handle} {o : Object} :
    h.fetch r = .ok o ↔ h.get? r = some o := by
  unfold fetch
  cases h.get? r <;> simp

theorem fetch_eq_error_iff {h : Heap} {r : Handle} {f : Fault} :
    h.fetch r = .error f ↔ h.get? r = none ∧ f = .danglingReference r := by
  unfold fetch
  cases h.get? r <;> simp [eq_comm]

/-- A check fails because the annotation refuses the value, or because the value is a handle
without an object. -/
theorem check_eq_error {h : Heap} {v : Value} {t : Ty} {f : Fault} (hf : h.check v t = .error f) :
    f = .typeMismatch (.unfit (h.shape v) t) ∨
      ∃ r, v = .ref r ∧ h.get? r = none ∧ f = .danglingReference r := by
  unfold check at hf
  split at hf
  · cases hf
  · cases hf
    exact .inl rfl
  · next g hg =>
    cases hf
    unfold admits at hg
    split at hg
    · next r =>
      cases hfetch : h.fetch r with
      | ok o =>
        rw [hfetch] at hg
        cases hg
      | error g' =>
        rw [hfetch] at hg
        cases hg
        obtain ⟨hnone, hdangling⟩ := fetch_eq_error_iff.mp hfetch
        exact .inr ⟨r, rfl, hnone, hdangling⟩
    · cases hg

end Heap

end Imperative
