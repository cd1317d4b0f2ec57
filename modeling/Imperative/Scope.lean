import Imperative.Heap
import Std.Data.ExtTreeMap

/-!
# Scopes

A scope is a frame of its own bindings inside the frames of the scopes around it.  The
scope of a call lies inside the scope of the *caller*, not of the place where the
function was declared: a body sees the variables of whoever called it.  Reading looks
through all frames from the innermost outwards.  Writing reaches the scope's own frame
and nothing else, so the outer frames of a scope are the same after anything has run in
it.

A frame is a finite map from names to bindings.  The order in which its bindings come up
when they are listed means nothing, so what is shown of a frame is sorted by name: in the
order of code points, which for well-formed text is also the order of the encoded bytes.
-/

namespace Imperative

/-- What a name is bound to.  The annotation, if there is one, restricts later
assignments as well. -/
structure Binding where
  value : Value
  ty : Option Ty := none
deriving Inhabited

/-- The bindings made in one scope. -/
abbrev Frame := Std.ExtTreeMap String Binding

/-- The bindings of a frame one after the other, in no order to rely on. -/
def Frame.listing (f : Frame) : List (String × Binding) :=
  f.foldl (fun listed name b => (name, b) :: listed) []

/-- The names and values of listed bindings, sorted by name. -/
def Frame.arrange (listed : List (String × Binding)) : List (String × Value) :=
  (listed.map fun (name, b) => (name, b.value)).mergeSort fun x y => x.1 ≤ y.1

/-- A scope: its own frame, and the frames around it from the inside outwards. -/
structure Scope where
  own : Frame := ∅
  outer : List Frame := []
deriving Inhabited

namespace Scope

/-- A scope with no bindings and nothing around it. -/
def root : Scope := {}

/-- The innermost binding of a name. -/
def lookup (s : Scope) (name : String) : Option Binding :=
  match s.own[name]? with
  | some b => some b
  | none => s.outer.findSome? (·[name]?)

/-- An empty scope inside this one. -/
def child (s : Scope) : Scope := ⟨∅, s.own :: s.outer⟩

/-- Binds a name here, in place of what it was bound to here. -/
def define (s : Scope) (name : String) (b : Binding) : Scope :=
  { s with own := s.own.insert name b }

/-- Binds a name here to a value that its annotation admits. -/
def declare (s : Scope) (h : Heap) (name : String) (ty : Option Ty) (v : Value) :
    Except Fault Scope :=
  (h.checkTyped v ty).map fun _ => s.define name { value := v, ty }

/-- Gives a new value to a name bound here.  Its annotation stays, and has to admit the
value. -/
def assign (s : Scope) (h : Heap) (name : String) (v : Value) : Except Fault Scope :=
  match s.own[name]? with
  | some b => s.declare h name b.ty v
  | none => .error (.assignToUndefined name)

/-- The names bound here and their values, ordered by name. -/
def snapshot (s : Scope) : List (String × Value) :=
  Frame.arrange (Frame.listing s.own)

@[simp] theorem lookup_root (name : String) : root.lookup name = none := by
  simp [root, lookup]

@[simp] theorem lookup_child (s : Scope) (name : String) :
    s.child.lookup name = s.lookup name := by
  simp only [lookup, child, Std.ExtTreeMap.getElem?_empty, List.findSome?_cons]
  cases s.own[name]? <;> rfl

@[simp] theorem outer_define (s : Scope) (name : String) (b : Binding) :
    (s.define name b).outer = s.outer := rfl

theorem own_define (s : Scope) (name : String) (b : Binding) (other : String) :
    (s.define name b).own[other]? = if name = other then some b else s.own[other]? := by
  simp [define, Std.ExtTreeMap.getElem?_insert]

theorem lookup_define (s : Scope) (name : String) (b : Binding) (other : String) :
    (s.define name b).lookup other = if name = other then some b else s.lookup other := by
  by_cases h : name = other <;> simp [lookup, own_define, h]

end Scope

end Imperative
