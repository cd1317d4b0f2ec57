import Imperative.Scope

/-!
# Properties of the bindings of a scope

A scope reaches its own bindings and those of every frame around it, and a property of a
scope is usually a property of all of these: `Scope.All p` says that `p` holds of every
binding in every frame.  Scopes come about in three ways, and each has its lemma here.  The
root has no bindings (`Scope.all_root`), a new scope adds none to those around it
(`Scope.All.child`), and a definition adds one (`Scope.All.define`).

An inner binding hides the outer ones of its name, but it does not remove them; `Scope.All`
speaks of them as well, because they come to light again when the inner scope is left.
-/

namespace Imperative

/-- A property holds of every binding of a frame. -/
def Frame.All (p : Binding → Prop) (frame : Frame) : Prop :=
  ∀ (name : String) (b : Binding), frame[name]? = some b → p b

/-- A property holds of every binding of a scope, in its own frame and in those around it. -/
def Scope.All (p : Binding → Prop) (s : Scope) : Prop := ∀ frame ∈ s.own :: s.outer, frame.All p

variable {p q : Binding → Prop}

namespace Frame

theorem all_empty : Frame.All p ∅ := by
  intro name b hb
  rw [Std.ExtTreeMap.getElem?_empty] at hb
  cases hb

theorem All.imp {frame : Frame} (h : frame.All p) (hpq : ∀ b, p b → q b) : frame.All q :=
  fun name b hb => hpq b (h name b hb)

theorem All.insert {frame : Frame} (h : frame.All p) {b : Binding} (hb : p b) (name : String) :
    Frame.All p (frame.insert name b) := by
  intro other c hc
  rw [Std.ExtTreeMap.getElem?_insert] at hc
  split at hc
  · cases hc
    exact hb
  · exact h other c hc

end Frame

namespace Scope

theorem all_root : Scope.All p .root := by
  intro frame hframe
  rw [List.mem_singleton.mp hframe]
  exact Frame.all_empty

theorem All.imp {s : Scope} (h : s.All p) (hpq : ∀ b, p b → q b) : s.All q :=
  fun frame hframe => (h frame hframe).imp hpq

theorem All.child {s : Scope} (h : s.All p) : s.child.All p := by
  intro frame hframe
  rcases List.mem_cons.mp hframe with rfl | hframe
  · exact Frame.all_empty
  · exact h frame hframe

theorem All.define {s : Scope} (h : s.All p) {b : Binding} (hb : p b) (name : String) :
    (s.define name b).All p := by
  intro frame hframe
  rcases List.mem_cons.mp hframe with rfl | hframe
  · exact (h s.own List.mem_cons_self).insert hb name
  · exact h frame (List.mem_cons_of_mem s.own hframe)

/-- What a name is looked up to is a binding of the scope. -/
theorem All.lookup {s : Scope} (h : s.All p) {name : String} {b : Binding}
    (hb : s.lookup name = some b) : p b := by
  unfold Scope.lookup at hb
  split at hb
  · next c hc =>
    cases hb
    exact h s.own List.mem_cons_self name b hc
  · obtain ⟨frame, hframe, hc⟩ := List.exists_of_findSome?_eq_some hb
    exact h frame (List.mem_cons_of_mem s.own hframe) name b hc

end Scope

end Imperative
