import Imperative.Proofs.Encoding
import Imperative.Proofs.Listings

/-!
# Snapshots

A snapshot lists what the innermost frame of a scope binds, sorted by name, byte by byte.  Neither
the order in which the names came up nor the one in which the store happens to list them can be seen
in it: all listings of frames that bind the same names to the same values are sorted into the same
snapshot (`Frame.Lists.arrange_congr`).

A scope is what its history has made of it: definitions, assignments, some of which may have failed,
and the opening of new frames.  What a name is bound to can be told from the history alone, by going
back to the last definition of the name in the frame at hand (`Scope.recalled`), and so the snapshot
can be told from it, too.
-/

namespace Imperative

/-- What an assignment makes of a binding.  A value that the annotation refuses changes nothing. -/
def Binding.assigned (b : Binding) (h : Heap) (v : Value) : Binding :=
  match h.checkTyped v b.ty with
  | .ok _ => { b with value := v }
  | .error _ => b

namespace Scope

/-! ## Histories -/

/-- What can be done to the scope at hand. -/
inductive Edit where
  | define (name : String) (b : Binding)
  /-- Gives a new value to a name bound here; the heap is for the annotation. -/
  | assign (h : Heap) (name : String) (v : Value)
  /-- Goes on in a new scope inside. -/
  | enter

/-- The scope after an edit.  An assignment that fails leaves it as it is. -/
def edit (s : Scope) : Edit → Scope
  | .define name b => s.define name b
  | .assign h name v =>
    match s.assign h name v with
    | .ok s' => s'
    | .error _ => s
  | .enter => s.child

/-- The scope that a history leads to, from one with nothing in it.  The last edit comes first. -/
def after : List Edit → Scope
  | [] => .root
  | e :: earlier => (after earlier).edit e

/-- What a name is bound to in the frame at hand, as far as its history tells. -/
def recalled (name : String) : List Edit → Option Binding
  | [] => none
  | .define other b :: earlier => if other = name then some b else recalled name earlier
  | .assign h other v :: earlier =>
    if other = name then (recalled name earlier).map (·.assigned h v) else recalled name earlier
  | .enter :: _ => none

theorem own_edit_assign (s : Scope) (h : Heap) (name : String) (v : Value) (other : String) :
    (s.edit (.assign h name v)).own[other]? =
      if name = other then s.own[other]?.map (·.assigned h v) else s.own[other]? := by
  rw [edit, assign]
  cases hb : s.own[name]? with
  | none =>
    dsimp only
    split
    · next heq => rw [← heq, hb, Option.map_none]
    · rfl
  | some b =>
    dsimp only
    rw [declare]
    cases hcheck : h.checkTyped v b.ty with
    | ok u =>
      simp only [Except.map, own_define]
      split
      · next heq => rw [← heq, hb, Option.map_some, Binding.assigned, hcheck]
      · rfl
    | error f =>
      simp only [Except.map]
      split
      · next heq => rw [← heq, hb, Option.map_some, Binding.assigned, hcheck]
      · rfl

/-- **The frame at hand holds what its history tells.** -/
theorem own_after (history : List Edit) (name : String) :
    (after history).own[name]? = recalled name history := by
  induction history with
  | nil => exact Std.ExtTreeMap.getElem?_empty
  | cons e earlier ih =>
    rw [after]
    cases e with
    | define other b => rw [edit, own_define, recalled, ih]
    | assign h other v => rw [own_edit_assign, recalled, ih]
    | enter => exact Std.ExtTreeMap.getElem?_empty

/-- The frame at hand goes before those around it. -/
theorem lookup_of_own {s : Scope} {name : String} {b : Binding} (h : s.own[name]? = some b) :
    s.lookup name = some b := by
  rw [lookup, h]

/-- **Snapshots are canonical.**  Take the scope that any history of definitions, assignments and
new frames leads to.  Its innermost frame binds each name to what the history tells.  The snapshot
lists exactly the names that this frame binds, with their values, and none that only a frame around
it binds; each once, in the strictly increasing order of the bytes of the names; and the value is
the one that the name is looked up to.

Nothing of this rests on the order in which the frame is listed before the sort.  All reorderings of
a listing are listings, and each of them is sorted into this snapshot.  Whatever history leads to a
frame that gives the same values to the same names, and however that frame is listed, the snapshot
is the same. -/
theorem snapshots_canonical (history : List Edit) :
    (∀ name : String, (after history).own[name]? = recalled name history) ∧
    (∀ name v, (name, v) ∈ (after history).snapshot ↔
      (after history).own[name]?.map Binding.value = some v) ∧
    ((after history).snapshot.Pairwise fun x y => bytes x.1 < bytes y.1) ∧
    ((after history).snapshot.map Prod.fst).Nodup ∧
    (∀ name v, (name, v) ∈ (after history).snapshot →
      ((after history).lookup name).map Binding.value = some v) ∧
    (∀ listed, Frame.Lists (after history).own listed ↔
      listed.Perm (Frame.listing (after history).own)) ∧
    (∀ listed, Frame.Lists (after history).own listed →
      Frame.arrange listed = (after history).snapshot) ∧
    ∀ other : List Edit,
      (∀ name : String, (after other).own[name]?.map Binding.value =
        (after history).own[name]?.map Binding.value) →
      (after other).snapshot = (after history).snapshot ∧
      ∀ listed, Frame.Lists (after other).own listed →
        Frame.arrange listed = (after history).snapshot := by
  have hlists := Frame.lists_listing (after history).own
  refine ⟨own_after history, fun name v => hlists.mem_arrange, ?ordered, ?once, ?looked,
    fun listed => Frame.lists_iff_perm, ?listed, ?same⟩
  case ordered => exact hlists.pairwise_arrange.imp bytes_lt_bytes
  case once =>
    rw [List.nodup_iff_pairwise_ne, List.pairwise_map]
    exact hlists.pairwise_arrange.imp String.ne_of_lt
  case looked =>
    intro name v h
    obtain ⟨b, hb, rfl⟩ := Option.map_eq_some_iff.mp (hlists.mem_arrange.mp h)
    rw [lookup_of_own hb, Option.map_some]
  case listed =>
    intro listed h
    exact ((after history).snapshot_eq_arrange h).symm
  case same =>
    intro other h
    exact ⟨(Frame.lists_listing _).arrange_congr hlists h,
      fun listed hlisted => hlisted.arrange_congr hlists h⟩

/-- A name is defined twice, another one outside, and an assignment fails. -/
def crookedHistory : List Edit := [
  .assign {} "é" (.bool true),
  .define "é" { value := .int 2, ty := some .int },
  .define "n" { value := .int 3 },
  .define "é" { value := .int 1 },
  .enter,
  .define "z" { value := .unit }]

/-- The names come up in another order. -/
def straightHistory : List Edit := [
  .assign {} "é" (.int 2),
  .assign {} "n" (.int 3),
  .define "n" { value := .unit },
  .define "é" { value := .unit }]

/-- Both have the same snapshot, in which an accented letter comes behind a plain one, and which has
nothing of the name outside.  It is the one that the bindings are sorted into from the wrong order,
too. -/
theorem snapshots_canonical_crooked :
    (∀ name : String, (after straightHistory).own[name]?.map Binding.value =
      (after crookedHistory).own[name]?.map Binding.value) ∧
    (after straightHistory).snapshot = (after crookedHistory).snapshot ∧
    Frame.Lists (after straightHistory).own
      [("é", { value := .int 2 }), ("n", { value := .int 3 })] ∧
    Frame.arrange [("é", { value := .int 2 }), ("n", { value := .int 3 })] =
      (after crookedHistory).snapshot ∧
    (after crookedHistory).snapshot = [("n", .int 3), ("é", .int 2)] ∧
    (after crookedHistory).lookup "z" = some { value := .unit } := by
  have hvalues : ∀ name : String, (after straightHistory).own[name]?.map Binding.value =
      (after crookedHistory).own[name]?.map Binding.value := by
    intro name
    rw [own_after, own_after]
    by_cases he : "é" = name
    · subst he
      rfl
    · by_cases hn : "n" = name
      · subst hn
        rfl
      · simp [recalled, straightHistory, crookedHistory, he, hn]
  have hlists : Frame.Lists (after straightHistory).own
      [("é", { value := .int 2 }), ("n", { value := .int 3 })] :=
    (Frame.lists_toList (after straightHistory).own).of_perm (.swap _ _ _)
  obtain ⟨-, -, -, -, -, -, -, hsame⟩ := snapshots_canonical crookedHistory
  obtain ⟨hsnapshot, hlisted⟩ := hsame straightHistory hvalues
  exact ⟨hvalues, hsnapshot, hlists, hlisted _ hlists, snapshot_eq_toList _, rfl⟩

end Scope

end Imperative
