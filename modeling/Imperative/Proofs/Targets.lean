import Imperative.Call
import Mathlib.Order.Defs.Unbundled

/-!
# What a statement binds

A statement changes the scope that it is executed in by binding names of it, and which names
these are is written in its text: they are the *targets* of the statement, that is, the names that
it declares, the names of its loops over ranges, and the names that it assigns to.  A handler is
executed in a scope of its own, so its targets are none of the statement's, and neither are the
targets of a function that is called.

`Exec.Moves R x` says that however `x` ends, the scope at the end is related to the scope at the
start.  It holds of a statement for every preorder that admits the targets of the statement
(`moves_exec`), with any meaning of calls.  That a body leaves alone the frames around its scope is
the instance for the relation of having the same frames around (`outer_execAll`).
-/

namespace Imperative

/-! ## Targets -/

/-- A name that a statement binds, and how. -/
inductive Target where
  /-- The name is bound anew. -/
  | declared (name : String)
  /-- The name is bound already, and gets another value under the same annotation. -/
  | assigned (name : String)
deriving DecidableEq, Repr

/-- A relation of scopes holds whenever a target is bound. -/
def Target.Within (R : Scope → Scope → Prop) : Target → Prop
  | declared name => ∀ scope b, R scope (scope.define name b)
  | assigned name => ∀ scope b v, scope.own[name]? = some b →
      R scope (scope.define name { b with value := v })

mutual

/-- The names that a statement may bind in the scope that it is executed in. -/
def Stmt.targets : Stmt → List Target
  | .declare name _ _ => [.declared name]
  | .assign name _ => [.assigned name]
  | .ret _ => []
  | .cond _ yes no => Stmt.allTargets yes ++ Stmt.allTargets no
  | .whileDo _ body => Stmt.allTargets body
  | .forRange name _ _ body => .declared name :: Stmt.allTargets body
  | .breakLoop => []
  | .continueLoop => []
  | .block body => Stmt.allTargets body
  | .guarded body _ _ => Stmt.allTargets body
  | .raise _ => []
  | .expr _ => []

/-- The names that some statements may bind. -/
def Stmt.allTargets : List Stmt → List Target
  | [] => []
  | s :: rest => s.targets ++ Stmt.allTargets rest

end

section Declare

variable {s s' : Scope} {h : Heap} {name : String} {ty : Option Ty} {v : Value}

/-- A declaration checks the value and then binds it. -/
theorem Scope.declare_eq_ok_iff :
    s.declare h name ty v = .ok s' ↔
      h.checkTyped v ty = .ok () ∧ s' = s.define name { value := v, ty } := by
  rw [declare]
  cases h.checkTyped v ty with
  | error f =>
    constructor
    · intro hs
      cases hs
    · rintro ⟨hcheck, -⟩
      cases hcheck
  | ok u =>
    constructor
    · intro hs
      cases hs
      exact ⟨rfl, rfl⟩
    · rintro ⟨-, rfl⟩
      rfl

theorem Scope.declare_eq_ok (hs : s.declare h name ty v = .ok s') :
    s' = s.define name { value := v, ty } :=
  (declare_eq_ok_iff.mp hs).2

end Declare

theorem Scope.assign_eq_ok {s s' : Scope} {h : Heap} {name : String} {v : Value}
    (hs : s.assign h name v = .ok s') :
    ∃ b, s.own[name]? = some b ∧ s' = s.define name { b with value := v } := by
  rw [assign] at hs
  split at hs
  · next b hb => exact ⟨b, hb, declare_eq_ok hs⟩
  · cases hs

/-! ## How an action moves the scope -/

/-- However an action ends, the scope at the end is related to the scope at the start. -/
def Exec.Moves {α : Type} (R : Scope → Scope → Prop) (x : Exec α) : Prop :=
  ∀ a r b, x a = some (r, b) → R a.scope b.scope

section Moves

variable {α β : Type} {R : Scope → Scope → Prop}

namespace Exec

theorem Moves.turn {x : Exec α} (hx : Moves R x) : Moves R (turn x) := by
  intro a r b h
  simp only [Exec.turn] at h
  split at h <;> cases h <;> exact hx a _ _ ‹_›

theorem Moves.inLoop {x : Exec α} (hx : Moves R x) : Moves R (inLoop x) := by
  rintro ⟨scope, m⟩ r b h
  simp only [Exec.inLoop] at h
  split at h <;> cases h
  next scope' m' hend => exact (hx _ r _ hend :)

variable [IsPreorder Scope R]

theorem moves_pure (v : α) : Moves R (pure v) := by
  intro a r b h
  cases h
  exact refl_of R a.scope

theorem moves_throw (e : Exit) : Moves R (throw e : Exec α) := by
  intro a r b h
  cases h
  exact refl_of R a.scope

theorem Moves.bind {x : Exec α} {f : α → Exec β} (hx : Moves R x) (hf : ∀ v, Moves R (f v)) :
    Moves R (x >>= f) := by
  intro a r c h
  rw [Action.bind_apply] at h
  split at h
  · cases h
  · next v b hv => exact trans_of R (hx a _ b hv) (hf v b r c h)
  · next e b he =>
    cases h
    exact hx a _ c he

theorem moves_eval (x : Scope → Eval α) : Moves R (eval x) := by
  rintro ⟨scope, m⟩ r b h
  simp only [eval] at h
  split at h <;> cases h <;> exact refl_of R scope

theorem moves_require (c : Except Fault α) : Moves R (require c) := by
  intro a r b h
  cases c <;> cases h <;> exact refl_of R a.scope

theorem moves_rescope {f : Scope → Heap → Except Fault Scope}
    (hf : ∀ s h s', f s h = .ok s' → R s s') : Moves R (rescope f) := by
  rintro ⟨scope, m⟩ r b h
  simp only [rescope] at h
  split at h <;> cases h
  · next s' hs => exact hf scope m.heap s' hs
  · exact refl_of R scope

theorem moves_change (f : Machine → α × Machine) : Moves R (change f) := by
  intro a r b h
  cases h
  exact refl_of R a.scope

/-- What is done in a new scope inside does not matter. -/
theorem moves_inChild (name : String) (b : Binding) (x : Exec α) : Moves R (inChild name b x) := by
  rintro ⟨scope, m⟩ r c h
  simp only [inChild] at h
  split at h <;> cases h
  exact refl_of R scope

theorem Moves.guarded {x : Exec α} {handler : Fault → Exec α} (hx : Moves R x)
    (hhandler : ∀ f, Moves R (handler f)) : Moves R (guarded x handler) := by
  intro a r c h
  rw [guarded_apply] at h
  split at h
  · cases h
  · next f b hb =>
    split at h
    · cases h
      exact hx a _ c hb
    · exact trans_of R (hx a _ b hb) (hhandler f b r c h)
  · next r' b _ hb =>
    cases h
    exact hx a r c hb

end Exec

/-! ## How code moves the scope -/

variable [IsPreorder Scope R] {limits : Limits} {body : Exec Bool}

theorem Loop.moves_whileTrue {test : Exec Bool} (htest : Exec.Moves R test)
    (hbody : Exec.Moves R body) (tests taken : Nat) :
    Exec.Moves R (whileTrue limits test body tests taken) := by
  induction tests generalizing taken with
  | zero =>
    intro a r b h
    cases h
  | succ tests ih =>
    refine htest.bind fun p => ?_
    split
    · refine (Exec.moves_require _).bind fun _ => hbody.bind fun on => ?_
      split
      · exact ih (taken + 1)
      · exact Exec.moves_pure ()
    · exact Exec.moves_pure ()

theorem Loop.moves_range {name : String} (hname : (Target.declared name).Within R)
    (hbody : Exec.Moves R body) (left taken : Nat) (i : Int64) :
    Exec.Moves R (range limits name body left taken i) := by
  induction left generalizing taken i with
  | zero => exact Exec.moves_pure ()
  | succ left ih =>
    have hdefine : Exec.Moves R (Exec.define name { value := .int i, ty := some .int }) := by
      refine Exec.moves_rescope fun s h s' hs => ?_
      cases hs
      exact hname s _
    refine (Exec.moves_require _).bind fun _ => hdefine.bind fun _ => hbody.bind fun on => ?_
    split
    · exact ih (taken + 1) (i + 1)
    · exact Exec.moves_pure ()

variable {ctx : Context} {calls : Calls} {patience : Nat}

mutual

/-- **A statement moves the scope only as its targets do.** -/
theorem moves_exec : ∀ s : Stmt, (∀ t ∈ s.targets, t.Within R) →
    Exec.Moves R (s.exec ctx calls patience)
  | .declare name ty e, h => by
    rw [Stmt.exec]
    refine (Exec.moves_eval _).bind fun v => Exec.Moves.bind ?_ fun _ => Exec.moves_pure _
    refine Exec.moves_rescope fun s heap s' hs => ?_
    rw [Scope.declare_eq_ok hs]
    exact h (.declared name) List.mem_cons_self s _
  | .assign name e, h => by
    rw [Stmt.exec]
    refine (Exec.moves_eval _).bind fun v => Exec.Moves.bind ?_ fun _ => Exec.moves_pure _
    refine Exec.moves_rescope fun s heap s' hs => ?_
    obtain ⟨b, hb, rfl⟩ := Scope.assign_eq_ok hs
    exact h (.assigned name) List.mem_cons_self s b v hb
  | .ret none, _ => by
    rw [Stmt.exec]
    exact Exec.moves_throw _
  | .ret (some e), _ => by
    rw [Stmt.exec]
    exact (Exec.moves_eval _).bind fun v => Exec.moves_throw _
  | .cond test yes no, h => by
    rw [Stmt.exec]
    refine (Exec.moves_eval _).bind fun p => ?_
    split
    · exact moves_execAll yes (fun t ht => h t (List.mem_append_left _ ht)) .unit
    · exact moves_execAll no (fun t ht => h t (List.mem_append_right _ ht)) .unit
  | .whileDo test body, h => by
    rw [Stmt.exec]
    have hturn := (moves_execAll body h .unit).turn
    exact ((Loop.moves_whileTrue (Exec.moves_eval _) hturn _ 0).bind
      fun _ => Exec.moves_pure _).inLoop
  | .forRange name start stop body, h => by
    rw [Stmt.exec]
    have hname := h (.declared name) List.mem_cons_self
    have hturn := (moves_execAll body (fun t ht => h t (List.mem_cons_of_mem _ ht)) .unit).turn
    exact ((Exec.moves_eval _).bind fun ⟨i, j⟩ =>
      (Loop.moves_range hname hturn _ 0 i).bind fun _ => Exec.moves_pure _).inLoop
  | .breakLoop, _ => by
    rw [Stmt.exec]
    exact Exec.moves_throw _
  | .continueLoop, _ => by
    rw [Stmt.exec]
    exact Exec.moves_throw _
  | .block body, h => by
    rw [Stmt.exec]
    exact moves_execAll body h .unit
  | .guarded body name handler, h => by
    rw [Stmt.exec]
    exact (moves_execAll body h .unit).guarded fun f =>
      (Exec.moves_change _).bind fun text => Exec.moves_inChild _ _ _
  | .raise e, _ => by
    rw [Stmt.exec]
    exact (Exec.moves_eval _).bind fun text => Exec.moves_throw _
  | .expr e, _ => by
    rw [Stmt.exec]
    exact Exec.moves_eval _

theorem moves_execAll : ∀ body : List Stmt, (∀ t ∈ Stmt.allTargets body, t.Within R) →
    ∀ last, Exec.Moves R (Stmt.execAll ctx calls patience last body)
  | [], _, last => by
    rw [Stmt.execAll]
    exact Exec.moves_pure last
  | s :: rest, h, last => by
    rw [Stmt.execAll]
    exact (moves_exec s fun t ht => h t (List.mem_append_left _ ht)).bind fun v =>
      moves_execAll rest (fun t ht => h t (List.mem_append_right _ ht)) v

end

end Moves

/-! ## The frames around a scope -/

/-- The frames of a scope, from the inside outwards. -/
def Scope.frames (s : Scope) : List Frame := s.own :: s.outer

/-- Having the same frames around. -/
def Scope.SameOuter (s s' : Scope) : Prop := s'.outer = s.outer

instance : IsPreorder Scope Scope.SameOuter where
  refl _ := rfl
  trans _ _ _ h h' := h'.trans h

theorem Target.within_sameOuter (t : Target) : t.Within Scope.SameOuter := by
  cases t with
  | declared name => exact fun _ _ => rfl
  | assigned name => exact fun _ _ _ _ => rfl

/-- **A body leaves the frames around its scope alone**, whatever it calls and handles. -/
theorem outer_execAll {ctx : Context} {calls : Calls} {patience : Nat} {last : Value}
    {body : List Stmt} {a b : Activation} {r : Except Exit Value}
    (h : Stmt.execAll ctx calls patience last body a = some (r, b)) :
    b.scope.outer = a.scope.outer :=
  moves_execAll (R := Scope.SameOuter) body (fun t _ => t.within_sameOuter) last a r b h

namespace Call

theorem outer_bind {h : Heap} {ps : List Param} {args : List Value} {s s' : Scope}
    (hs : bind h ps args s = .ok s') : s'.outer = s.outer := by
  induction ps generalizing args s with
  | nil =>
    rw [bind_no_params] at hs
    cases hs
    rfl
  | cons p ps ih =>
    cases args with
    | nil =>
      rw [bind_no_args] at hs
      cases hs
      rfl
    | cons v vs =>
      rw [bind] at hs
      split at hs
      · next s₁ hdeclare =>
        rw [ih hs, Scope.declare_eq_ok hdeclare, Scope.outer_define]
      · cases hs

/-- The scope of a call lies inside the scope of the caller. -/
theorem outer_entry {ctx : Context} {caller scope : Scope} {f : Function} {args : List Value}
    {m : Machine} (h : entry ctx caller f args m = .ok scope) : scope.outer = caller.frames :=
  outer_bind (entry_eq_ok_iff.mp h).2.2

end Call

end Imperative
