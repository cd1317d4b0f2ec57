import Imperative.Proofs.Discipline.Interior
import Imperative.Proofs.Targets

/-!
# What a statement may modify

A statement that fails halfway has done half of its work, a function that it calls may declare any
names it likes, and so may a handler.  What can have become of a scope is nevertheless written in
the text of the statement: its targets, and nothing else, may be bound to something new
(`Scope.Modified`).  No name gets lost, a name that is only assigned to keeps its annotation and is
not brought into being, and the frames around the scope are what they were.

That much is an instance of `moves_exec`, for the preorder of being modified in some targets only.
What it leaves open is the inside of a statement.  A call and a handler work in a scope of their own,
which is dropped when they are over; it could be dropped without loss only if whatever they did was
done in that scope.  So it is shown as well that the frames around it are still those of the caller,
and of the guarded statement, when it is dropped (`Call.outer_entry`, `modified_handlerStart?`).
-/

namespace Imperative

/-- How a scope may have changed if nothing was bound in it but some targets. -/
structure Scope.Modified (ts : List Target) (s s' : Scope) : Prop where
  /-- A name that is no target is bound to what it was bound to. -/
  unchanged {name : String} :
    .declared name ∉ ts → .assigned name ∉ ts → s'.own[name]? = s.own[name]?
  /-- No name gets lost. -/
  bound {name : String} : s.own[name]? ≠ none → s'.own[name]? ≠ none
  /-- A name that is not bound anew is bound if it was before, and under the same annotation. -/
  annotated {name : String} :
    .declared name ∉ ts → s'.own[name]?.map Binding.ty = s.own[name]?.map Binding.ty
  outer : s'.outer = s.outer

namespace Scope.Modified

variable {ts : List Target} {s s₁ s₂ : Scope}

theorem refl (s : Scope) : s.Modified ts s where
  unchanged _ _ := rfl
  bound h := h
  annotated _ := rfl
  outer := rfl

theorem trans (h₁ : s.Modified ts s₁) (h₂ : s₁.Modified ts s₂) : s.Modified ts s₂ where
  unchanged hdeclared hassigned :=
    (h₂.unchanged hdeclared hassigned).trans (h₁.unchanged hdeclared hassigned)
  bound h := h₂.bound (h₁.bound h)
  annotated hdeclared := (h₂.annotated hdeclared).trans (h₁.annotated hdeclared)
  outer := h₂.outer.trans h₁.outer

instance : IsPreorder Scope (Scope.Modified ts) where
  refl := refl
  trans _ _ _ := trans

/-- A name that is a target to be declared may be bound to anything. -/
theorem define {name : String} (hname : .declared name ∈ ts) (b : Binding) :
    s.Modified ts (s.define name b) where
  unchanged {other} hdeclared _ := by
    have hne : name ≠ other := fun heq => hdeclared (heq ▸ hname)
    rw [own_define, if_neg hne]
  bound {other} h := by
    rw [own_define]
    split
    · exact Option.some_ne_none b
    · exact h
  annotated {other} hdeclared := by
    have hne : name ≠ other := fun heq => hdeclared (heq ▸ hname)
    rw [own_define, if_neg hne]
  outer := rfl

/-- A name that is a target to be assigned to may get another value, if it is bound. -/
theorem assign {name : String} (hname : .assigned name ∈ ts) {b : Binding}
    (hb : s.own[name]? = some b) (v : Value) :
    s.Modified ts (s.define name { b with value := v }) where
  unchanged {other} _ hassigned := by
    have hne : name ≠ other := fun heq => hassigned (heq ▸ hname)
    rw [own_define, if_neg hne]
  bound {other} h := by
    rw [own_define]
    split
    · exact Option.some_ne_none _
    · exact h
  annotated {other} _ := by
    rw [own_define]
    split
    · next heq => rw [← heq, hb, Option.map_some, Option.map_some]
    · rfl
  outer := rfl

end Scope.Modified

theorem Target.within_modified {ts : List Target} {t : Target} (ht : t ∈ ts) :
    t.Within (Scope.Modified ts) := by
  cases t with
  | declared name => exact fun _ b => .define ht b
  | assigned name => exact fun _ b v hb => .assign ht hb v

section Statements

variable {ctx : Context} {fuel : Nat}

theorem modified_of_stmt {s : Stmt} {a b : Activation} {r : Except Exit Value}
    (h : s.run ctx fuel a = some (r, b)) : a.scope.Modified s.targets b.scope :=
  moves_exec s (fun _ ht => Target.within_modified ht) a r b h

theorem modified_of_body {body : List Stmt} {last : Value} {a b : Activation}
    {r : Except Exit Value}
    (h : Stmt.execAll ctx (ctx.calls fuel) fuel last body a = some (r, b)) :
    a.scope.Modified (Stmt.allTargets body) b.scope :=
  moves_execAll body (fun _ ht => Target.within_modified ht) last a r b h

/-- The scope around a handler is the one that the guarded body has left. -/
theorem modified_handlerStart? {body : List Stmt} {name : String} {a b : Activation}
    {scope : Scope} (h : Stmt.handlerStart? ctx fuel body name a = some (scope, b)) :
    a.scope.Modified (Stmt.allTargets body) scope ∧ b.scope.outer = scope.frames := by
  unfold Stmt.handlerStart? at h
  split at h
  · next f c hc =>
    split at h <;> cases h
    exact ⟨modified_of_body hc, rfl⟩
  · cases h

/-- The statements of a program leave its scope as a body does. -/
theorem modified_of_runIn {i : Interpreter} {p : Program} {scope : Scope}
    {ran : Interpreter.Ran} (h : i.runIn fuel scope p = some ran) :
    scope.Modified (Stmt.allTargets p.statements) ran.scope := by
  have hmoves : Exec.Moves (Scope.Modified (Stmt.allTargets p.statements))
      (Program.exec (i.declareAll p.functions).context fuel p.statements) := by
    cases p.statements with
    | nil => exact Exec.moves_pure none
    | cons s rest =>
      rw [Program.exec, map_eq_pure_bind]
      have hbody : Exec.Moves (Scope.Modified (Stmt.allTargets (s :: rest)))
          (Stmt.execAll (i.declareAll p.functions).context
            ((i.declareAll p.functions).context.calls fuel) fuel .unit (s :: rest)) :=
        moves_execAll (s :: rest) (fun _ ht => Target.within_modified ht) .unit
      exact hbody.bind fun v => Exec.moves_pure (some v)
  rcases Interpreter.execute_eq_some h with ⟨v, b, hexec, rfl⟩ | ⟨e, b, hexec, rfl⟩
  · exact hmoves _ _ _ hexec
  · exact hmoves _ _ _ hexec

end Statements

/-! ## Only targets are modified -/

/-- **Only the targets of a statement are modified.**  However a statement ends, the names that its
scope itself binds are bound to what they were bound to, except those that the statement declares,
assigns to, or takes for a loop outside of all its handlers; none of them is unbound; those that it
only assigns to are bound if they were, under the annotation they had; and the frames around the
scope are the same.  So it is with bodies, and with the statements of a program.

Inside of a statement, a call and a handler have a scope of their own.  When they are over, however
they end, the frames around that scope are those of the caller, and those that the guarded body has
left, which differ from the frames of the statement only in targets of that body. -/
theorem only_targets_modified (ctx : Context) (fuel : Nat) :
    (∀ (s : Stmt) (a b : Activation) (r : Except Exit Value),
      s.run ctx fuel a = some (r, b) → a.scope.Modified s.targets b.scope) ∧
    (∀ (body : List Stmt) (last : Value) (a b : Activation) (r : Except Exit Value),
      Stmt.execAll ctx (ctx.calls fuel) fuel last body a = some (r, b) →
        a.scope.Modified (Stmt.allTargets body) b.scope) ∧
    (∀ (i : Interpreter) (scope : Scope) (p : Program) (ran : Interpreter.Ran),
      i.runIn fuel scope p = some ran →
        scope.Modified (Stmt.allTargets p.statements) ran.scope) ∧
    (∀ (caller scope : Scope) (f : Function) (args : List Value) (m : Machine) (b : Activation)
        (r : Except Exit Value),
      Call.entry ctx caller f args m = .ok scope →
        Stmt.execAll ctx (ctx.calls fuel) fuel .unit f.body ⟨scope, m.enterCall⟩ = some (r, b) →
          b.scope.outer = caller.frames) ∧
    (∀ (body : List Stmt) (name : String) (handler : List Stmt) (scope : Scope)
        (a b c : Activation) (r : Except Exit Value),
      Stmt.handlerStart? ctx fuel body name a = some (scope, b) →
        Stmt.execAll ctx (ctx.calls fuel) fuel .unit handler b = some (r, c) →
          a.scope.Modified (Stmt.allTargets body) scope ∧ c.scope.outer = scope.frames) := by
  refine ⟨?stmt, ?body, ?program, ?call, ?handler⟩
  case stmt =>
    intro s a b r h
    exact modified_of_stmt h
  case body =>
    intro body last a b r h
    exact modified_of_body h
  case program =>
    intro i scope p ran h
    exact modified_of_runIn h
  case call =>
    intro caller scope f args m b r hentry hbody
    rw [outer_execAll hbody, Call.outer_entry hentry]
  case handler =>
    intro body name handler scope a b c r hstart hhandler
    obtain ⟨hscope, houter⟩ := modified_handlerStart? hstart
    exact ⟨hscope, (outer_execAll hhandler).trans houter⟩

/-- A function that declares a name, assigns to it, and yields it. -/
def rebindsName : Function where
  name := "f"
  params := [⟨"n", none⟩]
  body := [.declare "kept" none (.ident "n"), .assign "kept" (.int 3), .ret (some (.ident "kept"))]

/-- An assignment by way of a call, and one that the annotation refuses, in a guarded statement whose
handler declares a name and then fails. -/
def failsInHandler : Stmt :=
  .block [
    .assign "n" (.call "f" [.ident "n"]),
    .guarded [.assign "n" (.bool true)] "e" [.declare "kept" none (.ident "e"), .raise (.int 1)]]

/-- A scope in which both names are bound, one of them under an annotation. -/
def keepingScope : Scope :=
  (Scope.root.define "n" { value := .int 1, ty := some .int }).define "kept" { value := .unit }

/-- Both the function and the handler bind the name, and the statement fails in the handler; the name
is bound to what it was bound to, and the other name is annotated as it was. -/
theorem only_targets_modified_failsInHandler :
    ∃ r b, failsInHandler.run ⟨{}, (∅ : Std.ExtTreeMap String Function).insert "f" rebindsName⟩ 2
        ⟨keepingScope, {}⟩ = some (r, b) ∧
      b.scope.own["kept"]? = some { value := .unit } ∧
      b.scope.own["n"]?.map Binding.ty = some (some .int) := by
  have hsome : (failsInHandler.run
      ⟨{}, (∅ : Std.ExtTreeMap String Function).insert "f" rebindsName⟩ 2
      ⟨keepingScope, {}⟩).isSome = true := by
    decide +kernel
  obtain ⟨⟨r, b⟩, hrun⟩ := Option.isSome_iff_exists.mp hsome
  have hmodified := (only_targets_modified _ 2).1 failsInHandler ⟨keepingScope, {}⟩ b r hrun
  have htargets : failsInHandler.targets = [.assigned "n", .assigned "n"] := rfl
  rw [htargets] at hmodified
  refine ⟨r, b, hrun, ?_, ?_⟩
  · rw [hmodified.unchanged (by decide) (by decide)]
    rfl
  · rw [hmodified.annotated (by decide)]
    rfl

end Imperative
