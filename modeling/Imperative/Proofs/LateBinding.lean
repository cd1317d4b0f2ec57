import Imperative.Proofs.Moments.Course
import Imperative.Proofs.Resolution
import Imperative.Proofs.Sharing

/-!
# References to functions

The name of a function, used as a value, yields a handle.  The object behind the handle holds
nothing but the name, so what a call through a variable with this handle goes to is looked up when
the call is made, as it is when the name itself is called.

The two calls agree as soon as the handle still leads to the name and the name is still declared
(`Expr.run_call_of_reference`).  Both is so in the whole rest of a session.  The object is a shared
one, which stays what it is, and a declaration is replaced by another one but never taken back.
-/

namespace Imperative

open Imperative.Action

/-! ## One call -/

section Calls

variable {ctx : Context} {scope : Scope} {f g : String} {fn : Function} {r : Handle}
  {ty : Option Ty} {m : Machine}

/-- A name that is not declared, and is that of a variable with a function object, stands for the
function that the object names. -/
theorem Context.functionOf_of_reference (hf : ctx.functions[f]? = none)
    (hlookup : scope.lookup f = some ⟨.ref r, ty⟩) (hr : m.heap.get? r = some (.function g))
    (hg : ctx.functions[g]? = some fn) : ctx.functionOf scope f m = some (.ok fn, m) := by
  have hfetch : m.heap.fetch r = .ok (.function g) := Heap.fetch_eq_ok_iff.mpr hr
  rw [functionOf, hf]
  dsimp only
  rw [hlookup]
  dsimp only
  rw [bind_apply, Eval.fetch, Eval.read, hfetch]
  dsimp only
  rw [hg]
  rfl

theorem Expr.run_call_of_reference (hname : ∀ b : Builtin, b.name ≠ f)
    (hf : ctx.functions[f]? = none) (hlookup : scope.lookup f = some ⟨.ref r, ty⟩)
    (hr : m.heap.get? r = some (.function g)) (hg : ctx.functions[g]? = some fn) (fuel : Nat)
    (args : List Expr) :
    (Expr.call f args).run ctx fuel scope m = fn.applied ctx fuel scope args m :=
  run_call_of_functionOf hname (Context.functionOf_of_reference hf hlookup hr hg) fuel args

end Calls

/-! ## What is kept -/

/-- From where a name has yielded a handle, the object at the handle is the function object of that
name at every later point of the session. -/
theorem Session.object_of_course {limits : Limits} {script : List (Nat × Command)}
    {ctx ctx' : Context} {d e : Moment} {k : Shared}
    (hscript : ∀ p ∈ script, p.2.Respectful)
    (hcourse : [(ctx, d), (ctx', e)].Sublist ((Session.start limits).course script))
    (hk : d.Denotes ctx k) :
    ∃ r, d.Yields ctx k r ∧ e.start.machine.heap.get? r = some k.object := by
  have hd : (Session.start limits).Meets script ctx d :=
    mem_course.mp (hcourse.subset List.mem_cons_self)
  have hm := hd.interned hscript
  rcases part_or_before_of_course Machine.remembers_ratchet hscript hcourse with
    ⟨-, p, hp, -⟩ | ⟨m, hleft, hkept⟩
  · rw [hk.parts_eq_nil] at hp
    cases hp
  · rw [hk.left] at hleft
    cases hleft
    obtain ⟨r, -, hr⟩ := d.start.machine.intern_eq k
    exact ⟨r, hk.yields hm hr, (hkept.interned (hm.intern k)).object (hkept.entry hr)⟩

/-- **References to functions are bound late.**  Take any session, without a command that replaces
an object, and two of its points, the one later than the other: in the same run, or with any number
of commands and failures and new declarations in between.  Let the earlier one evaluate the name `g`
of a declared function that is no variable; it yields a handle `r`.  At the later one `g` is still
declared, and as the function `fn`, say.  Then from every scope in which `f` is a variable with the
handle `r`, where `f` is not declared itself and neither name is that of a builtin, a call of `f`
does what a call of `g` does with the same operands: it evaluates them and calls `fn`, whatever `g`
was declared as when the handle came about.  The outcomes are the same, and so are the machines,
with the heap and the trace, that the calls leave. -/
theorem references_bound_late {limits : Limits} {script : List (Nat × Command)}
    {ctx ctx' : Context} {d e : Moment} {g : String} (hscript : ∀ p ∈ script, p.2.Respectful)
    (hlater : [(ctx, d), (ctx', e)].Sublist ((Session.start limits).course script))
    (hd : d.Denotes ctx (.function g)) (hg : ∀ b : Builtin, b.name ≠ g) :
    ∃ r fn, d.Yields ctx (.function g) r ∧ ctx'.functions[g]? = some fn ∧
      ∀ (f : String) (scope : Scope) (ty : Option Ty), (∀ b : Builtin, b.name ≠ f) →
        ctx'.functions[f]? = none → scope.lookup f = some ⟨.ref r, ty⟩ →
          ∀ (fuel : Nat) (args : List Expr),
            (Expr.call f args).run ctx' fuel scope e.start.machine =
                (Expr.call g args).run ctx' fuel scope e.start.machine ∧
              (Expr.call g args).run ctx' fuel scope e.start.machine =
                fn.applied ctx' fuel scope args e.start.machine := by
  obtain ⟨r, hyields, hobject⟩ := Session.object_of_course hscript hlater hd
  have hdeclared : ctx'.functions.contains g = true :=
    Session.declared_of_course hlater hd.visible.2
  rw [Std.ExtTreeMap.contains_eq_isSome_getElem?] at hdeclared
  obtain ⟨fn, hfn⟩ := Option.isSome_iff_exists.mp hdeclared
  refine ⟨r, fn, hyields, hfn, fun f scope ty hf hnone hlookup fuel args => ?_⟩
  have hname := Expr.run_call_of_declared hg hfn fuel scope args e.start.machine
  have hreference := Expr.run_call_of_reference hf hnone hlookup hobject hfn fuel args
  exact ⟨hreference.trans hname.symm, hname⟩

/-- A function that returns a number. -/
def returnsNumber (n : Int64) : Function where
  name := "number"
  params := []
  body := [.ret (some (.int n))]

/-- Gives the function another name, and then fails. -/
def renamesAndFails : Program where
  items := [.statement (.declare "f" none (.ident "number")), .statement (.raise (.ident "f"))]

/-- After the failure the function is declared anew, and called by the other name. -/
def redeclares : List (Nat × Command) := [
  (1, .declare (returnsNumber 7)),
  (1, .run renamesAndFails "main"),
  (1, .declare (returnsNumber 8)),
  (1, .run (.calling "f" []) "main")]

/-- The reference was made when the function returned seven, and a call through it yields eight. -/
theorem references_bound_late_redeclares :
    ∃ ctx ctx' d e, [(ctx, d), (ctx', e)].Sublist ((Session.start {}).course redeclares) ∧
      d.Yields ctx (.function "number") ⟨0⟩ ∧
      ctx.functions["number"]? = some (returnsNumber 7) ∧
      ctx'.functions["number"]? = some (returnsNumber 8) ∧
      e.task = .eval (.call "f" []) ∧ e.start.scope.lookup "f" = some ⟨.ref ⟨0⟩, none⟩ ∧
      ((Expr.call "f" []).run ctx' e.fuel e.start.scope e.start.machine =
        (returnsNumber 8).applied ctx' e.fuel e.start.scope [] e.start.machine) := by
  let s₁ : Session := { interpreter := Interpreter.declare {} (returnsNumber 7) }
  let s₂ : Session := ((s₁.perform 1 (.run renamesAndFails "main")).map Prod.snd).getD s₁
  let s₃ : Session := { s₂ with interpreter := s₂.interpreter.declare (returnsNumber 8) }
  have hfirst : (Session.start {}).perform 1 (.declare (returnsNumber 7)) = some (.done, s₁) := rfl
  obtain ⟨reply, hrun⟩ : ∃ reply, s₁.perform 1 (.run renamesAndFails "main") = some (reply, s₂) :=
    ⟨_, rfl⟩
  have hagain : s₂.perform 1 (.declare (returnsNumber 8)) = some (.done, s₃) := rfl
  let d : Moment := ⟨1, .eval (.ident "number"), ⟨s₁.scope "main", {}⟩⟩
  let e : Moment := ⟨1, .eval (.call "f" []), ⟨s₃.scope "main", s₃.interpreter.machine⟩⟩
  have hreaches : Moment.Reaches s₁.interpreter.context
      ⟨1, .execAll .unit renamesAndFails.statements, ⟨s₁.scope "main", {}⟩⟩ d :=
    .tail (.tail .refl .head) (.operand rfl)
  have hmeets : s₂.Meets (redeclares.drop 2) s₃.interpreter.context e :=
    .later hagain (.now rfl (.tail (.tail .refl .head) (.operand rfl)))
  have hlater : [(s₁.interpreter.context, d), (s₃.interpreter.context, e)].Sublist
      ((Session.start {}).course redeclares) := by
    refine Session.course_cons.mpr (.inr ⟨_, _, hfirst, .inr ?_⟩)
    exact Session.course_cons.mpr (.inr ⟨reply, s₂, hrun, .inl ⟨_, rfl, hreaches, hmeets⟩⟩)
  have hscript : ∀ p ∈ redeclares, p.2.Respectful := by
    intro p hp r o
    simp only [redeclares, List.mem_cons, List.not_mem_nil, or_false] at hp
    rcases hp with rfl | rfl | rfl | rfl <;> exact Command.noConfusion
  have hd : d.Denotes s₁.interpreter.context (.function "number") := ⟨rfl, rfl, rfl⟩
  have hnames : ∀ b : Builtin, b.name ≠ "number" ∧ b.name ≠ "f" := by
    intro b
    cases b <;> decide
  obtain ⟨r, fn, hyields, hfn, hcalls⟩ :=
    references_bound_late hscript hlater hd fun b => (hnames b).1
  have hr : r = ⟨0⟩ := by
    obtain ⟨m, hm, -⟩ := hyields
    cases hm
    rfl
  have hnumber : s₃.interpreter.functions["number"]? = some (returnsNumber 8) := rfl
  subst hr
  cases hnumber.symm.trans hfn
  obtain ⟨hsame, happlied⟩ :=
    hcalls "f" (s₃.scope "main") none (fun b => (hnames b).2) rfl rfl 1 []
  exact ⟨_, _, d, e, hlater, hyields, rfl, hnumber, rfl, rfl, hsame.trans happlied⟩

end Imperative
