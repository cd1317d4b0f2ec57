import Imperative.Interpreter

/-!
# The constructs that occur in code

Some laws hold of code that does without certain constructs: code without a call of `push`
never changes an object, code without a handler never goes on after a failure.  Such a law
says of each construct it excludes that it does not *occur*, and this file says what that
means: `Expr.has` and `Stmt.has` look through the whole tree, dead code included, and not
into the functions that the tree calls.  Where a law is about the functions as well, it asks
that the declared ones lack the construct (`Context.Lacks`), and so do those of a program that
declares more of them (`Program.Lacks`).

The constructs told apart are those that make objects or change them.
-/

namespace Imperative

/-- The constructs whose occurrence matters: an addition, a list expression, an index
expression, a call of `push`, and a handler. -/
inductive Construct where
  | sum
  | list
  | index
  | push
  | guarded
deriving DecidableEq, Repr

/-- Whether a construct may create an object.  A push extends one that exists. -/
def Construct.creates : Construct → Bool
  | .push => false
  | _ => true

mutual

/-- Whether a construct occurs in an expression. -/
def Expr.has (c : Construct) : Expr → Bool
  | .int _ => false
  | .float _ => false
  | .text _ => false
  | .bool _ => false
  | .ident _ => false
  | .arith op a b => (c == .sum && op == .add) || a.has c || b.has c
  | .neg e => e.has c
  | .eq a b => a.has c || b.has c
  | .ne a b => a.has c || b.has c
  | .compare _ a b => a.has c || b.has c
  | .logic _ a b => a.has c || b.has c
  | .not e => e.has c
  | .call name args => (c == .push && name == Builtin.push.name) || Expr.anyHas c args
  | .list elements => c == .list || Expr.anyHas c elements
  | .index base position => c == .index || base.has c || position.has c

/-- Whether a construct occurs in one of several expressions. -/
def Expr.anyHas (c : Construct) : List Expr → Bool
  | [] => false
  | e :: es => e.has c || Expr.anyHas c es

end

mutual

/-- Whether a construct occurs in a statement. -/
def Stmt.has (c : Construct) : Stmt → Bool
  | .declare _ _ e => e.has c
  | .assign _ e => e.has c
  | .ret none => false
  | .ret (some e) => e.has c
  | .cond test yes no => test.has c || Stmt.anyHas c yes || Stmt.anyHas c no
  | .whileDo test body => test.has c || Stmt.anyHas c body
  | .forRange _ start stop body => start.has c || stop.has c || Stmt.anyHas c body
  | .breakLoop => false
  | .continueLoop => false
  | .block body => Stmt.anyHas c body
  | .guarded body _ handler => c == .guarded || Stmt.anyHas c body || Stmt.anyHas c handler
  | .raise e => e.has c
  | .expr e => e.has c

/-- Whether a construct occurs in one of several statements. -/
def Stmt.anyHas (c : Construct) : List Stmt → Bool
  | [] => false
  | s :: rest => s.has c || Stmt.anyHas c rest

end

/-! ## Code without a construct -/

mutual

/-- A handler belongs to a statement, and no expression has one. -/
@[simp] theorem Expr.has_guarded : ∀ e : Expr, e.has .guarded = false
  | .int _ => rfl
  | .float _ => rfl
  | .text _ => rfl
  | .bool _ => rfl
  | .ident _ => rfl
  | .arith _ a b => by simp [Expr.has, a.has_guarded, b.has_guarded]
  | .neg e => e.has_guarded
  | .eq a b => by simp [Expr.has, a.has_guarded, b.has_guarded]
  | .ne a b => by simp [Expr.has, a.has_guarded, b.has_guarded]
  | .compare _ a b => by simp [Expr.has, a.has_guarded, b.has_guarded]
  | .logic _ a b => by simp [Expr.has, a.has_guarded, b.has_guarded]
  | .not e => e.has_guarded
  | .call _ args => by simp [Expr.has, anyHas_guarded args]
  | .list elements => by simp [Expr.has, anyHas_guarded elements]
  | .index base position => by simp [Expr.has, base.has_guarded, position.has_guarded]

@[simp] theorem Expr.anyHas_guarded : ∀ es : List Expr, Expr.anyHas .guarded es = false
  | [] => rfl
  | e :: es => by simp [Expr.anyHas, e.has_guarded, anyHas_guarded es]

end

/-- A construct occurs in no declared function. -/
def Context.Lacks (ctx : Context) (c : Construct) : Prop :=
  ∀ (name : String) (f : Function), ctx.functions[name]? = some f → Stmt.anyHas c f.body = false

/-- Where one function has been declared there is no other. -/
theorem Context.eq_of_single {limits : Limits} {name key : String} {f g : Function}
    (h : (Context.mk limits ((∅ : Std.ExtTreeMap String Function).insert name f)).functions[key]? =
      some g) : g = f := by
  rw [Std.ExtTreeMap.getElem?_insert] at h
  split at h
  · cases h
    rfl
  · rw [Std.ExtTreeMap.getElem?_empty] at h
    cases h

/-- A construct occurs neither in the functions of a program nor in its statements. -/
structure Program.Lacks (p : Program) (c : Construct) : Prop where
  functions : ∀ f ∈ p.functions, Stmt.anyHas c f.body = false
  statements : Stmt.anyHas c p.statements = false

theorem Interpreter.lacks_declareAll {i : Interpreter} {c : Construct} {fs : List Function}
    (hi : i.context.Lacks c) (hfs : ∀ f ∈ fs, Stmt.anyHas c f.body = false) :
    (i.declareAll fs).context.Lacks c := by
  intro name f h
  rcases functions_declareAll h with hmem | hdeclared
  · exact hfs f hmem
  · exact hi name f hdeclared

end Imperative
