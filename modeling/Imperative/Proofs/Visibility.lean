import Imperative.Proofs.Construct
import Imperative.Proofs.Lockstep
import Mathlib.Data.Set.Defs

/-!
# What code sees of its scope

A body is executed in a scope inside the scope of its caller, so it sees the variables of whoever
called it, and of whoever called that one.  It looks a long way, but it does not see much: it comes
upon a binding by name, and the names are written in the code.  Reading a variable, calling a
function and assigning to a variable are the three constructs that ask a scope for a name
(`Expr.names`, `Stmt.names`).  A declaration, a loop over a range, a parameter and the name of a
handler only bind one.

Two scopes *agree* on a set of names if they answer alike for each name of the set, when asked
what it is bound to in the innermost frame, which is what an assignment asks, and when asked what
it is bound to at all, which is what a reader asks (`Scope.Agrees`).  How many frames there are,
what they hold under other names, and what an inner binding hides, is not part of the answer.

The law is that code whose names are in the set, and that calls only functions whose names are, runs
in agreeing scopes in lockstep: both runs have an outcome or neither has, the outcomes and the
machines are the same, and the scopes still agree (`unread_names_unobservable`).  In this form it
is kept by every construct.  For actions on scopes it is `Exec.SeesOnly`, with one rule for each way
to build an action, and for evaluation in a scope it is `Eval.SeesOnly`, where nothing is left to
agree and the two evaluations are simply equal.
-/

namespace Imperative

open Imperative.Action

/-! ## The names in code -/

mutual

/-- The names that an expression asks its scope for. -/
def Expr.names : Expr → List String
  | .int _ => []
  | .float _ => []
  | .text _ => []
  | .bool _ => []
  | .ident name => [name]
  | .arith _ a b => a.names ++ b.names
  | .neg e => e.names
  | .eq a b => a.names ++ b.names
  | .ne a b => a.names ++ b.names
  | .compare _ a b => a.names ++ b.names
  | .logic _ a b => a.names ++ b.names
  | .not e => e.names
  | .call name args => name :: Expr.allNames args
  | .list elements => Expr.allNames elements
  | .index base position => base.names ++ position.names

/-- The names that some expressions ask their scope for. -/
def Expr.allNames : List Expr → List String
  | [] => []
  | e :: es => e.names ++ Expr.allNames es

end

mutual

/-- The names that a statement asks its scope for. -/
def Stmt.names : Stmt → List String
  | .declare _ _ e => e.names
  | .assign name e => name :: e.names
  | .ret none => []
  | .ret (some e) => e.names
  | .cond test yes no => test.names ++ (Stmt.allNames yes ++ Stmt.allNames no)
  | .whileDo test body => test.names ++ Stmt.allNames body
  | .forRange _ start stop body => start.names ++ (stop.names ++ Stmt.allNames body)
  | .breakLoop => []
  | .continueLoop => []
  | .block body => Stmt.allNames body
  | .guarded body _ handler => Stmt.allNames body ++ Stmt.allNames handler
  | .raise e => e.names
  | .expr e => e.names

/-- The names that some statements ask their scope for. -/
def Stmt.allNames : List Stmt → List String
  | [] => []
  | s :: rest => s.names ++ Stmt.allNames rest

end

/-- All names of a list are in a set. -/
def Within (S : Set String) (names : List String) : Prop := ∀ name ∈ names, name ∈ S

theorem within_append {S : Set String} {xs ys : List String} :
    Within S (xs ++ ys) ↔ Within S xs ∧ Within S ys :=
  List.forall_mem_append

theorem within_cons {S : Set String} {x : String} {xs : List String} :
    Within S (x :: xs) ↔ x ∈ S ∧ Within S xs :=
  List.forall_mem_cons

/-- The names in all declared functions are in a set. -/
def Context.Within (S : Set String) (ctx : Context) : Prop :=
  ∀ (name : String) (f : Function), ctx.functions[name]? = some f →
    Imperative.Within S (Stmt.allNames f.body)

/-! ## Scopes that agree -/

/-- Two scopes answer alike for every name of a set. -/
structure Scope.Agrees (S : Set String) (s t : Scope) : Prop where
  own : ∀ name ∈ S, s.own[name]? = t.own[name]?
  lookup : ∀ name ∈ S, s.lookup name = t.lookup name

/-- Two activations differ at most in what their scopes say of names outside of a set. -/
structure Activation.Agrees (S : Set String) (a b : Activation) : Prop where
  scope : a.scope.Agrees S b.scope
  machine : a.machine = b.machine

namespace Scope

variable {S : Set String} {s t : Scope}

theorem Agrees.trans {u : Scope} (h₁ : s.Agrees S t) (h₂ : t.Agrees S u) : s.Agrees S u where
  own name hname := (h₁.own name hname).trans (h₂.own name hname)
  lookup name hname := (h₁.lookup name hname).trans (h₂.lookup name hname)

/-- A scope inside each of two agreeing ones. -/
theorem Agrees.child (h : s.Agrees S t) : s.child.Agrees S t.child where
  own _ _ := rfl
  lookup name hname := by
    rw [lookup_child, lookup_child]
    exact h.lookup name hname

/-- A name may be bound in both scopes, whether it is in the set or not. -/
theorem Agrees.define (h : s.Agrees S t) (name : String) (b : Binding) :
    (s.define name b).Agrees S (t.define name b) where
  own other hother := by
    rw [own_define, own_define, h.own other hother]
  lookup other hother := by
    rw [lookup_define, lookup_define, h.lookup other hother]

/-- A name outside of the set may be bound in one scope alone. -/
theorem agrees_define {name : String} (hname : name ∉ S) (s : Scope) (b : Binding) :
    s.Agrees S (s.define name b) where
  own other hother := by
    have hne : name ≠ other := fun heq => hname (heq ▸ hother)
    rw [own_define, if_neg hne]
  lookup other hother := by
    have hne : name ≠ other := fun heq => hname (heq ▸ hother)
    rw [lookup_define, if_neg hne]

/-- The frames around a scope matter only in what they show of the names that the scope itself
does not bind. -/
theorem agrees_of_outer {own : Frame} {outer outer' : List Frame}
    (h : ∀ name ∈ S, own[name]? = none →
      outer.findSome? (·[name]?) = outer'.findSome? (·[name]?)) :
    Agrees S ⟨own, outer⟩ ⟨own, outer'⟩ where
  own _ _ := rfl
  lookup name hname := by
    simp only [Scope.lookup]
    cases hown : own[name]? with
    | some b => rfl
    | none => exact h name hname hown

/-- A declaration is refused in both scopes or in none. -/
theorem Agrees.declare (h : s.Agrees S t) (heap : Heap) (name : String) (ty : Option Ty)
    (v : Value) :
    (∃ s' t', s.declare heap name ty v = .ok s' ∧ t.declare heap name ty v = .ok t' ∧
        s'.Agrees S t') ∨
      ∃ f, s.declare heap name ty v = .error f ∧ t.declare heap name ty v = .error f := by
  unfold Scope.declare
  cases heap.checkTyped v ty with
  | ok u => exact .inl ⟨_, _, rfl, rfl, h.define name _⟩
  | error f => exact .inr ⟨f, rfl, rfl⟩

/-- Only the innermost frame decides on an assignment, and the name of it has to be in the set. -/
theorem Agrees.assign (h : s.Agrees S t) (heap : Heap) {name : String} (hname : name ∈ S)
    (v : Value) :
    (∃ s' t', s.assign heap name v = .ok s' ∧ t.assign heap name v = .ok t' ∧
        s'.Agrees S t') ∨
      ∃ f, s.assign heap name v = .error f ∧ t.assign heap name v = .error f := by
  unfold Scope.assign
  rw [h.own name hname]
  cases t.own[name]? with
  | some b => exact h.declare heap name b.ty v
  | none => exact .inr ⟨_, rfl, rfl⟩

end Scope

/-! ## Actions that see only some names -/

/-- Neither of two executions has an outcome, or both end alike: with the same outcome, and in
agreeing activations. -/
inductive Exec.Alike (S : Set String) {α : Type} :
    Option (Except Exit α × Activation) → Option (Except Exit α × Activation) → Prop where
  | unfinished : Exec.Alike S none none
  | ended (r : Except Exit α) {a b : Activation} :
    a.Agrees S b → Exec.Alike S (some (r, a)) (some (r, b))

/-- An action does alike in activations that agree. -/
def Exec.SeesOnly (S : Set String) {α : Type} (x : Exec α) : Prop :=
  ∀ a b, a.Agrees S b → Exec.Alike S (x a) (x b)

/-- An evaluation is the same in scopes that agree. -/
def Eval.SeesOnly (S : Set String) {α : Type} (x : Scope → Eval α) : Prop :=
  ∀ s t, s.Agrees S t → x s = x t

namespace Eval.SeesOnly

variable {S : Set String} {α β : Type}

theorem const (x : Eval α) : Eval.SeesOnly S fun _ => x := fun _ _ _ => rfl

theorem bind {x : Scope → Eval α} {f : α → Scope → Eval β} (hx : Eval.SeesOnly S x)
    (hf : ∀ v, Eval.SeesOnly S (f v)) : Eval.SeesOnly S fun s => x s >>= fun v => f v s := by
  intro s t h
  have hrest : (fun v => f v s) = fun v => f v t := funext fun v => hf v s t h
  show (x s >>= fun v => f v s) = x t >>= fun v => f v t
  rw [hx s t h, hrest]

theorem then_const {x : Scope → Eval α} (hx : Eval.SeesOnly S x) (f : α → Eval β) :
    Eval.SeesOnly S fun s => x s >>= f :=
  hx.bind fun v => const (f v)

end Eval.SeesOnly

namespace Exec

variable {S : Set String} {α β : Type}

/-- To do alike in agreeing activations is to go in lockstep from them. -/
theorem seesOnly_iff {x : Exec α} : SeesOnly S x ↔ Blind (Activation.Agrees S) x := by
  have halike : ∀ p q : Option (Except Exit α × Activation),
      Alike S p q ↔ Paired (Activation.Agrees S) p q := by
    intro p q
    constructor
    · rintro (_ | ⟨r, hab⟩)
      · exact .unfinished
      · exact .ended r hab
    · rintro (_ | ⟨r, hab⟩)
      · exact .unfinished
      · exact .ended r hab
  exact forall₂_congr fun a b => imp_congr_right fun _ => halike (x a) (x b)

theorem seesOnly_pure (v : α) : SeesOnly S (pure v) := seesOnly_iff.mpr (blind_pure v)

theorem seesOnly_throw (e : Exit) : SeesOnly S (throw e : Exec α) :=
  seesOnly_iff.mpr (blind_throw e)

theorem SeesOnly.bind {x : Exec α} {f : α → Exec β} (hx : SeesOnly S x)
    (hf : ∀ v, SeesOnly S (f v)) : SeesOnly S (x >>= f) :=
  seesOnly_iff.mpr ((seesOnly_iff.mp hx).bind fun v => seesOnly_iff.mp (hf v))

theorem seesOnly_eval {x : Scope → Eval α} (hx : Eval.SeesOnly S x) : SeesOnly S (eval x) := by
  rintro ⟨s, m⟩ ⟨t, m'⟩ ⟨hst, hm⟩
  cases hm
  simp only [eval, hx s t hst]
  split
  · exact .unfinished
  · next v m' _ => exact .ended (.ok v) ⟨hst, rfl⟩
  · next f m' _ => exact .ended (.error (.failed f)) ⟨hst, rfl⟩

theorem seesOnly_rescope {f : Scope → Heap → Except Fault Scope}
    (hf : ∀ s t h, s.Agrees S t →
      (∃ s' t', f s h = .ok s' ∧ f t h = .ok t' ∧ s'.Agrees S t') ∨
        ∃ g, f s h = .error g ∧ f t h = .error g) : SeesOnly S (rescope f) := by
  rintro ⟨s, m⟩ ⟨t, m'⟩ ⟨hst, hm⟩
  cases hm
  rcases hf s t m.heap hst with ⟨s', t', hs, ht, hagree⟩ | ⟨g, hs, ht⟩
  · simp only [rescope, hs, ht]
    exact .ended (.ok ()) ⟨hagree, rfl⟩
  · simp only [rescope, hs, ht]
    exact .ended (.error (.failed g)) ⟨hst, rfl⟩

theorem seesOnly_define (name : String) (b : Binding) : SeesOnly S (define name b) :=
  seesOnly_rescope fun _ _ _ h => .inl ⟨_, _, rfl, rfl, h.define name b⟩

theorem seesOnly_change (f : Machine → α × Machine) : SeesOnly S (change f) := by
  rintro ⟨s, m⟩ ⟨t, m'⟩ ⟨hst, hm⟩
  cases hm
  exact .ended (.ok (f m).1) ⟨hst, rfl⟩

theorem SeesOnly.inChild {x : Exec α} (hx : SeesOnly S x) (name : String) (b : Binding) :
    SeesOnly S (inChild name b x) := by
  rintro ⟨s, m⟩ ⟨t, m'⟩ ⟨hst, hm⟩
  cases hm
  simp only [Exec.inChild]
  have hbody := hx ⟨s.child.define name b, m⟩ ⟨t.child.define name b, m⟩
    ⟨hst.child.define name b, rfl⟩
  generalize x ⟨s.child.define name b, m⟩ = p, x ⟨t.child.define name b, m⟩ = q at hbody
  cases hbody with
  | unfinished => exact .unfinished
  | ended r hcd => exact .ended r ⟨hst, hcd.machine⟩

theorem SeesOnly.turn {x : Exec α} (hx : SeesOnly S x) : SeesOnly S (turn x) :=
  seesOnly_iff.mpr (blind_turn (seesOnly_iff.mp hx))

theorem SeesOnly.inLoop {x : Exec α} (hx : SeesOnly S x) : SeesOnly S (inLoop x) := by
  rintro ⟨s, m⟩ ⟨t, m'⟩ ⟨hst, hm⟩
  cases hm
  simp only [Exec.inLoop]
  have hbody := hx ⟨s, m.enterLoop⟩ ⟨t, m.enterLoop⟩ ⟨hst, rfl⟩
  generalize x ⟨s, m.enterLoop⟩ = p, x ⟨t, m.enterLoop⟩ = q at hbody
  cases hbody with
  | unfinished => exact .unfinished
  | ended r hcd => exact .ended r ⟨hcd.scope, congrArg (Machine.leaveLoop · r) hcd.machine⟩

theorem SeesOnly.guarded {x : Exec α} {handler : Fault → Exec α} (hx : SeesOnly S x)
    (hhandler : ∀ f, SeesOnly S (handler f)) : SeesOnly S (guarded x handler) :=
  seesOnly_iff.mpr (blind_guarded (seesOnly_iff.mp hx) fun f => seesOnly_iff.mp (hhandler f))

end Exec

/-! ## Loops -/

section Loops

variable {S : Set String} {limits : Limits} {test body : Exec Bool}

theorem Loop.seesOnly_whileTrue (htest : test.SeesOnly S) (hbody : body.SeesOnly S)
    (tests taken : Nat) : (whileTrue limits test body tests taken).SeesOnly S :=
  Exec.seesOnly_iff.mpr
    (blind_whileTrue (Exec.seesOnly_iff.mp htest) (Exec.seesOnly_iff.mp hbody) tests taken)

theorem Loop.seesOnly_range (hbody : body.SeesOnly S) (name : String) (left taken : Nat)
    (i : Int64) : (range limits name body left taken i).SeesOnly S :=
  Exec.seesOnly_iff.mpr (blind_range (fun b => Exec.seesOnly_iff.mp (Exec.seesOnly_define name b))
    (Exec.seesOnly_iff.mp hbody) left taken i)

end Loops

/-! ## Expressions -/

section Trees

variable {S : Set String} {ctx : Context} {calls : Calls}

/-- Calls of declared functions are the same from scopes that agree. -/
def Calls.SeeOnly (S : Set String) (ctx : Context) (calls : Calls) : Prop :=
  ∀ (name : String) (f : Function), ctx.functions[name]? = some f → ∀ args,
    Eval.SeesOnly S fun scope => calls scope f args

theorem Context.seesOnly_valueOf {name : String} (hname : name ∈ S) :
    Eval.SeesOnly S fun scope => ctx.valueOf scope name := by
  intro s t h
  simp only [valueOf, h.lookup name hname]

theorem Context.seesOnly_calleeOf {name : String} (hname : name ∈ S) (operands : Nat) :
    Eval.SeesOnly S fun scope => ctx.calleeOf scope name operands := by
  intro s t h
  simp only [calleeOf, functionOf, h.lookup name hname]

/-- What is called is a declared function, or a builtin that asks for no name. -/
theorem Callee.apply_agrees (hcalls : calls.SeeOnly S ctx) {s t : Scope} (h : s.Agrees S t)
    {name : String} {operands : Nat} {m m' : Machine} {callee : Callee}
    (hcallee : ctx.calleeOf t name operands m = some (.ok callee, m')) (args : List Value) :
    callee.apply calls s args = callee.apply calls t args := by
  cases callee with
  | builtin b => rfl
  | function f =>
    obtain ⟨target, hf⟩ := Context.calleeOf_eq_function hcallee
    simp only [Callee.apply, hcalls target f hf args s t h]

mutual

/-- **Expressions see only their names.** -/
theorem Expr.seesOnly_eval (hcalls : calls.SeeOnly S ctx) :
    ∀ e : Expr, Within S e.names → Eval.SeesOnly S fun scope => e.eval ctx calls scope
  | .int _, _ => by
    simp only [Expr.eval]
    exact .const _
  | .float _, _ => by
    simp only [Expr.eval]
    exact .const _
  | .text _, _ => by
    simp only [Expr.eval]
    exact .const _
  | .bool _, _ => by
    simp only [Expr.eval]
    exact .const _
  | .ident name, h => by
    simp only [Expr.eval]
    exact Context.seesOnly_valueOf (h name List.mem_cons_self)
  | .arith op a b, h => by
    simp only [Expr.eval]
    obtain ⟨ha, hb⟩ := within_append.mp h
    exact (seesOnly_eval hcalls a ha).bind fun _ => (seesOnly_eval hcalls b hb).then_const _
  | .neg e, h => by
    simp only [Expr.eval]
    exact (seesOnly_eval hcalls e h).then_const _
  | .eq a b, h => by
    simp only [Expr.eval]
    obtain ⟨ha, hb⟩ := within_append.mp h
    exact (seesOnly_eval hcalls a ha).bind fun _ => (seesOnly_eval hcalls b hb).then_const _
  | .ne a b, h => by
    simp only [Expr.eval]
    obtain ⟨ha, hb⟩ := within_append.mp h
    exact (seesOnly_eval hcalls a ha).bind fun _ => (seesOnly_eval hcalls b hb).then_const _
  | .compare op a b, h => by
    simp only [Expr.eval]
    obtain ⟨ha, hb⟩ := within_append.mp h
    exact (seesOnly_eval hcalls a ha).bind fun _ => (seesOnly_eval hcalls b hb).then_const _
  | .logic op a b, h => by
    simp only [Expr.eval]
    obtain ⟨ha, hb⟩ := within_append.mp h
    refine (seesOnly_eval hcalls a ha).bind fun x =>
      (Eval.SeesOnly.const _).bind fun p => ?_
    by_cases hp : p = op.decisive
    · simp only [if_pos hp]
      exact .const _
    · simp only [if_neg hp]
      exact (seesOnly_eval hcalls b hb).then_const _
  | .not e, h => by
    simp only [Expr.eval]
    exact (seesOnly_eval hcalls e h).then_const _
  | .call name args, h => by
    obtain ⟨hname, hargs⟩ := within_cons.mp h
    intro s t hst
    have hcallee : ctx.calleeOf s name args.length = ctx.calleeOf t name args.length :=
      Context.seesOnly_calleeOf hname args.length s t hst
    have hvs : Expr.evalAll ctx calls s args = Expr.evalAll ctx calls t args :=
      seesOnly_evalAll hcalls args hargs s t hst
    funext m
    simp only [Expr.eval, hcallee, hvs]
    -- the operands are evaluated alike, and what they are passed to is the same by now
    rw [bind_apply, bind_apply]
    split
    · rfl
    · next callee m' hfound =>
      have happly := Callee.apply_agrees hcalls hst hfound
      simp only [happly]
    · rfl
  | .list elements, h => by
    simp only [Expr.eval]
    exact (seesOnly_evalAll hcalls elements h).then_const _
  | .index base position, h => by
    simp only [Expr.eval]
    obtain ⟨hbase, hposition⟩ := within_append.mp h
    exact (seesOnly_eval hcalls base hbase).bind fun _ =>
      (seesOnly_eval hcalls position hposition).then_const _

theorem Expr.seesOnly_evalAll (hcalls : calls.SeeOnly S ctx) :
    ∀ es : List Expr, Within S (Expr.allNames es) →
      Eval.SeesOnly S fun scope => Expr.evalAll ctx calls scope es
  | [], _ => by
    simp only [Expr.evalAll]
    exact .const _
  | e :: es, h => by
    simp only [Expr.evalAll]
    obtain ⟨he, hes⟩ := within_append.mp h
    exact (seesOnly_eval hcalls e he).bind fun _ => (seesOnly_evalAll hcalls es hes).then_const _

end

/-! ## Statements -/

mutual

/-- **Statements see only their names.** -/
theorem Stmt.seesOnly_exec (hcalls : calls.SeeOnly S ctx) (patience : Nat) :
    ∀ s : Stmt, Within S s.names → Exec.SeesOnly S (s.exec ctx calls patience)
  | .declare name ty e, h => by
    rw [Stmt.exec]
    refine (Exec.seesOnly_eval (Expr.seesOnly_eval hcalls e h)).bind fun v => ?_
    refine (Exec.seesOnly_rescope fun s t heap hst => ?_).bind fun _ => Exec.seesOnly_pure _
    exact hst.declare heap name ty v
  | .assign name e, h => by
    rw [Stmt.exec]
    obtain ⟨hname, he⟩ := within_cons.mp h
    refine (Exec.seesOnly_eval (Expr.seesOnly_eval hcalls e he)).bind fun v => ?_
    refine (Exec.seesOnly_rescope fun s t heap hst => ?_).bind fun _ => Exec.seesOnly_pure _
    exact hst.assign heap hname v
  | .ret none, _ => by
    rw [Stmt.exec]
    exact Exec.seesOnly_throw _
  | .ret (some e), h => by
    rw [Stmt.exec]
    exact (Exec.seesOnly_eval (Expr.seesOnly_eval hcalls e h)).bind fun v =>
      Exec.seesOnly_throw _
  | .cond test yes no, h => by
    rw [Stmt.exec]
    obtain ⟨htest, hbranches⟩ := within_append.mp h
    obtain ⟨hyes, hno⟩ := within_append.mp hbranches
    refine (Exec.seesOnly_eval ((Expr.seesOnly_eval hcalls test htest).then_const _)).bind
      fun p => ?_
    split
    · exact seesOnly_execAll hcalls patience yes hyes .unit
    · exact seesOnly_execAll hcalls patience no hno .unit
  | .whileDo test body, h => by
    rw [Stmt.exec]
    obtain ⟨htest, hbody⟩ := within_append.mp h
    refine ((Loop.seesOnly_whileTrue ?_ ?_ _ 0).bind fun _ => Exec.seesOnly_pure _).inLoop
    · exact Exec.seesOnly_eval ((Expr.seesOnly_eval hcalls test htest).then_const _)
    · exact (seesOnly_execAll hcalls patience body hbody .unit).turn
  | .forRange name start stop body, h => by
    rw [Stmt.exec]
    obtain ⟨hstart, hrest⟩ := within_append.mp h
    obtain ⟨hstop, hbody⟩ := within_append.mp hrest
    refine ((Exec.seesOnly_eval ?_).bind fun p => ?_).inLoop
    · exact (Expr.seesOnly_eval hcalls start hstart).bind fun _ =>
        (Expr.seesOnly_eval hcalls stop hstop).then_const _
    · have hturn := (seesOnly_execAll hcalls patience body hbody .unit).turn
      exact (Loop.seesOnly_range hturn name _ 0 p.1).bind fun _ => Exec.seesOnly_pure _
  | .breakLoop, _ => by
    rw [Stmt.exec]
    exact Exec.seesOnly_throw _
  | .continueLoop, _ => by
    rw [Stmt.exec]
    exact Exec.seesOnly_throw _
  | .block body, h => by
    rw [Stmt.exec]
    exact seesOnly_execAll hcalls patience body h .unit
  | .guarded body name handler, h => by
    rw [Stmt.exec]
    obtain ⟨hbody, hhandler⟩ := within_append.mp h
    refine (seesOnly_execAll hcalls patience body hbody .unit).guarded fun f => ?_
    refine (Exec.seesOnly_change _).bind fun text => ?_
    exact (seesOnly_execAll hcalls patience handler hhandler .unit).inChild name _
  | .raise e, h => by
    rw [Stmt.exec]
    exact (Exec.seesOnly_eval ((Expr.seesOnly_eval hcalls e h).then_const _)).bind fun v =>
      Exec.seesOnly_throw _
  | .expr e, h => by
    rw [Stmt.exec]
    exact Exec.seesOnly_eval (Expr.seesOnly_eval hcalls e h)

theorem Stmt.seesOnly_execAll (hcalls : calls.SeeOnly S ctx) (patience : Nat) :
    ∀ body : List Stmt, Within S (Stmt.allNames body) → ∀ last,
      Exec.SeesOnly S (Stmt.execAll ctx calls patience last body)
  | [], _, last => by
    rw [Stmt.execAll]
    exact Exec.seesOnly_pure last
  | s :: rest, h, last => by
    rw [Stmt.execAll]
    obtain ⟨hs, hrest⟩ := within_append.mp h
    exact (seesOnly_exec hcalls patience s hs).bind fun v =>
      seesOnly_execAll hcalls patience rest hrest v

end

end Trees

/-! ## Calls -/

section Calling

variable {S : Set String} {ctx : Context}

/-- Two attempts to make a scope come to agreeing scopes, or fail with the same fault. -/
inductive Scope.MadeAlike (S : Set String) : Except Fault Scope → Except Fault Scope → Prop where
  | made {s t : Scope} : s.Agrees S t → Scope.MadeAlike S (.ok s) (.ok t)
  | refused (f : Fault) : Scope.MadeAlike S (.error f) (.error f)

theorem Call.bind_agrees (h : Heap) (ps : List Param) (vs : List Value) {s t : Scope}
    (hst : s.Agrees S t) : Scope.MadeAlike S (bind h ps vs s) (bind h ps vs t) := by
  induction ps generalizing vs s t with
  | nil =>
    rw [bind_no_params, bind_no_params]
    exact .made hst
  | cons p ps ih =>
    cases vs with
    | nil =>
      rw [bind_no_args, bind_no_args]
      exact .made hst
    | cons v vs =>
      simp only [bind]
      rcases hst.declare h p.name p.ty v with ⟨s', t', hs, ht, hst'⟩ | ⟨f, hs, ht⟩
      · rw [hs, ht]
        exact ih vs hst'
      · rw [hs, ht]
        exact .refused f

/-- A call is admitted from both of two agreeing scopes or from none, and its parameters may have
any names. -/
theorem Call.entry_agrees (f : Function) (args : List Value) (m : Machine) {s t : Scope}
    (hst : s.Agrees S t) :
    Scope.MadeAlike S (entry ctx s f args m) (entry ctx t f args m) := by
  unfold entry
  split
  · exact .refused _
  · split
    · exact bind_agrees m.heap f.params args hst.child
    · exact .refused _

/-- A body that sees only some names makes a call that depends on its caller only through
them. -/
theorem Call.seesOnly_dispatch {run : List Stmt → Exec Value} {f : Function}
    (hrun : (run f.body).SeesOnly S) (args : List Value) :
    Eval.SeesOnly S fun scope => dispatch ctx run scope f args := by
  intro s t hst
  funext m
  show dispatch ctx run s f args m = dispatch ctx run t f args m
  rw [dispatch_apply, dispatch_apply]
  have hentry : Scope.MadeAlike S (entry ctx s f args m) (entry ctx t f args m) :=
    entry_agrees f args m hst
  generalize entry ctx s f args m = p, entry ctx t f args m = q at hentry
  cases hentry with
  | refused g => rfl
  | @made s' t' hscopes =>
    have hbody := hrun ⟨s', m.enterCall⟩ ⟨t', m.enterCall⟩ ⟨hscopes, rfl⟩
    dsimp only
    generalize run f.body ⟨s', m.enterCall⟩ = p, run f.body ⟨t', m.enterCall⟩ = q at hbody
    cases hbody with
    | unfinished => rfl
    | ended r hab =>
      dsimp only
      rw [hab.machine]

/-- **Calls see only the names in the declared functions.**  By induction on the fuel: the calls
that a body makes have less of it. -/
theorem Context.seeOnly_calls (hctx : ctx.Within S) (fuel : Nat) :
    (ctx.calls fuel).SeeOnly S ctx := by
  induction fuel with
  | zero => exact fun _ _ _ _ => .const _
  | succ fuel ih =>
    intro name f hf args
    exact Call.seesOnly_dispatch (Stmt.seesOnly_execAll ih fuel f.body (hctx name f hf) .unit) args

theorem Program.seesOnly_exec (hctx : ctx.Within S) (fuel : Nat) {body : List Stmt}
    (h : Within S (Stmt.allNames body)) : (Program.exec ctx fuel body).SeesOnly S := by
  cases body with
  | nil => exact Exec.seesOnly_pure none
  | cons s rest =>
    rw [Program.exec, map_eq_pure_bind]
    exact (Stmt.seesOnly_execAll (ctx.seeOnly_calls hctx fuel) fuel _ h .unit).bind fun v =>
      Exec.seesOnly_pure (some v)

end Calling

/-! ## Programs -/

/-- The names in a program, in its functions and in its statements, are in a set. -/
structure Program.Within (S : Set String) (p : Program) : Prop where
  functions : ∀ f ∈ p.functions, Imperative.Within S (Stmt.allNames f.body)
  statements : Imperative.Within S (Stmt.allNames p.statements)

/-- Neither of two runs has ended, or both have ended alike: with the same result, in agreeing
scopes, and with the same interpreter left behind. -/
inductive Interpreter.RanAlike (S : Set String) : Option Ran → Option Ran → Prop where
  | unfinished : RanAlike S none none
  | ended (r : Except Fault (Option Value)) {s t : Scope} (i : Interpreter) :
    s.Agrees S t → RanAlike S (some ⟨r, s, i⟩) (some ⟨r, t, i⟩)

namespace Interpreter

variable {S : Set String}

theorem within_declareAll {i : Interpreter} {fs : List Function} (hi : i.context.Within S)
    (hfs : ∀ f ∈ fs, Imperative.Within S (Stmt.allNames f.body)) :
    (i.declareAll fs).context.Within S := by
  intro name f h
  rcases functions_declareAll h with hmem | hdeclared
  · exact hfs f hmem
  · exact hi name f hdeclared

theorem execute_agrees {i : Interpreter} {s t : Scope} {body : List Stmt} (fuel : Nat)
    (hi : i.context.Within S) (hbody : Imperative.Within S (Stmt.allNames body))
    (hst : s.Agrees S t) : RanAlike S (i.execute fuel s body) (i.execute fuel t body) := by
  obtain ⟨limits, functions, m⟩ := i
  have hruns := Program.seesOnly_exec hi fuel hbody ⟨s, m⟩ ⟨t, m⟩ ⟨hst, rfl⟩
  simp only [context] at hruns
  simp only [execute]
  generalize Program.exec ⟨limits, functions⟩ fuel body ⟨s, m⟩ = p,
    Program.exec ⟨limits, functions⟩ fuel body ⟨t, m⟩ = q at hruns
  cases hruns with
  | unfinished => exact .unfinished
  | ended r hab =>
    obtain ⟨hscope, hmachine⟩ := hab
    cases r with
    | ok v =>
      dsimp only
      rw [hmachine]
      exact .ended _ _ hscope
    | error e =>
      dsimp only
      rw [hmachine]
      exact .ended _ _ hscope

theorem runIn_agrees {i : Interpreter} {s t : Scope} {p : Program} (fuel : Nat)
    (hi : i.context.Within S) (hp : p.Within S) (hst : s.Agrees S t) :
    RanAlike S (i.runIn fuel s p) (i.runIn fuel t p) :=
  execute_agrees fuel (within_declareAll hi hp.functions) hp.statements hst

end Interpreter

/-! ## What nothing can tell -/

/-- **Names that are not asked for cannot be told.**  Let the names of all declared functions be in
a set.  Then code whose own names are in the set ends in one of two agreeing scopes just if it ends
in the other, with the same outcome and the same machine, events and all, and the scopes agree
again: a statement, a body, and a program that brings functions of its own.  An expression evaluated
in either scope and a call made from either are the same evaluation.

In particular a statement does alike whether or not a name outside of the set is bound in its scope.
And it does alike under any frames that show the same of those names which its own frame does not
bind: how many they are, and what inner ones hide, makes no difference. -/
theorem unread_names_unobservable (S : Set String) (ctx : Context) (fuel : Nat)
    (hctx : ctx.Within S) :
    (∀ (s : Stmt), Within S s.names → ∀ (a b : Activation), a.Agrees S b →
      Exec.Alike S (s.run ctx fuel a) (s.run ctx fuel b)) ∧
    (∀ (body : List Stmt), Within S (Stmt.allNames body) → ∀ (a b : Activation), a.Agrees S b →
      Exec.Alike S (Stmt.execAll ctx (ctx.calls fuel) fuel .unit body a)
        (Stmt.execAll ctx (ctx.calls fuel) fuel .unit body b)) ∧
    (∀ (e : Expr), Within S e.names → ∀ (s t : Scope), s.Agrees S t → ∀ (m : Machine),
      e.run ctx fuel s m = e.run ctx fuel t m) ∧
    (∀ (name : String) (f : Function), ctx.functions[name]? = some f →
      ∀ (s t : Scope), s.Agrees S t → ∀ (args : List Value) (m : Machine),
        ctx.calls fuel s f args m = ctx.calls fuel t f args m) ∧
    (∀ (i : Interpreter) (p : Program), i.context = ctx → p.Within S →
      ∀ (s t : Scope), s.Agrees S t →
        Interpreter.RanAlike S (i.runIn fuel s p) (i.runIn fuel t p)) ∧
    (∀ (s : Stmt), Within S s.names → ∀ (scope : Scope) (m : Machine) (name : String) (b : Binding),
      name ∉ S →
        Exec.Alike S (s.run ctx fuel ⟨scope, m⟩) (s.run ctx fuel ⟨scope.define name b, m⟩)) ∧
    (∀ (s : Stmt), Within S s.names → ∀ (own : Frame) (outer outer' : List Frame) (m : Machine),
      (∀ name ∈ S, own[name]? = none →
        outer.findSome? (·[name]?) = outer'.findSome? (·[name]?)) →
          Exec.Alike S (s.run ctx fuel ⟨⟨own, outer⟩, m⟩) (s.run ctx fuel ⟨⟨own, outer'⟩, m⟩)) := by
  have hcalls := ctx.seeOnly_calls hctx fuel
  have hstmt : ∀ s : Stmt, Within S s.names → Exec.SeesOnly S (s.run ctx fuel) :=
    fun s hs => Stmt.seesOnly_exec hcalls fuel s hs
  refine ⟨hstmt, ?body, ?expr, ?call, ?program, ?unmentioned, ?hidden⟩
  case body =>
    intro body hbody
    exact Stmt.seesOnly_execAll hcalls fuel body hbody .unit
  case expr =>
    intro e he s t hst m
    exact congrFun (Expr.seesOnly_eval hcalls e he s t hst) m
  case call =>
    intro name f hf s t hst args m
    exact congrFun (hcalls name f hf args s t hst) m
  case program =>
    intro i p hi hp s t hst
    subst hi
    exact Interpreter.runIn_agrees fuel hctx hp hst
  case unmentioned =>
    intro s hs scope m name b hname
    exact hstmt s hs _ _ ⟨Scope.agrees_define hname scope b, rfl⟩
  case hidden =>
    intro s hs own outer outer' m houter
    exact hstmt s hs _ _ ⟨Scope.agrees_of_outer houter, rfl⟩

/-- A function that reads a variable of whoever calls it. -/
def addsToBase : Function where
  name := "add"
  params := [⟨"n", none⟩]
  body := [.ret (some (.arith .add (.ident "base") (.ident "n")))]

/-- An assignment by way of a call, one to a name that only an outer frame binds, and another call
from the handler of that. -/
def addsTwice : Stmt :=
  .block [
    .assign "base" (.call "add" [.int 2]),
    .guarded [.assign "far" (.int 0)] "e" [.ret (some (.call "add" [.int 3]))]]

/-- The names in `addsToBase` and in `addsTwice`. -/
def askedFor : Set String := fun name => name ∈ ["add", "base", "far", "n"]

/-- A scope of two frames. -/
def quietScope : Scope :=
  (Scope.root.define "far" ⟨.int 7, none⟩).child.define "base" ⟨.int 1, none⟩

/-- The same with a frame between the two that is hidden, and with a name nothing asks for. -/
def busyScope : Scope :=
  (((Scope.root.define "far" ⟨.int 7, none⟩).child.define "base" ⟨.bool true, none⟩).child.define
    "base" ⟨.int 1, none⟩).define "spare" ⟨.unit, none⟩

theorem quietScope_agrees_busyScope : quietScope.Agrees askedFor busyScope := by
  refine Scope.Agrees.trans (Scope.agrees_of_outer fun name _ hnone => ?_)
    (Scope.agrees_define (show "spare" ∉ ["add", "base", "far", "n"] by decide) _ _)
  -- a name that the inner frame does not bind is not `base`, and then the frame between has
  -- nothing for it
  have hne : "base" ≠ name := by
    rintro rfl
    simp at hnone
  simp [Scope.root, Scope.define, Scope.child, Std.ExtTreeMap.getElem?_insert, hne]

/-- Whether an outcome is the return of an integer. -/
def returnsInt (n : Int64) : Except Exit Value → Bool
  | .error (.returned (.integer k)) => k == n
  | _ => false

theorem eq_of_returnsInt {n : Int64} {r : Except Exit Value} (h : returnsInt n r = true) :
    r = .error (.returned (.integer n)) := by
  unfold returnsInt at h
  split at h
  · rw [eq_of_beq h]
  · cases h

/-- The two scopes are told apart neither by the calls nor by the assignment that fails, and the
return is the same. -/
theorem unread_names_unobservable_busyScope :
    ∃ a b, addsTwice.run ⟨{}, (∅ : Std.ExtTreeMap String Function).insert "add" addsToBase⟩ 2
        ⟨quietScope, {}⟩ = some (.error (.returned (.integer 6)), a) ∧
      addsTwice.run ⟨{}, (∅ : Std.ExtTreeMap String Function).insert "add" addsToBase⟩ 2
        ⟨busyScope, {}⟩ = some (.error (.returned (.integer 6)), b) ∧ a.Agrees askedFor b := by
  have hreturns : (addsTwice.run
      ⟨{}, (∅ : Std.ExtTreeMap String Function).insert "add" addsToBase⟩ 2
      ⟨quietScope, {}⟩).map (fun p => returnsInt 6 p.1) = some true := by
    decide +kernel
  obtain ⟨⟨r, a⟩, hrun, hr⟩ := Option.map_eq_some_iff.mp hreturns
  cases eq_of_returnsInt hr
  have hwithin : Context.Within askedFor
      ⟨{}, (∅ : Std.ExtTreeMap String Function).insert "add" addsToBase⟩ := by
    intro name f hf
    rw [Context.eq_of_single hf]
    exact show ∀ name ∈ Stmt.allNames addsToBase.body, name ∈ ["add", "base", "far", "n"] by decide
  have halike := (unread_names_unobservable askedFor _ 2 hwithin).1 addsTwice
    (show ∀ name ∈ addsTwice.names, name ∈ ["add", "base", "far", "n"] by decide)
    ⟨quietScope, {}⟩ ⟨busyScope, {}⟩ ⟨quietScope_agrees_busyScope, rfl⟩
  rw [hrun] at halike
  generalize addsTwice.run _ 2 ⟨busyScope, {}⟩ = q at halike ⊢
  cases halike with
  | ended _ hab => exact ⟨a, _, hrun, rfl, hab⟩

end Imperative
