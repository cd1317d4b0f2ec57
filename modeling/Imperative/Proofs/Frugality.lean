import Imperative.Proofs.Construct
import Imperative.Proofs.Keeping
import Imperative.Proofs.Sharing

/-!
# Code that makes no objects of its own

Four constructs create an object whenever they are carried out to the end: an addition of strings or
of lists, a list expression, an index into a string, and a handler.  Code without them is *frugal*.
All it can make are shared objects, one for the text of a literal and one for the name of a
function, and only if the code names them (`Expr.shared`, `Stmt.shared`).

So a property of machines is kept by frugal code if it is kept by making the shared objects that the
code names, by extending a list, and by what is written in the books (`Machine.Kept`).  It does not
matter what else the code does: how often it goes round its loops, how deep it calls, where it
fails.  For actions this is `Action.Keeps`, with one rule for each way to build an action.
-/

namespace Imperative

open Imperative.Action

/-! ## The shared objects that code names -/

mutual

/-- The shared objects that an expression may make.  An identifier makes one only if it is the name
of a function. -/
def Expr.shared : Expr → List Shared
  | .int _ => []
  | .float _ => []
  | .text s => [.text s]
  | .bool _ => []
  | .ident name => [.function name]
  | .arith _ a b => a.shared ++ b.shared
  | .neg e => e.shared
  | .eq a b => a.shared ++ b.shared
  | .ne a b => a.shared ++ b.shared
  | .compare _ a b => a.shared ++ b.shared
  | .logic _ a b => a.shared ++ b.shared
  | .not e => e.shared
  | .call _ args => Expr.allShared args
  | .list elements => Expr.allShared elements
  | .index base position => base.shared ++ position.shared

/-- The shared objects that some expressions may make. -/
def Expr.allShared : List Expr → List Shared
  | [] => []
  | e :: es => e.shared ++ Expr.allShared es

end

mutual

/-- The shared objects that a statement may make. -/
def Stmt.shared : Stmt → List Shared
  | .declare _ _ e => e.shared
  | .assign _ e => e.shared
  | .ret none => []
  | .ret (some e) => e.shared
  | .cond test yes no => test.shared ++ Stmt.allShared yes ++ Stmt.allShared no
  | .whileDo test body => test.shared ++ Stmt.allShared body
  | .forRange _ start stop body => start.shared ++ stop.shared ++ Stmt.allShared body
  | .breakLoop => []
  | .continueLoop => []
  | .block body => Stmt.allShared body
  | .guarded body _ handler => Stmt.allShared body ++ Stmt.allShared handler
  | .raise e => e.shared
  | .expr e => e.shared

/-- The shared objects that some statements may make. -/
def Stmt.allShared : List Stmt → List Shared
  | [] => []
  | s :: rest => s.shared ++ Stmt.allShared rest

end

/-- The object can come about: a name has to be that of a declared function. -/
def Shared.Declared (ctx : Context) : Shared → Prop
  | .text _ => True
  | .function name => ctx.functions.contains name = true

/-! ## Frugal code -/

/-- Code, given by the constructs that occur in it and by the shared objects that it names, creates
no objects but shared ones, and only such as are wanted. -/
structure Frugal (ctx : Context) (wanted : Shared → Prop) (has : Construct → Bool)
    (shared : List Shared) : Prop where
  creates (c : Construct) : c.creates = true → has c = false
  wants (k : Shared) : k ∈ shared → k.Declared ctx → wanted k

namespace Frugal

variable {ctx : Context} {wanted : Shared → Prop} {p q : Construct → Bool} {xs ys : List Shared}

theorem mono {wanted' : Shared → Prop} (h : Frugal ctx wanted p xs)
    (hwanted : ∀ k, wanted k → wanted' k) : Frugal ctx wanted' p xs where
  creates := h.creates
  wants k hk hdeclared := hwanted k (h.wants k hk hdeclared)

/-- Code in two parts. -/
theorem parts (h : Frugal ctx wanted (fun c => p c || q c) (xs ++ ys)) :
    Frugal ctx wanted p xs ∧ Frugal ctx wanted q ys where
  left :=
    { creates := fun c hc => (Bool.or_eq_false_iff.mp (h.creates c hc)).1
      wants := fun k hk => h.wants k (List.mem_append_left ys hk) }
  right :=
    { creates := fun c hc => (Bool.or_eq_false_iff.mp (h.creates c hc)).2
      wants := fun k hk => h.wants k (List.mem_append_right xs hk) }

/-- A construct around some code. -/
theorem inner (h : Frugal ctx wanted (fun c => p c || q c) xs) :
    (∀ c, c.creates = true → p c = false) ∧ Frugal ctx wanted q xs where
  left c hc := (Bool.or_eq_false_iff.mp (h.creates c hc)).1
  right :=
    { creates := fun c hc => (Bool.or_eq_false_iff.mp (h.creates c hc)).2
      wants := h.wants }

end Frugal

/-- The body of a function is frugal. -/
def Function.Frugal (ctx : Context) (wanted : Shared → Prop) (f : Function) : Prop :=
  Imperative.Frugal ctx wanted (Stmt.anyHas · f.body) (Stmt.allShared f.body)

/-- All declared functions are frugal. -/
def Context.Frugal (ctx : Context) (wanted : Shared → Prop) : Prop :=
  ∀ (name : String) (f : Function), ctx.functions[name]? = some f → f.Frugal ctx wanted

/-! ## Operations -/

variable {P : Machine → Prop} {α : Type}

/-- A property of machines is kept by making the shared objects that are wanted and by extending a
list, and has nothing to do with the books. -/
structure Machine.Kept (P : Machine → Prop) (wanted : Shared → Prop) : Prop where
  quiet {m m' : Machine} :
    m'.heap = m.heap → m'.texts = m.texts → m'.functionRefs = m.functionRefs → P m → P m'
  append {m : Machine} (r : Handle) (v : Value) :
    P m → P { m with heap := m.heap.append r v }
  intern {m : Machine} {k : Shared} : wanted k → P m → P (m.intern k).2

namespace Machine.Kept

variable {wanted : Shared → Prop} {m : Machine}

theorem enterLoop (H : Kept P wanted) (hm : P m) : P m.enterLoop :=
  H.quiet (m := m) rfl rfl rfl hm

theorem leaveLoop (H : Kept P wanted) (r : Except Exit α) (hm : P m) : P (m.leaveLoop r) := by
  unfold Machine.leaveLoop
  split
  · exact H.quiet (m := m) rfl rfl rfl hm
  · exact H.quiet (m := m) rfl rfl rfl hm

theorem enterCall (H : Kept P wanted) (hm : P m) : P m.enterCall :=
  H.quiet (m := m) rfl rfl rfl hm

theorem leaveCall (H : Kept P wanted) (hm : P m) : P m.leaveCall :=
  H.quiet (m := m) rfl rfl rfl hm

theorem record (H : Kept P wanted) (function : String) (c : Completion) (hm : P m) :
    P (m.record function c) := by
  cases c with
  | returned s => exact H.quiet (m := m) rfl rfl rfl hm
  | fellThrough v => exact H.quiet (m := m) rfl rfl rfl hm

theorem escape (H : Kept P wanted) (e : Exit) (hm : P m) : P (m.escape e) := by
  cases e with
  | returned s => exact H.quiet (m := m) rfl rfl rfl hm
  | _ => exact hm

end Machine.Kept

namespace Value

/-- An operator other than addition makes nothing. -/
theorem keeps_arithmetic {op : ArithOp} (hop : op ≠ .add) (x y : Value) :
    Keeps P (x.arithmetic op y) := by
  unfold arithmetic
  split
  · exact Eval.keeps_read _
  · rw [if_neg hop]
    exact Eval.keeps_mismatch _
  · split
    · exact keeps_pure _
    · exact Eval.keeps_mismatch _

theorem keeps_negate (x : Value) : Keeps P x.negate := by
  unfold negate
  split
  · exact keeps_pure _
  · exact keeps_pure _
  · exact Eval.keeps_mismatch _

theorem keeps_compared (op : CompareOp) (x y : Value) : Keeps P (x.compared op y) := by
  unfold compared
  split
  · exact keeps_pure _
  · exact Eval.keeps_mismatch _

theorem keeps_equal (x y : Value) : Keeps P (x.equal y) := Eval.keeps_observe _

theorem keeps_shown (x : Value) : Keeps P x.shown := Eval.keeps_observe _

theorem keeps_truth (describe : Shape → Mismatch) (x : Value) : Keeps P (x.truth describe) := by
  unfold truth
  split
  · exact keeps_pure _
  · exact Eval.keeps_mismatch _

theorem keeps_length (x : Value) : Keeps P x.length := by
  unfold length
  split
  · refine (Eval.keeps_read _).bind fun o => ?_
    split
    · exact keeps_pure _
    · exact keeps_pure _
    · exact keeps_throw _
  · exact keeps_throw _

theorem keeps_push {wanted : Shared → Prop} (H : Machine.Kept P wanted) (target item : Value) :
    Keeps P (target.push item) := by
  unfold push
  split
  · next r =>
    refine (Eval.keeps_read _).bind fun o => ?_
    split
    · exact Eval.keeps_change fun m hm => H.append r item hm
    · exact keeps_throw _
  · exact keeps_throw _

end Value

theorem Builtin.keeps_apply {wanted : Shared → Prop} (H : Machine.Kept P wanted) (b : Builtin)
    (args : List Value) : Keeps P (b.apply args) := by
  unfold apply
  split
  · exact Value.keeps_length _
  · exact Value.keeps_push H _ _
  · exact keeps_throw _

theorem Loop.keeps_bounds (x y : Value) : Keeps P (bounds x y) := by
  unfold bounds
  split
  · exact keeps_pure _
  · exact Eval.keeps_mismatch _

/-! ## Names -/

namespace Context

variable {wanted : Shared → Prop} (ctx : Context) (scope : Scope) (name : String)

theorem keeps_valueOf (H : Machine.Kept P wanted)
    (hname : (Shared.function name).Declared ctx → wanted (.function name)) :
    Keeps P (ctx.valueOf scope name) := by
  unfold valueOf
  split
  · exact keeps_pure _
  · split
    · next hdeclared => exact Eval.keeps_change fun m hm => H.intern (hname hdeclared) hm
    · exact keeps_throw _

end Context

/-! ## Expressions -/

/-- Calls of declared functions keep a property of machines. -/
def Calls.Keep (P : Machine → Prop) (ctx : Context) (calls : Calls) : Prop :=
  ∀ (name : String) (f : Function), ctx.functions[name]? = some f → ∀ scope args,
    Keeps P (calls scope f args)

section Trees

variable {wanted : Shared → Prop} {ctx : Context} {calls : Calls}

mutual

/-- **Frugal expressions keep what is kept.** -/
theorem Expr.keeps_eval (H : Machine.Kept P wanted) (hcalls : calls.Keep P ctx) (scope : Scope) :
    ∀ e : Expr, Frugal ctx wanted (e.has ·) e.shared → Keeps P (e.eval ctx calls scope)
  | .int _, _ | .float _, _ | .bool _, _ => by
    rw [Expr.eval]
    exact keeps_pure _
  | .text s, h => by
    rw [Expr.eval]
    exact Eval.keeps_change fun m hm => H.intern (h.wants (.text s) List.mem_cons_self trivial) hm
  | .ident name, h => by
    rw [Expr.eval]
    exact Context.keeps_valueOf ctx scope name H (h.wants (.function name) List.mem_cons_self)
  | .arith op a b, h => by
    rw [Expr.eval]
    obtain ⟨hleft, hb⟩ := Frugal.parts h
    obtain ⟨hop, ha⟩ := hleft.inner
    have hadd : op ≠ .add := by
      rintro rfl
      exact absurd (hop .sum rfl) (by decide)
    exact (keeps_eval H hcalls scope a ha).bind fun x =>
      (keeps_eval H hcalls scope b hb).bind fun y =>
        Value.keeps_arithmetic hadd x y
  | .neg e, h => by
    rw [Expr.eval]
    exact (keeps_eval H hcalls scope e h).bind fun x => Value.keeps_negate x
  | .eq a b, h | .ne a b, h => by
    rw [Expr.eval]
    obtain ⟨ha, hb⟩ := Frugal.parts h
    exact (keeps_eval H hcalls scope a ha).bind fun x =>
      (keeps_eval H hcalls scope b hb).bind fun y =>
        (Value.keeps_equal x y).bind fun _ => keeps_pure _
  | .compare op a b, h => by
    rw [Expr.eval]
    obtain ⟨ha, hb⟩ := Frugal.parts h
    exact (keeps_eval H hcalls scope a ha).bind fun x =>
      (keeps_eval H hcalls scope b hb).bind fun y =>
        Value.keeps_compared op x y
  | .logic op a b, h => by
    rw [Expr.eval]
    obtain ⟨ha, hb⟩ := Frugal.parts h
    refine (keeps_eval H hcalls scope a ha).bind fun x => (Value.keeps_truth _ x).bind fun p => ?_
    split
    · exact keeps_pure _
    · exact (keeps_eval H hcalls scope b hb).bind fun y =>
        (Value.keeps_truth _ y).bind fun _ => keeps_pure _
  | .not e, h => by
    rw [Expr.eval]
    exact (keeps_eval H hcalls scope e h).bind fun x =>
      (Value.keeps_truth _ x).bind fun _ => keeps_pure _
  | .call name args, h => by
    rw [Expr.eval]
    obtain ⟨-, hargs⟩ := Frugal.inner h
    refine (Context.keeps_calleeOf ctx scope name _).bind_of fun callee m m' hcallee => ?_
    refine (keeps_evalAll H hcalls scope args hargs).bind fun vs => ?_
    cases callee with
    | builtin b => exact Builtin.keeps_apply H b vs
    | function f =>
      obtain ⟨target, hf⟩ := Context.calleeOf_eq_function hcallee
      exact (hcalls target f hf scope vs).bind fun _ => keeps_pure _
  | .list elements, h => absurd (h.creates .list rfl) (by simp [Expr.has])
  | .index base position, h => absurd (h.creates .index rfl) (by simp [Expr.has])

theorem Expr.keeps_evalAll (H : Machine.Kept P wanted) (hcalls : calls.Keep P ctx)
    (scope : Scope) :
    ∀ es : List Expr, Frugal ctx wanted (Expr.anyHas · es) (Expr.allShared es) →
      Keeps P (Expr.evalAll ctx calls scope es)
  | [], _ => by
    rw [Expr.evalAll]
    exact keeps_pure _
  | e :: es, h => by
    rw [Expr.evalAll]
    obtain ⟨he, hes⟩ := Frugal.parts h
    exact (keeps_eval H hcalls scope e he).bind fun v =>
      (keeps_evalAll H hcalls scope es hes).bind fun vs => keeps_pure _

end

end Trees

/-! ## Execution -/

/-- An execution keeps a property of machines, whatever becomes of its scope. -/
def Exec.Keeps (P : Machine → Prop) (x : Exec α) : Prop :=
  Action.Keeps (fun a => P a.machine) x

namespace Exec

theorem keeps_eval {x : Scope → Eval α} (hx : ∀ scope, Action.Keeps P (x scope)) :
    Keeps P (eval x) := by
  rintro ⟨scope, m⟩ r b hm h
  simp only [eval] at h
  split at h
  · cases h
  · next v m' hv =>
    cases h
    exact hx scope m _ m' hm hv
  · next f m' hf =>
    cases h
    exact hx scope m _ m' hm hf

theorem keeps_rescope (f : Scope → Heap → Except Fault Scope) : Keeps P (rescope f) := by
  rintro ⟨scope, m⟩ r b hm h
  simp only [rescope] at h
  split at h <;> cases h <;> exact hm

/-- What a loop adds to a property is written in the books. -/
theorem keeps_inLoop {wanted : Shared → Prop} (H : Machine.Kept P wanted) {x : Exec α}
    (hx : Keeps P x) : Keeps P (inLoop x) := by
  rintro ⟨scope, m⟩ r b hm h
  simp only [inLoop] at h
  split at h
  · cases h
  · next r scope' m' hrun =>
    cases h
    have hm' : P m' := hx ⟨scope, m.enterLoop⟩ _ _ (H.enterLoop hm) hrun
    exact H.leaveLoop r hm'

theorem keeps_turn {x : Exec α} (hx : Keeps P x) : Keeps P (turn x) :=
  keeps_iff.mpr (blind_turn (keeps_iff.mp hx))

end Exec

namespace Loop

variable {limits : Limits} {test body : Exec Bool}

theorem keeps_whileTrue (htest : test.Keeps P) (hbody : body.Keeps P) (tests taken : Nat) :
    (whileTrue limits test body tests taken).Keeps P :=
  keeps_iff.mpr (blind_whileTrue (keeps_iff.mp htest) (keeps_iff.mp hbody) tests taken)

theorem keeps_range (hbody : body.Keeps P) (name : String) (left taken : Nat) (i : Int64) :
    (range limits name body left taken i).Keeps P :=
  keeps_iff.mpr
    (blind_range (fun _ => keeps_iff.mp (Exec.keeps_rescope _)) (keeps_iff.mp hbody) left taken i)

end Loop

/-! ## Statements -/

section Statements

variable {wanted : Shared → Prop} {ctx : Context} {calls : Calls}

mutual

/-- **Frugal statements keep what is kept.** -/
theorem Stmt.keeps_exec (H : Machine.Kept P wanted) (hcalls : calls.Keep P ctx) (patience : Nat) :
    ∀ s : Stmt, Frugal ctx wanted (s.has ·) s.shared → (s.exec ctx calls patience).Keeps P
  | .declare name ty e, h | .assign name e, h => by
    rw [Stmt.exec]
    exact (Exec.keeps_eval fun scope => Expr.keeps_eval H hcalls scope e h).bind fun v =>
      (Exec.keeps_rescope _).bind fun _ => keeps_pure _
  | .ret none, _ => by
    rw [Stmt.exec]
    exact keeps_throw _
  | .ret (some e), h => by
    rw [Stmt.exec]
    exact (Exec.keeps_eval fun scope => Expr.keeps_eval H hcalls scope e h).bind fun v =>
      keeps_throw _
  | .cond test yes no, h => by
    rw [Stmt.exec]
    obtain ⟨hfirst, hno⟩ := Frugal.parts h
    obtain ⟨htest, hyes⟩ := hfirst.parts
    refine (Exec.keeps_eval fun scope => (Expr.keeps_eval H hcalls scope test htest).bind fun v =>
      Value.keeps_truth _ v).bind fun p => ?_
    split
    · exact keeps_execAll H hcalls patience yes hyes .unit
    · exact keeps_execAll H hcalls patience no hno .unit
  | .whileDo test body, h => by
    rw [Stmt.exec]
    obtain ⟨htest, hbody⟩ := Frugal.parts h
    have hturn := Exec.keeps_turn (keeps_execAll H hcalls patience body hbody .unit)
    refine Exec.keeps_inLoop H ((Loop.keeps_whileTrue ?_ hturn _ 0).bind fun _ => keeps_pure _)
    exact Exec.keeps_eval fun scope => (Expr.keeps_eval H hcalls scope test htest).bind fun v =>
      Value.keeps_truth _ v
  | .forRange name start stop body, h => by
    rw [Stmt.exec]
    obtain ⟨hbounds, hbody⟩ := Frugal.parts h
    obtain ⟨hstart, hstop⟩ := hbounds.parts
    have hturn := Exec.keeps_turn (keeps_execAll H hcalls patience body hbody .unit)
    refine Exec.keeps_inLoop H ((Exec.keeps_eval fun scope => ?_).bind fun p => ?_)
    · exact (Expr.keeps_eval H hcalls scope start hstart).bind fun a =>
        (Expr.keeps_eval H hcalls scope stop hstop).bind fun b => Loop.keeps_bounds a b
    · exact (Loop.keeps_range hturn name _ 0 p.1).bind fun _ => keeps_pure _
  | .breakLoop, _ | .continueLoop, _ => by
    rw [Stmt.exec]
    exact keeps_throw _
  | .block body, h => by
    rw [Stmt.exec]
    exact keeps_execAll H hcalls patience body h .unit
  | .guarded _ _ _, h => absurd (h.creates .guarded rfl) (by simp [Stmt.has])
  | .raise e, h => by
    rw [Stmt.exec]
    refine (Exec.keeps_eval fun scope => ?_).bind fun v => keeps_throw _
    exact (Expr.keeps_eval H hcalls scope e h).bind fun v => Value.keeps_shown v
  | .expr e, h => by
    rw [Stmt.exec]
    exact Exec.keeps_eval fun scope => Expr.keeps_eval H hcalls scope e h

theorem Stmt.keeps_execAll (H : Machine.Kept P wanted) (hcalls : calls.Keep P ctx)
    (patience : Nat) :
    ∀ body : List Stmt, Frugal ctx wanted (Stmt.anyHas · body) (Stmt.allShared body) →
      ∀ last, (Stmt.execAll ctx calls patience last body).Keeps P
  | [], _, last => by
    rw [Stmt.execAll]
    exact keeps_pure last
  | s :: rest, h, last => by
    rw [Stmt.execAll]
    obtain ⟨hs, hrest⟩ := Frugal.parts h
    exact (keeps_exec H hcalls patience s hs).bind fun v =>
      keeps_execAll H hcalls patience rest hrest v

end

end Statements

/-! ## Calls -/

section Calling

variable {wanted : Shared → Prop} {ctx : Context}

theorem Call.keeps_dispatch (H : Machine.Kept P wanted) {run : List Stmt → Exec Value}
    {f : Function} (hrun : (run f.body).Keeps P) (caller : Scope) (args : List Value) :
    Keeps P (dispatch ctx run caller f args) := by
  intro m r m' hm h
  rw [dispatch_apply] at h
  split at h
  · cases h
    exact hm
  · next scope _ =>
    split at h
    · cases h
    · next outcome b hbody =>
      have hb : P b.machine := hrun ⟨scope, m.enterCall⟩ _ _ (H.enterCall hm) hbody
      split at h
      · next c _ =>
        rw [complete_apply] at h
        cases h
        exact H.record f.name c (H.leaveCall hb)
      · cases h
        exact H.leaveCall hb

/-- **Calls keep what is kept**, if the function and all declared functions are frugal.  By
induction on the fuel: the calls that a body makes have less of it. -/
theorem Context.keeps_calls (H : Machine.Kept P wanted) (hctx : ctx.Frugal wanted) (fuel : Nat)
    {f : Function} (hf : f.Frugal ctx wanted) (caller : Scope) (args : List Value) :
    Keeps P (ctx.calls fuel caller f args) := by
  induction fuel generalizing f caller args with
  | zero =>
    intro m r m' _ h
    cases h
  | succ fuel ih =>
    have hcalls : (ctx.calls fuel).Keep P ctx := fun name g hg scope args =>
      ih (hctx name g hg) scope args
    exact Call.keeps_dispatch H (Stmt.keeps_execAll H hcalls fuel f.body hf .unit) caller args

end Calling

/-! ## Hosts -/

section Hosts

variable {wanted : Shared → Prop} {ctx : Context} {fuel : Nat}

/-- All calls that code can make keep what is kept, if all declared functions are frugal. -/
theorem Context.keep_calls (H : Machine.Kept P wanted) (hctx : ctx.Frugal wanted) (fuel : Nat) :
    (ctx.calls fuel).Keep P ctx :=
  fun name _ hf scope args => keeps_calls H hctx fuel (hctx name _ hf) scope args

theorem Interpreter.keeps_runIn (H : Machine.Kept P wanted) {i : Interpreter} {scope : Scope}
    {p : Program} {ran : Ran} (hctx : (i.declareAll p.functions).context.Frugal wanted)
    (hp : Frugal (i.declareAll p.functions).context wanted (Stmt.anyHas · p.statements)
      (Stmt.allShared p.statements))
    (h : i.runIn fuel scope p = some ran) (hm : P i.machine) : P ran.interpreter.machine := by
  have hexec : Exec.Keeps P
      (Program.exec (i.declareAll p.functions).context fuel p.statements) := by
    cases hbody : p.statements with
    | nil => exact keeps_pure none
    | cons s rest =>
      rw [Program.exec, map_eq_pure_bind, ← hbody]
      exact (Stmt.keeps_execAll H (Context.keep_calls H hctx fuel) fuel _ hp .unit).bind fun v =>
        keeps_pure (some v)
  rw [← i.machine_declareAll p.functions] at hm
  rcases execute_eq_some h with ⟨v, b, hrun, rfl⟩ | ⟨e, b, hrun, rfl⟩
  · exact hexec _ _ _ hm hrun
  · exact H.escape e (hexec _ _ _ hm hrun)

theorem Interpreter.keeps_complete (H : Machine.Kept P wanted) {i i' : Interpreter}
    {name : String} {args : List Value} {r : Except Fault Completion}
    (hctx : i.context.Frugal wanted) (h : i.complete fuel name args = some (r, i'))
    (hm : P i.machine) : P i'.machine := by
  obtain ⟨m, hrun, rfl⟩ := evaluate_eq_some h
  have hcall : Keeps P (i.context.functionOf .root name >>= fun f =>
      i.context.calls fuel .root f args) := by
    refine (Context.keeps_functionOf i.context .root name).bind_of fun f m m' hf => ?_
    obtain ⟨target, htarget⟩ := Context.functionOf_eq_ok hf
    exact Context.keep_calls H hctx fuel target f htarget .root args
  exact hcall _ _ _ hm hrun

end Hosts

end Imperative
