import Imperative.Proofs.Discipline

/-!
# Operations under a discipline

Each operation on values is in order under every discipline, if its operands hold.  An
operation looks at its operands, and then does at most one thing to the machine, which is
one of the changes that `Discipline.Lawful` has a law for; so no operation needs more than
the laws of the judgement `Discipline.From`.

What can go wrong in an operation is a fault that is not internal, with one exception: a
handle may turn out to be dangling (`Discipline.From.fetch`).
-/

namespace Imperative
namespace Discipline

variable {D : Discipline} {ctx : Context} {m : Machine}

/-! ## Handles and annotations -/

theorem From.fetch (L : D.Lawful ctx) (hm : D.Sound m) {r : Handle}
    (hr : D.Holds m.heap (.ref r)) :
    D.From m (Eval.fetch r) fun o m' => m' = m ∧ m.heap.get? r = some o := by
  refine From.read L hm (fun o ho => ⟨rfl, Heap.fetch_eq_ok_iff.mp ho⟩) fun f hf => ?_
  obtain ⟨hnone, rfl⟩ := Heap.fetch_eq_error_iff.mp hf
  exact L.dangling hm hr hnone

theorem Lawful.check_error (L : D.Lawful ctx) (hm : D.Sound m) {v : Value} {ty : Ty} {f : Fault}
    (hv : D.Holds m.heap v) (h : m.heap.check v ty = .error f) :
    D.Step m (some (.failed f)) m := by
  obtain rfl | ⟨r, rfl, hnone, rfl⟩ := Heap.check_eq_error h
  · exact (L.leads_raise hm rfl).2
  · exact L.dangling hm hv hnone

theorem Lawful.checkTyped_error (L : D.Lawful ctx) (hm : D.Sound m) {v : Value} {ty : Option Ty}
    {f : Fault} (hv : D.Holds m.heap v) (h : m.heap.checkTyped v ty = .error f) :
    D.Step m (some (.failed f)) m := by
  cases ty with
  | none => cases h
  | some t => exact L.check_error hm hv h

theorem Lawful.declare_ok (L : D.Lawful ctx) {h : Heap} {s s' : Scope} {name : String}
    {ty : Option Ty} {v : Value} (hs : D.Keeps h s) (hv : D.Holds h v)
    (hd : s.declare h name ty v = .ok s') : D.Keeps h s' := by
  unfold Scope.declare at hd
  cases hc : h.checkTyped v ty with
  | ok u =>
    rw [hc] at hd
    cases hd
    exact L.keeps_define hs hv hc
  | error f =>
    rw [hc] at hd
    cases hd

theorem Lawful.declare_error (L : D.Lawful ctx) (hm : D.Sound m) {s : Scope} {name : String}
    {ty : Option Ty} {v : Value} {f : Fault} (hv : D.Holds m.heap v)
    (hd : s.declare m.heap name ty v = .error f) : D.Step m (some (.failed f)) m := by
  unfold Scope.declare at hd
  cases hc : m.heap.checkTyped v ty with
  | ok u =>
    rw [hc] at hd
    cases hd
  | error g =>
    rw [hc] at hd
    cases hd
    exact L.checkTyped_error hm hv hc

theorem Lawful.assign_ok (L : D.Lawful ctx) {h : Heap} {s s' : Scope} {name : String}
    {v : Value} (hs : D.Keeps h s) (hv : D.Holds h v) (ha : s.assign h name v = .ok s') :
    D.Keeps h s' := by
  unfold Scope.assign at ha
  split at ha
  · exact L.declare_ok hs hv ha
  · cases ha

theorem Lawful.assign_error (L : D.Lawful ctx) (hm : D.Sound m) {s : Scope} {name : String}
    {v : Value} {f : Fault} (hv : D.Holds m.heap v) (ha : s.assign m.heap name v = .error f) :
    D.Step m (some (.failed f)) m := by
  unfold Scope.assign at ha
  split at ha
  · exact L.declare_error hm hv ha
  · cases ha
    exact (L.leads_raise hm rfl).2

/-! ## Operators -/

theorem From.refuseArithmetic {α : Type} (L : D.Lawful ctx) (hm : D.Sound m) (op : ArithOp)
    (x y : Value) {post : α → Machine → Prop} :
    D.From m (Value.refuseArithmetic op x y : Eval α) post :=
  From.mismatch L hm _

theorem holds_of_join? {h : Heap} {o p q : Object} (hj : o.join? p = some q)
    (ho : ∀ items, o = .list items → ∀ v ∈ items, D.Holds h v)
    (hp : ∀ items, p = .list items → ∀ v ∈ items, D.Holds h v) :
    ∀ items, q = .list items → ∀ v ∈ items, D.Holds h v := by
  unfold Object.join? at hj
  split at hj <;> cases hj
  · intro items hq
    cases hq
  · next xs ys =>
    intro items hq v hv
    cases hq
    rw [Array.mem_append] at hv
    rcases hv with hv | hv
    · exact ho xs rfl v hv
    · exact hp ys rfl v hv

theorem join?_ne_function {o p : Object} {name : String} : o.join? p ≠ some (.function name) := by
  unfold Object.join?
  split <;> simp

/-- Joining two objects is in order where additions are allowed. -/
theorem From.join (L : D.Lawful ctx) (hadd : D.Allows .sum) (hm : D.Sound m) {p q : Handle}
    (hp : D.Holds m.heap (.ref p)) (hq : D.Holds m.heap (.ref q)) :
    D.From m (Value.join p q) fun v m' => D.Holds m'.heap v := by
  unfold Value.join
  refine From.bind L (From.fetch L hm hp) ?_
  rintro a _ - ⟨rfl, ha⟩
  refine From.bind L (From.fetch L hm hq) ?_
  rintro b _ - ⟨rfl, hb⟩
  split
  · next o ho =>
    have hitems := holds_of_join? (D := D) ho
      (fun items he v hv => L.holds_item hm (he ▸ ha) hv)
      (fun items he v hv => L.holds_item hm (he ▸ hb) hv)
    have hfun : ∀ name, o ≠ .function name := fun name he => join?_ne_function (he ▸ ho)
    obtain ⟨hl, hv⟩ := L.alloc rfl hadd hm hitems hfun
    exact From.change hl hv
  · exact From.refuseArithmetic L hm _ _ _

theorem onInts_error {op : ArithOp} {p q : Int64} {f : Fault} (h : op.onInts p q = .error f) :
    f = .divisionByZero := by
  unfold ArithOp.onInts at h
  split at h
  · cases h
  · cases h
  · cases h
  · split at h <;> cases h
    rfl

theorem From.arithmetic (L : D.Lawful ctx) {op : ArithOp} (hadd : op = .add → D.Allows .sum)
    (hm : D.Sound m) {x y : Value} (hx : D.Holds m.heap x) (hy : D.Holds m.heap y) :
    D.From m (x.arithmetic op y) fun v m' => D.Holds m'.heap v := by
  unfold Value.arithmetic
  split
  · next p q =>
    refine From.read L hm (fun v hv => L.holds_plain ?_) fun f hf => ?_
    · cases ho : op.onInts p q with
      | ok n =>
        rw [ho] at hv
        cases hv
        rfl
      | error f =>
        rw [ho] at hv
        cases hv
    · cases ho : op.onInts p q with
      | ok n =>
        rw [ho] at hf
        cases hf
      | error g =>
        rw [ho] at hf
        cases hf
        rw [onInts_error ho]
        exact (L.leads_raise hm rfl).2
  · split
    · next hop => exact From.join L (hadd hop) hm hx hy
    · exact From.refuseArithmetic L hm _ _ _
  · split
    · exact From.pure L hm (L.holds_plain rfl)
    · exact From.refuseArithmetic L hm _ _ _

theorem From.negate (L : D.Lawful ctx) (hm : D.Sound m) (x : Value) :
    D.From m x.negate fun v m' => D.Holds m'.heap v := by
  unfold Value.negate
  split
  · exact From.pure L hm (L.holds_plain rfl)
  · exact From.pure L hm (L.holds_plain rfl)
  · exact From.mismatch L hm _

theorem From.compared (L : D.Lawful ctx) (hm : D.Sound m) (op : CompareOp) (x y : Value) :
    D.From m (x.compared op y) fun v m' => D.Holds m'.heap v := by
  unfold Value.compared
  split
  · exact From.pure L hm (L.holds_plain rfl)
  · exact From.mismatch L hm _

theorem From.equal (L : D.Lawful ctx) (hm : D.Sound m) (x y : Value) :
    D.From m (x.equal y) fun _ _ => True :=
  From.observe L hm fun _ => trivial

theorem From.truth (L : D.Lawful ctx) (hm : D.Sound m) (describe : Shape → Mismatch)
    (x : Value) : D.From m (x.truth describe) fun _ _ => True := by
  unfold Value.truth
  split
  · exact From.pure L hm trivial
  · exact From.mismatch L hm _

theorem From.position (L : D.Lawful ctx) (hm : D.Sound m) (x : Value) :
    D.From m x.position fun _ _ => True := by
  unfold Value.position
  split
  · exact From.pure L hm trivial
  · exact From.mismatch L hm _

/-! ## Strings and lists -/

theorem From.index (L : D.Lawful ctx) (hindex : D.Allows .index) (hm : D.Sound m) {base : Value}
    (hbase : D.Holds m.heap base) (i : Int64) :
    D.From m (base.index i) fun v m' => D.Holds m'.heap v := by
  unfold Value.index
  split
  · refine From.bind L (From.fetch L hm hbase) ?_
    rintro o _ - ⟨rfl, ho⟩
    split
    · next items =>
      split
      · next v hv =>
        obtain ⟨n, -, hn⟩ := Option.bind_eq_some_iff.mp hv
        exact From.pure L hm (L.holds_item hm ho (Array.mem_of_getElem? hn))
      · exact From.throw L hm rfl
    · split
      · obtain ⟨hl, hv⟩ := L.alloc rfl hindex hm (o := .string _)
          (fun items hi => by cases hi) fun name hn => by cases hn
        exact From.change hl hv
      · exact From.throw L hm rfl
    · exact From.throw L hm rfl
  · exact From.throw L hm rfl

theorem From.length (L : D.Lawful ctx) (hm : D.Sound m) {x : Value} (hx : D.Holds m.heap x) :
    D.From m x.length fun v m' => D.Holds m'.heap v := by
  unfold Value.length
  split
  · refine From.bind L (From.fetch L hm hx) ?_
    rintro o _ - ⟨rfl, -⟩
    split
    · exact From.pure L hm (L.holds_plain rfl)
    · exact From.pure L hm (L.holds_plain rfl)
    · exact From.throw L hm rfl
  · exact From.throw L hm rfl

theorem From.push (L : D.Lawful ctx) (hpush : D.Allows .push) (hm : D.Sound m) {target item : Value}
    (htarget : D.Holds m.heap target) (hitem : D.Holds m.heap item) :
    D.From m (target.push item) fun v m' => D.Holds m'.heap v := by
  unfold Value.push
  split
  · refine From.bind L (From.fetch L hm htarget) ?_
    rintro o _ - ⟨rfl, ho⟩
    split
    · exact From.change (L.append hpush hm ho htarget hitem) (L.holds_plain rfl)
    · exact From.throw L hm rfl
  · exact From.throw L hm rfl

/-- Applying a builtin to operands that hold is in order, where a push is allowed if the
builtin is one. -/
theorem From.builtin (L : D.Lawful ctx) {b : Builtin} (hpush : b = .push → D.Allows .push)
    (hm : D.Sound m) {args : List Value} (hargs : ∀ v ∈ args, D.Holds m.heap v) :
    D.From m (b.apply args) fun v m' => D.Holds m'.heap v := by
  unfold Builtin.apply
  split
  · exact From.length L hm (hargs _ List.mem_cons_self)
  · exact From.push L (hpush rfl) hm (hargs _ List.mem_cons_self)
      (hargs _ (List.mem_cons_of_mem _ List.mem_cons_self))
  · exact From.throw L hm rfl

end Discipline
end Imperative
