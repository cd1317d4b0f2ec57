import Imperative.Call

/-!
# Jumps

A return, a break and a continue are **jumps**: they leave off wherever they stand and go to
the construct that catches them.  Whether a piece of code can end in a jump is written in its
text.  It ends in a return only if a return statement occurs in it, and in a break or a
continue only if one occurs in it outside all its loops.  `Stmt.emits` says which jumps a
statement emits in this sense, dead code included, and `emits_exec` says that it ends in no
others.

Two things make the law local.  A loop catches the breaks and continues of its body, every
one of them, whatever turn they come from; and nothing that an expression does ends in a
jump, since a call lets no jump of its body pass.  So the law holds over any meaning of calls
whatever, and it is stated so.

The induction goes through actions and not through outcomes.  `Exec.Emits p x` says of an
action that all its jumps satisfy `p`, and each way to combine actions has a lemma that says
what becomes of `p`.
-/

namespace Imperative

/-- The exits that are no failures. -/
inductive Jump where
  | returns
  | breaks
  | continues
deriving DecidableEq, Repr

/-- The jump that an exit is, if it is one. -/
def Exit.jump? : Exit → Option Jump
  | .returned _ => some .returns
  | .broke => some .breaks
  | .continued => some .continues
  | .failed _ => none

/-- An exit that is no jump is a failure. -/
theorem Exit.failed_of_jump? {e : Exit} (h : e.jump? = none) : ∃ f, e = .failed f := by
  cases e with
  | failed f => exact ⟨f, rfl⟩
  | returned s => cases h
  | broke => cases h
  | continued => cases h

/-! ## The jumps that code emits -/

mutual

/-- Whether a statement emits a jump: for a return, whether one occurs in it at all, and for
a break or a continue, whether one occurs outside its loops. -/
def Stmt.emits (j : Jump) : Stmt → Bool
  | .declare _ _ _ => false
  | .assign _ _ => false
  | .ret _ => j == .returns
  | .cond _ yes no => Stmt.anyEmits j yes || Stmt.anyEmits j no
  | .whileDo _ body => j == .returns && Stmt.anyEmits j body
  | .forRange _ _ _ body => j == .returns && Stmt.anyEmits j body
  | .breakLoop => j == .breaks
  | .continueLoop => j == .continues
  | .block body => Stmt.anyEmits j body
  | .guarded body _ handler => Stmt.anyEmits j body || Stmt.anyEmits j handler
  | .raise _ => false
  | .expr _ => false

/-- Whether one of several statements emits a jump. -/
def Stmt.anyEmits (j : Jump) : List Stmt → Bool
  | [] => false
  | s :: rest => s.emits j || Stmt.anyEmits j rest

end

/-! ## The jumps of an action -/

/-- Every jump that an action ends in satisfies `p`. -/
def Exec.Emits {α : Type} (p : Jump → Prop) (x : Exec α) : Prop :=
  ∀ a e b, x a = some (.error e, b) → ∀ j, e.jump? = some j → p j

namespace Exec

variable {α β : Type} {p q : Jump → Prop}

theorem Emits.imp {x : Exec α} (hx : Emits p x) (hpq : ∀ j, p j → q j) : Emits q x :=
  fun a e b h j hj => hpq j (hx a e b h j hj)

/-- What is known of an action that ends in a jump, jump by jump. -/
theorem Emits.of_jump {x : Exec α} (hx : Emits p x) {a b : Activation} {e : Exit}
    (h : x a = some (.error e, b)) :
    (∀ signal, e = .returned signal → p .returns) ∧ (e = .broke → p .breaks) ∧
      (e = .continued → p .continues) := by
  refine ⟨?_, ?_, ?_⟩
  · rintro signal rfl
    exact hx a _ b h .returns rfl
  · rintro rfl
    exact hx a _ b h .breaks rfl
  · rintro rfl
    exact hx a _ b h .continues rfl

theorem emits_pure (v : α) : Emits p (pure v) := by
  intro a e b h
  rw [Action.pure_apply] at h
  cases h

theorem emits_throw {e : Exit} (he : ∀ j, e.jump? = some j → p j) :
    Emits p (throw e : Exec α) := by
  intro a e' b h
  rw [Action.throw_apply] at h
  cases h
  exact he

theorem Emits.bind {x : Exec α} {f : α → Exec β} (hx : Emits p x) (hf : ∀ v, Emits p (f v)) :
    Emits p (x >>= f) := by
  intro a e c h
  rw [Action.bind_apply] at h
  split at h
  · cases h
  · next v b _ => exact hf v b e c h
  · next e' b h₁ =>
    cases h
    exact hx a e c h₁

/-- What an expression does ends in no jump. -/
theorem emits_eval (x : Scope → Eval α) : Emits p (Exec.eval x) := by
  intro a e b h j hj
  simp only [Exec.eval] at h
  split at h <;> cases h
  cases hj

theorem emits_require (c : Except Fault α) : Emits p (Exec.require c) := by
  intro a e b h j hj
  simp only [Exec.require] at h
  split at h <;> cases h
  cases hj

theorem emits_rescope (f : Scope → Heap → Except Fault Scope) : Emits p (Exec.rescope f) := by
  intro a e b h j hj
  simp only [Exec.rescope] at h
  split at h <;> cases h
  cases hj

theorem emits_change (f : Machine → α × Machine) : Emits p (Exec.change f) := by
  intro a e b h
  simp [Exec.change] at h

theorem Emits.inChild {x : Exec α} (hx : Emits p x) (name : String) (b : Binding) :
    Emits p (Exec.inChild name b x) := by
  intro a e c h
  simp only [Exec.inChild] at h
  split at h <;> cases h
  next d h₁ => exact hx _ e d h₁

theorem Emits.inLoop {x : Exec α} (hx : Emits p x) : Emits p (Exec.inLoop x) := by
  intro a e b h
  simp only [Exec.inLoop] at h
  split at h <;> cases h
  next scope m h₁ => exact hx _ e _ h₁

theorem Emits.guarded {body : Exec α} {handler : Fault → Exec α} (hbody : Emits p body)
    (hhandler : ∀ f, Emits p (handler f)) : Emits p (Exec.guarded body handler) := by
  intro a e c h
  rw [Exec.guarded_apply] at h
  split at h
  · cases h
  · next f b h₁ =>
    split at h
    · cases h
      exact hbody a _ c h₁
    · exact hhandler f b e c h
  · next r b _ h₁ =>
    cases h
    exact hbody a e c h₁

/-- The end of a turn lets returns pass and catches every other jump. -/
theorem Emits.turn {body : Exec α} (hbody : Emits p body) :
    Emits (fun j => j = .returns ∧ p j) (Exec.turn body) := by
  intro a e b h j hj
  simp only [Exec.turn] at h
  split at h <;> cases h
  next hcontinued hbroke h₁ =>
  refine ⟨?_, hbody a e b h₁ j hj⟩
  cases e with
  | returned s =>
    cases hj
    rfl
  | broke => exact absurd rfl hbroke
  | continued => exact absurd rfl hcontinued
  | failed f => cases hj

end Exec

namespace Loop

variable {p : Jump → Prop} {limits : Limits} {test body : Exec Bool}

theorem emits_whileTrue (htest : Exec.Emits p test) (hbody : Exec.Emits p body) (tests : Nat) :
    ∀ taken, Exec.Emits p (whileTrue limits test body tests taken) := by
  induction tests with
  | zero =>
    intro taken a e b h
    cases h
  | succ tests ih =>
    intro taken
    rw [whileTrue]
    refine htest.bind fun b => ?_
    split
    · refine (Exec.emits_require _).bind fun _ => hbody.bind fun b => ?_
      split
      · exact ih (taken + 1)
      · exact Exec.emits_pure ()
    · exact Exec.emits_pure ()

theorem emits_range (hbody : Exec.Emits p body) (name : String) (left : Nat) :
    ∀ taken i, Exec.Emits p (range limits name body left taken i) := by
  induction left with
  | zero =>
    intro taken i
    rw [range]
    exact Exec.emits_pure ()
  | succ left ih =>
    intro taken i
    rw [range]
    refine (Exec.emits_require _).bind fun _ => (Exec.emits_rescope _).bind fun _ =>
      hbody.bind fun b => ?_
    split
    · exact ih (taken + 1) (i + 1)
    · exact Exec.emits_pure ()

end Loop

/-! ## The jumps of a statement -/

section Statements

variable (ctx : Context) (calls : Calls) (patience : Nat)

mutual

/-- **A statement ends in no jump that it does not emit**, whatever calls mean. -/
theorem emits_exec : ∀ s : Stmt,
    Exec.Emits (fun j => s.emits j = true) (s.exec ctx calls patience)
  | .declare name ty e => by
    rw [Stmt.exec]
    exact (Exec.emits_eval _).bind fun v =>
      (Exec.emits_rescope _).bind fun _ => Exec.emits_pure _
  | .assign name e => by
    rw [Stmt.exec]
    exact (Exec.emits_eval _).bind fun v =>
      (Exec.emits_rescope _).bind fun _ => Exec.emits_pure _
  | .ret none => by
    rw [Stmt.exec]
    refine Exec.emits_throw fun j hj => ?_
    cases hj
    rfl
  | .ret (some e) => by
    rw [Stmt.exec]
    refine (Exec.emits_eval _).bind fun v => Exec.emits_throw fun j hj => ?_
    cases hj
    rfl
  | .cond test yes no => by
    rw [Stmt.exec]
    refine (Exec.emits_eval _).bind fun b => ?_
    split
    · exact (emits_execAll yes .unit).imp fun j hj => by simp [Stmt.emits, hj]
    · exact (emits_execAll no .unit).imp fun j hj => by simp [Stmt.emits, hj]
  | .whileDo test body => by
    rw [Stmt.exec]
    have hturn := (emits_execAll body .unit).turn
    refine Exec.Emits.inLoop (Exec.Emits.bind ?_ fun _ => Exec.emits_pure _)
    refine (Loop.emits_whileTrue (Exec.emits_eval _) hturn _ 0).imp fun j hj => ?_
    obtain ⟨rfl, hj⟩ := hj
    simp [Stmt.emits, hj]
  | .forRange name start stop body => by
    rw [Stmt.exec]
    have hturn := (emits_execAll body .unit).turn
    refine Exec.Emits.inLoop ((Exec.emits_eval _).bind fun ⟨i, j⟩ =>
      Exec.Emits.bind ?_ fun _ => Exec.emits_pure _)
    refine (Loop.emits_range hturn name _ 0 i).imp fun j hj => ?_
    obtain ⟨rfl, hj⟩ := hj
    simp [Stmt.emits, hj]
  | .breakLoop => by
    rw [Stmt.exec]
    refine Exec.emits_throw fun j hj => ?_
    cases hj
    rfl
  | .continueLoop => by
    rw [Stmt.exec]
    refine Exec.emits_throw fun j hj => ?_
    cases hj
    rfl
  | .block body => by
    rw [Stmt.exec]
    exact (emits_execAll body .unit).imp fun j hj => by simp [Stmt.emits, hj]
  | .guarded body name handler => by
    rw [Stmt.exec]
    refine Exec.Emits.guarded ?_ fun f => (Exec.emits_change _).bind fun text => ?_
    · exact (emits_execAll body .unit).imp fun j hj => by simp [Stmt.emits, hj]
    · refine Exec.Emits.inChild ?_ name { value := text }
      exact (emits_execAll handler .unit).imp fun j hj => by simp [Stmt.emits, hj]
  | .raise e => by
    rw [Stmt.exec]
    refine (Exec.emits_eval _).bind fun text => Exec.emits_throw fun j hj => ?_
    cases hj
  | .expr e => by
    rw [Stmt.exec]
    exact Exec.emits_eval _

theorem emits_execAll : ∀ (body : List Stmt) (last : Value),
    Exec.Emits (fun j => Stmt.anyEmits j body = true) (Stmt.execAll ctx calls patience last body)
  | [], last => by
    rw [Stmt.execAll]
    exact Exec.emits_pure last
  | s :: rest, last => by
    rw [Stmt.execAll]
    refine Exec.Emits.bind ?_ fun v => ?_
    · exact (emits_exec s).imp fun j hj => by simp [Stmt.anyEmits, hj]
    · exact (emits_execAll rest v).imp fun j hj => by simp [Stmt.anyEmits, hj]

end

end Statements

end Imperative
