import Imperative.Proofs.Bookkeeping
import Imperative.Proofs.Endings
import Imperative.Proofs.Jumps
import Imperative.Proofs.Normalization
import Imperative.Proofs.Progress
import Imperative.Proofs.Refinement

/-!
# Unrolling a loop

A loop that goes on while a test holds does the same as a conditional, under the same test, whose
branch is the body followed by the loop.  The two are not executed alike.  In the conditional, the
first turn is taken with one loop less in progress; and with a given amount of fuel, the loop in the
branch has one test more than it would have after the first turn.

The first difference is written in the books and is not read by anybody, which is what
`Machine.SameButLoops` and `Machine.Unread` are for.  So a loop with one more test is paired with its
unrolling, with the fuel for everything else being equal (`Loop.within_succ`).  The second difference
is made up for by more fuel, in one direction or in the other (`Stmt.unrolled_of_whileDo`,
`Stmt.whileDo_of_unrolled`).

A body with a break or a continue of its own is out of the question, since the conditional does not
catch it.  So is a test that is no boolean, since the two complain of it in different words.
-/

namespace Imperative

open Imperative.Action

/-! ## Machines but for their loops -/

namespace Machine

/-- The machines differ at most in their traces and in the number of loops in progress. -/
structure SameButLoops (m n : Machine) : Prop where
  heap : m.heap = n.heap
  texts : m.texts = n.texts
  functionRefs : m.functionRefs = n.functionRefs
  tally : m.tally = n.tally
  callDepth : m.callDepth = n.callDepth

namespace SameButLoops

variable {m n o : Machine}

theorem symm (h : m.SameButLoops n) : n.SameButLoops m :=
  ⟨h.heap.symm, h.texts.symm, h.functionRefs.symm, h.tally.symm, h.callDepth.symm⟩

theorem trans (h : m.SameButLoops n) (h' : n.SameButLoops o) : m.SameButLoops o :=
  ⟨h.heap.trans h'.heap, h.texts.trans h'.texts, h.functionRefs.trans h'.functionRefs,
    h.tally.trans h'.tally, h.callDepth.trans h'.callDepth⟩

theorem enterLoop (m : Machine) : m.enterLoop.SameButLoops m := ⟨rfl, rfl, rfl, rfl, rfl⟩

theorem leaveLoop {α : Type} (m : Machine) (r : Except Exit α) :
    (m.leaveLoop r).SameButLoops m := by
  unfold Machine.leaveLoop
  split <;> exact ⟨rfl, rfl, rfl, rfl, rfl⟩

/-- No construct sees how many loops are in progress, or the trace. -/
theorem unread : Unread SameButLoops where
  heap h := h.heap
  texts h := h.texts
  functionRefs h := h.functionRefs
  callDepth h := h.callDepth
  setHeap _ h := ⟨rfl, h.texts, h.functionRefs, h.tally, h.callDepth⟩
  setTexts _ h := ⟨h.heap, rfl, h.functionRefs, h.tally, h.callDepth⟩
  setFunctionRefs _ h := ⟨h.heap, h.texts, rfl, h.tally, h.callDepth⟩
  emit _ h := ⟨h.heap, h.texts, h.functionRefs, h.tally, h.callDepth⟩
  enterCall h :=
    ⟨h.heap, h.texts, h.functionRefs, congrArg Tally.addCall h.tally,
      congrArg (· + 1) h.callDepth⟩
  leaveCall h := ⟨h.heap, h.texts, h.functionRefs, h.tally, congrArg (· - 1) h.callDepth⟩
  record _ c h := by
    cases c with
    | returned s =>
      exact ⟨h.heap, h.texts, h.functionRefs, congrArg (·.addReturn s.kind) h.tally, h.callDepth⟩
    | fellThrough v =>
      exact ⟨h.heap, h.texts, h.functionRefs, congrArg Tally.addFallThrough h.tally, h.callDepth⟩
  enterLoop h := ((enterLoop _).trans h).trans (enterLoop _).symm
  leaveLoop r h := ((leaveLoop _ r).trans h).trans (leaveLoop _ r).symm

end SameButLoops

/-- The machine without its trace. -/
def untraced (m : Machine) : Machine := { m with trace := #[] }

theorem SameButLoops.untraced_eq {m n : Machine} (h : m.SameButLoops n)
    (hloops : m.activeLoops = n.activeLoops) : m.untraced = n.untraced := by
  cases m
  cases n
  obtain ⟨rfl, rfl, rfl, rfl, rfl⟩ := h
  cases hloops
  rfl

end Machine

/-! ## Outcomes but for their loops -/

/-- The outcomes are the same, but for the loops in progress and the trace. -/
abbrev Exec.SameEnd {α : Type} (p q : Option (Except Exit α × Activation)) : Prop :=
  Paired (Activation.Like Machine.SameButLoops) p q

namespace Exec.SameEnd

variable {α : Type}

theorem symm {p q : Option (Except Exit α × Activation)} (h : SameEnd p q) : SameEnd q p :=
  Paired.symm (fun _ _ h => ⟨h.scope.symm, h.machine.symm⟩) h

theorem trans {p q o : Option (Except Exit α × Activation)} (h : SameEnd p q)
    (h' : SameEnd q o) : SameEnd p o :=
  Paired.trans (fun _ _ _ h h' => ⟨h.scope.trans h'.scope, h.machine.trans h'.machine⟩) h h'

/-- That something is a loop can be seen in nothing but the loops in progress. -/
theorem inLoop (x : Exec α) (a : Activation) :
    SameEnd (Exec.inLoop x a) (x ⟨a.scope, a.machine.enterLoop⟩) := by
  obtain ⟨scope, m⟩ := a
  simp only [Exec.inLoop]
  cases x ⟨scope, m.enterLoop⟩ with
  | none => exact .unfinished
  | some p => exact .ended p.1 ⟨rfl, .leaveLoop p.2.machine p.1⟩

end Exec.SameEnd

/-! ## A test and a turn -/

section Turns

variable {limits : Limits} {test : Exec Bool} {body : Exec Value}

/-- A body that neither breaks nor continues takes its turn by being executed. -/
theorem Exec.turn_eq {p : Jump → Prop} (h : Exec.Emits p body) (hbreaks : ¬ p .breaks)
    (hcontinues : ¬ p .continues) : Exec.turn body = body >>= fun _ => pure true := by
  funext a
  rw [bind_apply, turn]
  cases hbody : body a with
  | none => rfl
  | some r =>
    obtain ⟨r, b⟩ := r
    cases r with
    | ok v => rfl
    | error e =>
      cases e with
      | broke => exact absurd (h a _ b hbody .breaks rfl) hbreaks
      | continued => exact absurd (h a _ b hbody .continues rfl) hcontinues
      | returned s => rfl
      | failed f => rfl

/-- Without a limit, a loop does not depend on the number of turns it has taken. -/
theorem Loop.whileTrue_taken (hlimit : limits.turns = none) (test body : Exec Bool)
    (tests taken : Nat) :
    whileTrue limits test body tests taken = whileTrue limits test body tests 0 := by
  induction tests generalizing taken with
  | zero => rw [whileTrue, whileTrue]
  | succ tests ih =>
    rw [whileTrue, whileTrue, Limits.admitTurn_of_none hlimit, Limits.admitTurn_of_none hlimit,
      ih (taken + 1), ih (0 + 1)]

theorem Loop.whileTrue_succ (hlimit : limits.turns = none) (test body : Exec Bool) (tests : Nat) :
    whileTrue limits test body (tests + 1) 0 = (do
      if ← test then
        if ← body then whileTrue limits test body tests 0 else pure ()
      else pure ()) := by
  have hadmit : Exec.require (limits.admitTurn 0) = pure () := by
    rw [Limits.admitTurn_of_none hlimit]
    rfl
  rw [whileTrue, hadmit, whileTrue_taken hlimit test body tests (0 + 1)]
  simp only [pure_bind]

/-- The loop with a number of tests. -/
def Loop.within (limits : Limits) (test : Exec Bool) (body : Exec Value) (tests : Nat) : Exec Value :=
  Exec.inLoop do
    whileTrue limits test (Exec.turn body) tests 0
    return .unit

/-- A turn and then the loop with a number of tests, behind a test. -/
def Loop.unrolled (limits : Limits) (test : Exec Bool) (body : Exec Value) (tests : Nat) :
    Exec Value := do
  if ← test then
    let _ ← body
    within limits test body tests
  else pure .unit

/-- **A loop with one more test is a turn in front of the loop, behind a test.** -/
theorem Loop.within_succ (hlimit : limits.turns = none)
    (htest : Blind (Activation.Like Machine.SameButLoops) test)
    (hbody : Blind (Activation.Like Machine.SameButLoops) body)
    (hturn : Exec.turn body = body >>= fun _ => pure true) (tests : Nat) (a : Activation) :
    Exec.SameEnd (within limits test body (tests + 1) a) (unrolled limits test body tests a) := by
  refine (Exec.SameEnd.inLoop _ a).trans ?_
  rw [unrolled, whileTrue_succ hlimit, hturn, bind_assoc]
  have hentered : Activation.Like Machine.SameButLoops ⟨a.scope, a.machine.enterLoop⟩ a :=
    ⟨rfl, .enterLoop a.machine⟩
  refine (htest _ a hentered).bind fun go s t hst => ?_
  cases go with
  | false => exact .ended (.ok Value.unit) hst
  | true =>
    simp only [if_true, bind_assoc, pure_bind]
    refine (hbody s t hst).bind fun _ s t hst => ?_
    have hwhile : Blind (Activation.Like Machine.SameButLoops) (do
        whileTrue limits test (body >>= fun _ => pure true) tests 0
        return Value.unit) :=
      (blind_whileTrue htest (hbody.bind fun _ => blind_pure true) tests 0).bind
        fun _ => blind_pure _
    -- on the one side the loop goes on, on the other side it is entered once more
    rw [within, hturn]
    have hinside : Activation.Like Machine.SameButLoops s ⟨t.scope, t.machine.enterLoop⟩ :=
      ⟨hst.scope, hst.machine.trans (Machine.SameButLoops.enterLoop t.machine).symm⟩
    exact Exec.SameEnd.trans (hwhile s _ hinside) (Exec.SameEnd.inLoop _ t).symm

/-- With more tests and refined tests and bodies, nothing but an outcome can be gained. -/
theorem Loop.refines_within {q : Fault → Prop} {test' : Exec Bool} {body' : Exec Value}
    (htest : Refines (Exit.Counts q) test test') (hbody : Refines (Exit.Counts q) body body')
    {tests tests' : Nat} (h : tests ≤ tests') :
    Refines (Exit.Counts q) (within limits test body tests) (within limits test' body' tests') :=
  Exec.refines_inLoop
    ((refines_whileTrue (.refl limits) htest (Exec.refines_turn hbody) h 0).bind fun _ => .refl _)

theorem Loop.refines_unrolled {q : Fault → Prop} {test' : Exec Bool} {body' : Exec Value}
    (htest : Refines (Exit.Counts q) test test') (hbody : Refines (Exit.Counts q) body body')
    {tests tests' : Nat} (h : tests ≤ tests') :
    Refines (Exit.Counts q) (unrolled limits test body tests)
      (unrolled limits test' body' tests') := by
  refine htest.bind fun go => ?_
  split
  · exact hbody.bind fun _ => refines_within htest hbody h
  · exact .refl _

end Turns

/-! ## The loop and its unrolling -/

section Statements

variable {ctx : Context} {fuel : Nat} {test : Expr} {body : List Stmt} {a : Activation}

/-- The loop after its body, behind a test. -/
def Stmt.unrolled (test : Expr) (body : List Stmt) : Stmt :=
  .cond test (body ++ [.whileDo test body]) []

/-- The test of a loop. -/
def Expr.runTest (ctx : Context) (fuel : Nat) (test : Expr) : Exec Bool :=
  Exec.eval fun scope => test.run ctx fuel scope >>= Value.truth (.condition .whileDo)

/-- The body of a loop. -/
def Stmt.runBody (ctx : Context) (fuel : Nat) (body : List Stmt) : Exec Value :=
  Stmt.execAll ctx (ctx.calls fuel) fuel .unit body

theorem Stmt.run_whileDo (hlimit : ctx.limits.turns = none) :
    (Stmt.whileDo test body).run ctx fuel =
      Loop.within ctx.limits (test.runTest ctx fuel) (Stmt.runBody ctx fuel body) fuel := by
  rw [run, exec, Limits.testBound, hlimit]
  rfl

/-- If the test comes out as a boolean, or does not come out, the complaint about other values does
not matter. -/
theorem Stmt.run_unrolled (hlimit : ctx.limits.turns = none)
    (htest : ∀ v m, test.run ctx fuel a.scope a.machine = some (.ok v, m) → ∃ p, v = .bool p) :
    (Stmt.unrolled test body).run ctx fuel a =
      Loop.unrolled ctx.limits (test.runTest ctx fuel) (Stmt.runBody ctx fuel body) fuel a := by
  have hsame : Exec.eval (fun scope =>
      test.eval ctx (ctx.calls fuel) scope >>= Value.truth (.condition .cond)) a =
        test.runTest ctx fuel a := by
    have htruth : (test.run ctx fuel a.scope >>= Value.truth (.condition .cond)) a.machine =
        (test.run ctx fuel a.scope >>= Value.truth (.condition .whileDo)) a.machine := by
      rw [bind_apply, bind_apply]
      cases hrun : test.run ctx fuel a.scope a.machine with
      | none => rfl
      | some r =>
        obtain ⟨r, m⟩ := r
        cases r with
        | error f => rfl
        | ok v =>
          obtain ⟨p, rfl⟩ := htest v m hrun
          rfl
    simp only [Expr.runTest, Exec.eval]
    rw [← htruth]
    rfl
  have hyes : Stmt.execAll ctx (ctx.calls fuel) fuel .unit (body ++ [.whileDo test body]) = (do
      let _ ← Stmt.runBody ctx fuel body
      Loop.within ctx.limits (test.runTest ctx fuel) (Stmt.runBody ctx fuel body) fuel) := by
    rw [Stmt.execAll_append, ← run_whileDo hlimit]
    exact bind_congr fun v => Stmt.execAll_singleton _ _ _ _ _
  have hno : Stmt.execAll ctx (ctx.calls fuel) fuel .unit [] = pure Value.unit := by
    rw [execAll]
  rw [unrolled, run, exec, Loop.unrolled, bind_apply, bind_apply, hsame, hyes, hno]

/-- With the same fuel, a loop with one more test is its unrolling. -/
theorem Stmt.within_unrolled (hlimit : ctx.limits.turns = none) (test : Expr)
    (hbreaks : Stmt.anyEmits .breaks body = false)
    (hcontinues : Stmt.anyEmits .continues body = false) (fuel tests : Nat) (a : Activation) :
    Exec.SameEnd
      (Loop.within ctx.limits (test.runTest ctx fuel) (Stmt.runBody ctx fuel body) (tests + 1) a)
      (Loop.unrolled ctx.limits (test.runTest ctx fuel) (Stmt.runBody ctx fuel body) tests a) := by
  have hunread := Machine.SameButLoops.unread
  have htest : Blind (Activation.Like Machine.SameButLoops) (test.runTest ctx fuel) :=
    Exec.blind_eval fun scope => (Expr.blind_run hunread ctx fuel scope test).bind fun v =>
      Value.blind_truth hunread _ v
  have hbody : Blind (Activation.Like Machine.SameButLoops) (Stmt.runBody ctx fuel body) :=
    Stmt.blind_body hunread ctx fuel .unit body
  have hturn : Exec.turn (Stmt.runBody ctx fuel body) =
      Stmt.runBody ctx fuel body >>= fun _ => pure true :=
    Exec.turn_eq (emits_execAll ctx (ctx.calls fuel) fuel body .unit) (by simp [hbreaks])
      (by simp [hcontinues])
  exact Loop.within_succ hlimit htest hbody hturn tests a

theorem Expr.refines_runTest (ctx : Context) (fuel : Nat) (test : Expr) (more : Nat) :
    Refines (Exit.Counts fun _ => True) (test.runTest ctx fuel) (test.runTest ctx (fuel + more)) :=
  Exec.refines_eval fun scope =>
    ((ctx.loosens_self more).expr fuel scope test).bind fun _ => .refl _

theorem Stmt.refines_runBody (ctx : Context) (fuel : Nat) (body : List Stmt) (more : Nat) :
    Refines (Exit.Counts fun _ => True) (Stmt.runBody ctx fuel body)
      (Stmt.runBody ctx (fuel + more) body) :=
  (ctx.loosens_self more).body fuel .unit (.inl fun _ => trivial)

/-- A loop that has ended could have been unrolled with the same fuel. -/
theorem Stmt.unrolled_of_whileDo {b : Activation} {r : Except Exit Value}
    (hlimit : ctx.limits.turns = none) (hbreaks : Stmt.anyEmits .breaks body = false)
    (hcontinues : Stmt.anyEmits .continues body = false)
    (htest : ∀ v m, test.run ctx fuel a.scope a.machine = some (.ok v, m) → ∃ p, v = .bool p)
    (h : (Stmt.whileDo test body).run ctx fuel a = some (r, b)) :
    ∃ c, (Stmt.unrolled test body).run ctx fuel a = some (r, c) ∧
      Activation.Like Machine.SameButLoops b c := by
  rw [run_whileDo hlimit] at h
  cases fuel with
  | zero => cases h
  | succ fuel =>
    have hpair := within_unrolled hlimit test hbreaks hcontinues (fuel + 1) fuel a
    rw [h] at hpair
    obtain ⟨c, hc, hlike⟩ := hpair.of_ended
    have hmore : Refines (Exit.Counts fun _ => True)
        (Loop.unrolled ctx.limits (test.runTest ctx (fuel + 1)) (runBody ctx (fuel + 1) body) fuel)
        (Loop.unrolled ctx.limits (test.runTest ctx (fuel + 1)) (runBody ctx (fuel + 1) body)
          (fuel + 1)) :=
      Loop.refines_unrolled (.refl _) (.refl _) (Nat.le_succ fuel)
    refine ⟨c, ?_, hlike⟩
    rw [run_unrolled hlimit htest]
    exact hmore a r c hc fun _ _ _ _ => trivial

/-- An unrolled loop that has ended takes one test more if it is not unrolled. -/
theorem Stmt.whileDo_of_unrolled {b : Activation} {r : Except Exit Value}
    (hlimit : ctx.limits.turns = none) (hbreaks : Stmt.anyEmits .breaks body = false)
    (hcontinues : Stmt.anyEmits .continues body = false)
    (htest : ∀ v m, test.run ctx fuel a.scope a.machine = some (.ok v, m) → ∃ p, v = .bool p)
    (h : (Stmt.unrolled test body).run ctx fuel a = some (r, b)) :
    ∃ c, (Stmt.whileDo test body).run ctx (fuel + 1) a = some (r, c) := by
  rw [run_unrolled hlimit htest] at h
  have hpair := (within_unrolled hlimit test hbreaks hcontinues fuel fuel a).symm
  rw [h] at hpair
  obtain ⟨c, hc, -⟩ := hpair.of_ended
  have hmore : Refines (Exit.Counts fun _ => True)
      (Loop.within ctx.limits (test.runTest ctx fuel) (runBody ctx fuel body) (fuel + 1))
      (Loop.within ctx.limits (test.runTest ctx (fuel + 1)) (runBody ctx (fuel + 1) body)
        (fuel + 1)) :=
    Loop.refines_within (test.refines_runTest ctx fuel 1) (refines_runBody ctx fuel body 1)
      (Nat.le_refl _)
  refine ⟨c, ?_⟩
  rw [run_whileDo hlimit]
  exact hmore a r c hc fun _ _ _ _ => trivial

end Statements

/-- **A loop is the same unrolled.**  There is no limit on turns, breaks and continues in the body are
for loops inside of it, and the first value of the test, if there is one, is a boolean.  Then the
loop ends if and only if the conditional does whose branch is the body followed by the loop; and
both end in the same way, in the same scope, and in the same machine but for the trace. -/
theorem loop_unrolls {ctx : Context} {test : Expr} {body : List Stmt} {a : Activation}
    (hlimit : ctx.limits.turns = none) (hbreaks : Stmt.anyEmits .breaks body = false)
    (hcontinues : Stmt.anyEmits .continues body = false)
    (htest : ∀ fuel v m, test.run ctx fuel a.scope a.machine = some (.ok v, m) →
      ∃ p, v = .bool p) :
    ((∃ fuel r b, (Stmt.whileDo test body).run ctx fuel a = some (r, b)) ↔
      ∃ fuel r b, (Stmt.cond test (body ++ [.whileDo test body]) []).run ctx fuel a =
        some (r, b)) ∧
    ∀ (fuel fuel' : Nat) (r r' : Except Exit Value) (b b' : Activation),
      (Stmt.whileDo test body).run ctx fuel a = some (r, b) →
      (Stmt.cond test (body ++ [.whileDo test body]) []).run ctx fuel' a = some (r', b') →
        r = r' ∧ b.scope = b'.scope ∧ b.machine.untraced = b'.machine.untraced := by
  refine ⟨⟨?unrolls, ?rolls⟩, ?same⟩
  case unrolls =>
    rintro ⟨fuel, r, b, h⟩
    obtain ⟨c, hc, -⟩ := Stmt.unrolled_of_whileDo hlimit hbreaks hcontinues (htest fuel) h
    exact ⟨fuel, r, c, hc⟩
  case rolls =>
    rintro ⟨fuel, r, b, h⟩
    obtain ⟨c, hc⟩ := Stmt.whileDo_of_unrolled hlimit hbreaks hcontinues (htest fuel) h
    exact ⟨fuel + 1, r, c, hc⟩
  case same =>
    intro fuel fuel' r r' b b' h h'
    have hwhile := Stmt.run_of_le (Nat.le_max_left fuel fuel') h
    have hcond := Stmt.run_of_le (Nat.le_max_right fuel fuel') h'
    obtain ⟨c, hc, hlike⟩ :=
      Stmt.unrolled_of_whileDo hlimit hbreaks hcontinues (htest _) hwhile
    obtain ⟨rfl, rfl⟩ : r = r' ∧ c = b' := by
      cases hc.symm.trans hcond
      exact ⟨rfl, rfl⟩
    have hloops : b.machine.activeLoops = c.machine.activeLoops := by
      have hleft := congrArg Prod.snd (progress_of_stmt h)
      have hright := congrArg Prod.snd (progress_of_stmt h')
      exact hleft.trans hright.symm
    exact ⟨rfl, hlike.scope, hlike.machine.untraced_eq hloops⟩

/-- A function that returns the next number from inside a loop of its own. -/
def nextFromLoop : Function where
  name := "next"
  params := [⟨"n", none⟩]
  body := [.whileDo (.bool true) [.ret (some (.arith .add (.ident "n") (.int 1)))]]

/-- Whether the count is below two. -/
def countBelow : Expr := .compare .lt (.ident "k") (.int 2)

/-- The count is raised by a call. -/
def raiseCount : List Stmt := [.assign "k" (.call "next" [.ident "k"])]

/-- The count before the loop. -/
def countingScope : Scope := Scope.root.define "k" { value := .int 0 }

/-- The first call finds the loop in progress, unless it is unrolled, and the trace says so; nothing
else does. -/
theorem loop_unrolls_raiseCount :
    ∃ r b r' b',
      (Stmt.whileDo countBelow raiseCount).run
        ⟨{}, (∅ : Std.ExtTreeMap String Function).insert "next" nextFromLoop⟩ 3
        ⟨countingScope, {}⟩ = some (r, b) ∧
      (Stmt.cond countBelow (raiseCount ++ [.whileDo countBelow raiseCount]) []).run
        ⟨{}, (∅ : Std.ExtTreeMap String Function).insert "next" nextFromLoop⟩ 3
        ⟨countingScope, {}⟩ = some (r', b') ∧
      r = r' ∧ b.scope = b'.scope ∧ b.machine.untraced = b'.machine.untraced ∧
      b.machine.trace ≠ b'.machine.trace := by
  generalize hctx :
    (⟨{}, (∅ : Std.ExtTreeMap String Function).insert "next" nextFromLoop⟩ : Context) = ctx
  have hwhile : ((Stmt.whileDo countBelow raiseCount).run ctx 3 ⟨countingScope, {}⟩).map
      (·.2.machine.trace) = some #[.loopReleased .integer 1, .returnCaught "next" .integer,
        .loopReleased .integer 1, .returnCaught "next" .integer] := by
    subst hctx
    decide +kernel
  have hcond : ((Stmt.cond countBelow (raiseCount ++ [.whileDo countBelow raiseCount]) []).run ctx 3
      ⟨countingScope, {}⟩).map (·.2.machine.trace) = some #[.loopReleased .integer 0,
        .returnCaught "next" .integer, .loopReleased .integer 1,
        .returnCaught "next" .integer] := by
    subst hctx
    decide +kernel
  obtain ⟨⟨r, b⟩, hb, htrace⟩ := Option.map_eq_some_iff.mp hwhile
  obtain ⟨⟨r', b'⟩, hb', htrace'⟩ := Option.map_eq_some_iff.mp hcond
  have hlimit : ctx.limits.turns = none := by
    subst hctx
    rfl
  have hboolean : ∀ fuel v m, countBelow.run ctx fuel countingScope {} = some (.ok v, m) →
      ∃ p, v = .bool p := by
    intro fuel v m h
    cases h
    exact ⟨_, rfl⟩
  obtain ⟨hr, hscope, hmachine⟩ :=
    (loop_unrolls hlimit rfl rfl hboolean).2 3 3 r r' b b' hb hb'
  refine ⟨r, b, r', b', hb, hb', hr, hscope, hmachine, ?_⟩
  rw [htrace, htrace']
  decide

end Imperative
