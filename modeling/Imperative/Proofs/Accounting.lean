import Imperative.Proofs.Discipline.Execution
import Imperative.Proofs.Sessions

/-!
# Calls are accounted for

The tally counts a body when it is entered, and counts it again when it has ended with a return
or has run to its end.  This file compares the two counts over a run.

A body that is entered and whose end is never counted is *lost*.  So bodies entered are bodies
ended and bodies lost together (`Tally.Settles`), and three things can be said of the lost ones.
There are none below zero, so the ends counted never exceed the bodies entered.  A run without a
failure loses none.  And a run that fails loses those bodies that are in progress where the fault
is raised, which are no more than may be in progress at once.  The last two need that no handler
occurs.  With a handler a run can go on after it has lost some bodies, and lose others.

Besides, every return that is counted is also recorded, in the same moment, so the count of a kind
of return goes up by the number of events that record one.

All of this is one discipline, `accounting`, for code with handlers and for code without.  Its
laws with content are those at the boundary of a call.
-/

namespace Imperative

/-! ## Tallies -/

namespace Tally

/-- The bodies whose end has been counted. -/
def ended (t : Tally) : Nat := t.fallThroughs + t.explicitReturns

@[simp] theorem ended_addFallThrough (t : Tally) : t.addFallThrough.ended = t.ended + 1 := by
  show t.fallThroughs + 1 + t.explicitReturns = t.fallThroughs + t.explicitReturns + 1
  omega

@[simp] theorem ended_addReturn (t : Tally) (k : Kind) : (t.addReturn k).ended = t.ended + 1 := by
  rw [ended, ended, fallThroughs_addReturn, explicitReturns_addReturn, Nat.add_assoc]

/-- Between two tallies, this many bodies have been entered and counted at their end, and this
many have been entered and lost. -/
structure Settles (t t' : Tally) (ended lost : Nat) : Prop where
  calls : t'.calls = t.calls + ended + lost
  ended : t'.ended = t.ended + ended

theorem Settles.refl (t : Tally) : t.Settles t 0 0 := ⟨rfl, rfl⟩

theorem Settles.trans {t₁ t₂ t₃ : Tally} {e₁ e₂ l₁ l₂ : Nat} (h₁ : t₁.Settles t₂ e₁ l₁)
    (h₂ : t₂.Settles t₃ e₂ l₂) : t₁.Settles t₃ (e₁ + e₂) (l₁ + l₂) where
  calls := by
    have hfirst := h₁.calls
    have hsecond := h₂.calls
    omega
  ended := by rw [h₂.ended, h₁.ended, Nat.add_assoc]

/-- A body is entered, and its end is counted. -/
theorem Settles.complete {t t' t'' : Tally} {e l : Nat} (h : t.addCall.Settles t' e l)
    (hcalls : t''.calls = t'.calls) (hended : t''.ended = t'.ended + 1) :
    t.Settles t'' (e + 1) l where
  calls := by
    have hinside : t'.calls = t.calls + 1 + e + l := h.calls
    omega
  ended := by
    have hinside : t'.ended = t.ended + e := h.ended
    omega

/-- A body is entered, and lost. -/
theorem Settles.abandon {t t' : Tally} {e l : Nat} (h : t.addCall.Settles t' e l) :
    t.Settles t' e (l + 1) where
  calls := by
    have hinside : t'.calls = t.calls + 1 + e + l := h.calls
    omega
  ended := h.ended

/-- Ends never come to exceed entries. -/
theorem Settles.ended_le {t t' : Tally} {e l : Nat} (h : t.Settles t' e l)
    (ht : t.ended ≤ t.calls) : t'.ended ≤ t'.calls := by
  have hcalls := h.calls
  have hended := h.ended
  omega

end Tally

/-! ## Steps -/

/-- Whether an event records that a return of a kind was caught. -/
def Event.catches (k : Kind) : Event → Bool
  | .returnCaught _ j => j == k
  | _ => false

/-- How many bodies an action may lose, given the exit it ends with: none unless it fails, and
then as many as may be in progress besides those that are. -/
def Machine.losable (m : Machine) (limit : Nat) : Option Exit → Nat
  | some (.failed _) => limit - m.callDepth
  | _ => 0

/-- What an action does to the tally and to the trace.  If no failure has been handled on the way,
then there is a bound on the bodies that are lost. -/
structure Machine.Accounts (limit : Nat) (handled : Prop) (m : Machine) (o : Option Exit)
    (m' : Machine) (events : List Event) (ended lost : Nat) : Prop where
  depth : m'.callDepth = m.callDepth
  trace : m'.trace.toList = m.trace.toList ++ events
  returns : ∀ k, m'.tally.returns k = m.tally.returns k + events.countP (Event.catches k)
  settles : m.tally.Settles m'.tally ended lost
  bounded : ¬handled → lost ≤ m.losable limit o

/-- What a machine keeps account of. -/
def Machine.account (m : Machine) : Nat × Tally × Array Event := (m.callDepth, m.tally, m.trace)

namespace Machine

@[simp] theorem account_internText (m : Machine) (s : String) :
    (m.internText s).2.account = m.account := by
  unfold internText
  split <;> rfl

@[simp] theorem account_internFunction (m : Machine) (name : String) :
    (m.internFunction name).2.account = m.account := by
  unfold internFunction
  split <;> rfl

variable {limit : Nat} {handled : Prop} {m m₁ m' : Machine} {o : Option Exit}
  {events events₁ : List Event} {ended ended₁ lost lost₁ : Nat}

/-- An action that leaves all of this as it was. -/
theorem Accounts.quiet (h : m'.account = m.account) : Accounts limit handled m o m' [] 0 0 := by
  have hdepth : m'.callDepth = m.callDepth := congrArg Prod.fst h
  have htally : m'.tally = m.tally := congrArg (·.2.1) h
  have htrace : m'.trace = m.trace := congrArg (·.2.2) h
  refine ⟨hdepth, ?_, fun k => ?_, ?_, fun _ => Nat.zero_le _⟩
  · rw [htrace, List.append_nil]
  · rw [htally, List.countP_nil, Nat.add_zero]
  · rw [htally]
    exact .refl m.tally

theorem Accounts.trans (h₁ : Accounts limit handled m none m₁ events₁ ended₁ lost₁)
    (h : Accounts limit handled m₁ o m' events ended lost) :
    Accounts limit handled m o m' (events₁ ++ events) (ended₁ + ended) (lost₁ + lost) where
  depth := h.depth.trans h₁.depth
  trace := by rw [h.trace, h₁.trace, List.append_assoc]
  returns k := by rw [h.returns, h₁.returns, List.countP_append, Nat.add_assoc]
  settles := h₁.settles.trans h.settles
  bounded hnone := by
    have hfirst : lost₁ ≤ 0 := h₁.bounded hnone
    have hsecond : lost ≤ m₁.losable limit o := h.bounded hnone
    have hsame : m₁.losable limit o = m.losable limit o := by
      unfold losable
      rw [h₁.depth]
    omega

/-- An event that records no caught return changes nothing in the account. -/
theorem Accounts.emit {o' : Option Exit} {e : Event}
    (h : Accounts limit handled m o m' events ended lost) (he : ∀ k, e.catches k = false)
    (hbound : ¬handled → m.losable limit o ≤ m.losable limit o') :
    Accounts limit handled m o' (m'.emit e) (events ++ [e]) ended lost where
  depth := h.depth
  trace := by rw [Machine.emit, Array.toList_push, h.trace, List.append_assoc]
  returns k := by
    rw [List.countP_append, List.countP_singleton, he k]
    exact h.returns k
  settles := h.settles
  bounded hnone := Nat.le_trans (h.bounded hnone) (hbound hnone)

/-- A loop is left.  A return on its way out leaves its mark, which is no catch. -/
theorem Accounts.leaveLoop {r : Except Exit Value}
    (h : Accounts limit handled m.enterLoop (Exit.of? r) m' events ended lost) :
    ∃ events', Accounts limit handled m (Exit.of? r) (m'.leaveLoop r) events' ended lost := by
  have hm : Accounts limit handled m (Exit.of? r) m' events ended lost := { h with }
  match r with
  | .ok v => exact ⟨events, { hm with }⟩
  | .error .broke => exact ⟨events, { hm with }⟩
  | .error .continued => exact ⟨events, { hm with }⟩
  | .error (.failed f) => exact ⟨events, { hm with }⟩
  | .error (.returned s) =>
    have hmark := hm.emit (e := .loopReleased s.kind (m'.activeLoops - 1)) (fun _ => rfl)
      fun _ => Nat.le_refl _
    exact ⟨_, { hmark with }⟩

/-- A body is entered and its end is counted. -/
theorem Accounts.complete {name : String} {c : Completion}
    (h : Accounts limit handled m.enterCall c.exit m' events ended lost) :
    ∃ events', Accounts limit handled m none (m'.leaveCall.record name c) events' (ended + 1)
      lost := by
  have hdepth : m'.callDepth - 1 = m.callDepth := by
    have hinside : m'.callDepth = m.callDepth + 1 := h.depth
    omega
  have hlost : ¬handled → lost ≤ 0 := by
    intro hnone
    have hbound := h.bounded hnone
    cases c <;> exact hbound
  cases c with
  | fellThrough v =>
    exact ⟨events, hdepth, h.trace, h.returns,
      h.settles.complete rfl (Tally.ended_addFallThrough _), hlost⟩
  | returned s =>
    refine ⟨events ++ [.returnCaught name s.kind], hdepth, ?_, fun k => ?_, ?_, hlost⟩
    · rw [record, Array.toList_push, leaveCall, h.trace, List.append_assoc]
      rfl
    · have hinside : m'.tally.returns k = m.tally.returns k + events.countP (Event.catches k) :=
        h.returns k
      rw [record, Tally.returns_addReturn, leaveCall, hinside, List.countP_append,
        List.countP_singleton, Nat.add_assoc]
      simp [Event.catches]
    · exact h.settles.complete (Tally.calls_addReturn _ _) (Tally.ended_addReturn _ _)

/-- A body is entered and lost. -/
theorem Accounts.abandon {e : Exit} {f : Fault} (hdepth : m.callDepth < limit)
    (h : Accounts limit handled m.enterCall (some e) m' events ended lost) :
    Accounts limit handled m (some (.failed f)) m'.leaveCall events ended (lost + 1) where
  depth := by
    have hinside : m'.callDepth = m.callDepth + 1 := h.depth
    show m'.callDepth - 1 = m.callDepth
    omega
  trace := h.trace
  returns := h.returns
  settles := h.settles.abandon
  bounded hnone := by
    have hbound : lost ≤ limit - (m.callDepth + 1) := by
      have hinside := h.bounded hnone
      cases e with
      | failed g => exact hinside
      | _ => exact Nat.le_trans hinside (Nat.zero_le _)
    show lost + 1 ≤ limit - m.callDepth
    omega

end Machine

/-! ## The discipline -/

/-- The discipline of accounting for calls, in code with handlers or in code without. -/
def accounting (limit : Nat) (handled : Prop) : Discipline where
  Sound _ := True
  Keeps _ _ := True
  Holds _ _ := True
  Step m o m' := ∃ events ended lost, m.Accounts limit handled o m' events ended lost
  Allows c := c = .guarded → handled
  Callable f := Stmt.anyHas .guarded f.body = true → handled

section Lawful

variable {limit : Nat} {handled : Prop} {m m' : Machine} {o : Option Exit}

theorem accounting_quiet (h : m'.account = m.account) : (accounting limit handled).Step m o m' :=
  ⟨[], 0, 0, .quiet h⟩

end Lawful

theorem accounting_lawful {ctx : Context} {handled : Prop} (h : handled ∨ ctx.Lacks .guarded) :
    (accounting ctx.limits.callDepth handled).Lawful ctx where
  refl _ := accounting_quiet rfl
  trans := by
    rintro m m₁ m₂ o ⟨_, _, _, h₁⟩ ⟨_, _, _, h₂⟩
    exact ⟨_, _, _, h₁.trans h₂⟩
  keeps_mono _ _ := trivial
  holds_mono _ _ := trivial
  holds_plain _ := trivial
  holds_lookup _ _ := trivial
  holds_item _ _ _ := trivial
  keeps_root _ := trivial
  keeps_child _ := trivial
  keeps_define _ _ _ := trivial
  internText {m} text _ := ⟨⟨trivial, accounting_quiet (m.account_internText text)⟩, trivial⟩
  internFunction {m} name _ :=
    ⟨⟨trivial, accounting_quiet (m.account_internFunction name)⟩, trivial⟩
  alloc _ _ _ _ _ := ⟨⟨trivial, accounting_quiet rfl⟩, trivial⟩
  append _ _ _ _ _ := ⟨trivial, accounting_quiet rfl⟩
  raise _ _ := accounting_quiet rfl
  dangling _ _ _ := accounting_quiet rfl
  caught hallow _ hl := by
    obtain ⟨_, _, _, hm⟩ := hl.2
    exact ⟨trivial, _, _, _, hm.emit (fun _ => rfl) fun hnone => absurd (hallow rfl) hnone⟩
  turn := by
    rintro m m' e (rfl | rfl) ⟨_, _, _, hm⟩
    · exact ⟨_, _, _, { hm with }⟩
    · exact ⟨_, _, _, { hm with }⟩
  enterLoop _ := trivial
  leaveLoop _ hl := by
    obtain ⟨_, _, _, hm⟩ := hl.2
    obtain ⟨_, hleft⟩ := hm.leaveLoop
    exact ⟨trivial, _, _, _, hleft⟩
  enterCall _ _ := trivial
  complete _ _ _ hl := by
    obtain ⟨_, _, _, hm⟩ := hl.2
    obtain ⟨_, hcomplete⟩ := hm.complete
    exact ⟨trivial, _, _, _, hcomplete⟩
  abandon _ _ hdepth _ _ hl := by
    obtain ⟨_, _, _, hm⟩ := hl.2
    exact ⟨trivial, _, _, _, hm.abandon hdepth⟩
  callable hf hguarded := by
    rcases h with hhandled | hlacks
    · exact hhandled
    · rw [hlacks _ _ hf] at hguarded
      cases hguarded
  allows_body hf hc := by
    rintro rfl
    exact hf hc

/-! ## Runs -/

/-- Between two tallies the bodies lost are no more than a bound, and none are unless something
has failed. -/
def Tally.SettlesWithin (t t' : Tally) (failed : Prop) (most : Nat) : Prop :=
  ∃ ended lost, t.Settles t' ended lost ∧ lost ≤ most ∧ (¬failed → lost = 0)

theorem Machine.Accounts.settlesWithin {limit : Nat} {m m' : Machine} {o : Option Exit}
    {events : List Event} {ended lost : Nat} {failed : Prop}
    (h : m.Accounts limit False o m' events ended lost)
    (hfailed : ∀ f, o = some (.failed f) → failed) :
    m.tally.SettlesWithin m'.tally failed (limit - m.callDepth) := by
  have hbound : lost ≤ m.losable limit o := h.bounded not_false
  unfold losable at hbound
  split at hbound
  · next f => exact ⟨ended, lost, h.settles, hbound, fun hnot => absurd (hfailed f rfl) hnot⟩
  · have hnone : lost = 0 := Nat.le_zero.mp hbound
    exact ⟨ended, lost, h.settles, by omega, fun _ => hnone⟩

/-- Code without handlers has only constructs that are allowed. -/
theorem accounting_allows {limit : Nat} {p : Construct → Bool} (h : p .guarded = false)
    (c : Construct) (hc : p c = true) : (accounting limit False).Allows c := by
  rintro rfl
  rw [h] at hc
  cases hc

section Runs

variable {ctx : Context} {fuel : Nat}

theorem settles_of_exec {α : Type} {a b : Activation} {x : Exec α} {post : α → Activation → Prop}
    {r : Except Exit α} (hx : (accounting ctx.limits.callDepth False).Runs a x post)
    (h : x a = some (r, b)) :
    a.machine.tally.SettlesWithin b.machine.tally (∃ f, r = .error (.failed f))
      (ctx.limits.callDepth - a.machine.callDepth) := by
  obtain ⟨-, _, _, _, hm⟩ := hx.ends h
  refine hm.settlesWithin fun f hf => ⟨f, ?_⟩
  cases r <;> cases hf
  rfl

theorem settles_of_eval {α : Type} {m m' : Machine} {x : Eval α} {post : α → Machine → Prop}
    {r : Except Fault α} (hx : (accounting ctx.limits.callDepth False).From m x post)
    (h : x m = some (r, m')) :
    m.tally.SettlesWithin m'.tally (∃ f, r = .error f) (ctx.limits.callDepth - m.callDepth) := by
  obtain ⟨-, _, _, _, hm⟩ := hx.ends h
  refine hm.settlesWithin fun f hf => ⟨f, ?_⟩
  cases r <;> cases hf
  rfl

theorem settles_of_stmt {s : Stmt} {a b : Activation} {r : Except Exit Value}
    (hctx : ctx.Lacks .guarded) (hs : s.has .guarded = false)
    (h : s.run ctx fuel a = some (r, b)) :
    a.machine.tally.SettlesWithin b.machine.tally (∃ f, r = .error (.failed f))
      (ctx.limits.callDepth - a.machine.callDepth) :=
  settles_of_exec ((accounting_lawful (.inr hctx)).runs_run fuel
    (accounting_allows (p := fun c => s.has c) hs) ⟨trivial, trivial⟩) h

theorem settles_of_body {body : List Stmt} {a b : Activation} {r : Except Exit Value}
    (hctx : ctx.Lacks .guarded) (hbody : Stmt.anyHas .guarded body = false)
    (h : Stmt.execAll ctx (ctx.calls fuel) fuel .unit body a = some (r, b)) :
    a.machine.tally.SettlesWithin b.machine.tally (∃ f, r = .error (.failed f))
      (ctx.limits.callDepth - a.machine.callDepth) :=
  settles_of_exec ((accounting_lawful (.inr hctx)).runs_body fuel
    (accounting_allows (p := fun c => Stmt.anyHas c body) hbody) ⟨trivial, trivial⟩) h

/-- An expression has no handler of its own. -/
theorem settles_of_expr {e : Expr} {scope : Scope} {m m' : Machine} {r : Except Fault Value}
    (hctx : ctx.Lacks .guarded) (h : e.run ctx fuel scope m = some (r, m')) :
    m.tally.SettlesWithin m'.tally (∃ f, r = .error f) (ctx.limits.callDepth - m.callDepth) :=
  settles_of_eval ((accounting_lawful (.inr hctx)).from_run fuel
    (accounting_allows (p := fun c => e.has c) e.has_guarded) trivial trivial) h

theorem settles_of_call {caller : Scope} {f : Function} {args : List Value} {m m' : Machine}
    {r : Except Fault Completion} (hctx : ctx.Lacks .guarded)
    (hf : Stmt.anyHas .guarded f.body = false)
    (h : ctx.calls fuel caller f args m = some (r, m')) :
    m.tally.SettlesWithin m'.tally (∃ f, r = .error f) (ctx.limits.callDepth - m.callDepth) := by
  refine settles_of_eval ((accounting_lawful (.inr hctx)).covers_calls fuel f caller args m
    ?_ trivial trivial fun _ _ => trivial) h
  intro hguarded
  rw [hf] at hguarded
  cases hguarded

end Runs

/-! ## What a host does -/

/-- What a run of a program does, in code with handlers or in code without. -/
theorem accounts_of_runIn {handled : Prop} {i : Interpreter} {scope : Scope} {p : Program}
    {fuel : Nat} {ran : Interpreter.Ran}
    (hctx : handled ∨ (i.declareAll p.functions).context.Lacks .guarded)
    (hp : Stmt.anyHas .guarded p.statements = true → handled)
    (h : i.runIn fuel scope p = some ran) :
    ∃ o events ended lost, i.machine.Accounts i.limits.callDepth handled o
        ran.interpreter.machine events ended lost ∧
      ∀ f, o = some (.failed f) → ran.result = .error f := by
  have hlimits : (i.declareAll p.functions).context.limits = i.limits := i.limits_declareAll _
  have hlawful := accounting_lawful hctx
  rw [hlimits] at hlawful
  have hallows : ∀ c, Stmt.anyHas c p.statements = true →
      (accounting i.limits.callDepth handled).Allows c := by
    rintro c hc rfl
    exact hp hc
  obtain ⟨b, -, -, ⟨v, -, hm, ⟨_, _, _, hstep⟩, -⟩ | ⟨e, hr, hm, _, _, _, hstep⟩⟩ :=
    hlawful.runIn hallows trivial trivial h
  · rw [hm]
    refine ⟨none, _, _, _, hstep, fun f hf => ?_⟩
    cases hf
  · rw [hm, hr]
    cases e with
    | returned s =>
      have hescape := hstep.emit (e := .returnEscaped s.kind) (fun _ => rfl) fun _ => Nat.le_refl _
      refine ⟨_, _, _, _, hescape, fun f hf => ?_⟩
      cases hf
    | failed f =>
      refine ⟨_, _, _, _, hstep, fun g hg => ?_⟩
      cases hg
      rfl
    | _ =>
      refine ⟨_, _, _, _, hstep, fun f hf => ?_⟩
      cases hf

theorem settles_of_runIn {i : Interpreter} {scope : Scope} {p : Program} {fuel : Nat}
    {ran : Interpreter.Ran} (hi : i.context.Lacks .guarded) (hp : p.Lacks .guarded)
    (h : i.runIn fuel scope p = some ran) :
    i.machine.tally.SettlesWithin ran.interpreter.machine.tally (∃ f, ran.result = .error f)
      (i.limits.callDepth - i.machine.callDepth) := by
  have hstatements : Stmt.anyHas .guarded p.statements = true → False := by
    rw [hp.statements]
    exact Bool.false_ne_true
  obtain ⟨o, _, _, _, hm, hfailed⟩ := accounts_of_runIn
    (.inr (Interpreter.lacks_declareAll hi hp.functions)) hstatements h
  exact hm.settlesWithin fun f hf => ⟨f, hfailed f hf⟩

theorem settles_of_complete {i i' : Interpreter} {name : String} {args : List Value} {fuel : Nat}
    {r : Except Fault Completion} (hi : i.context.Lacks .guarded)
    (h : i.complete fuel name args = some (r, i')) :
    i.machine.tally.SettlesWithin i'.machine.tally (∃ f, r = .error f)
      (i.limits.callDepth - i.machine.callDepth) := by
  obtain ⟨-, _, _, _, hm⟩ :=
    (accounting_lawful (.inr hi)).complete_ends trivial (fun _ _ => trivial) h
  refine hm.settlesWithin fun f hf => ⟨f, ?_⟩
  cases r <;> cases hf
  rfl

/-- What a command of a session does, whatever its code. -/
theorem accounts_of_performed {fuel : Nat} {s s' : Session} {command : Command} {reply : Reply}
    (h : Session.Performed fuel s command reply s') :
    ∃ limit o events ended lost, s.interpreter.machine.Accounts limit True o
      s'.interpreter.machine events ended lost := by
  have hquiet : ∀ m' : Machine, m'.account = s.interpreter.machine.account →
      ∃ limit o events ended lost,
        s.interpreter.machine.Accounts limit True o m' events ended lost :=
    fun m' hm => ⟨0, none, [], 0, 0, .quiet hm⟩
  have hcomplete : ∀ {name args r i}, s.interpreter.complete fuel name args = some (r, i) →
      ∃ limit o events ended lost,
        s.interpreter.machine.Accounts limit True o i.machine events ended lost := by
    intro name args r i hrun
    obtain ⟨-, _, _, _, hm⟩ :=
      (accounting_lawful (.inl trivial)).complete_ends trivial (fun _ _ => trivial) hrun
    exact ⟨_, _, _, _, _, hm⟩
  cases h with
  | declare f => exact hquiet _ rfl
  | run hran =>
    obtain ⟨o, _, _, _, hm, -⟩ := accounts_of_runIn (.inl trivial) (fun _ => trivial) hran
    exact ⟨_, o, _, _, _, hm⟩
  | runAlone hran =>
    obtain ⟨o, _, _, _, hm, -⟩ := accounts_of_runIn (.inl trivial) (fun _ => trivial) hran
    exact ⟨_, o, _, _, _, hm⟩
  | call hrun => exact hcomplete hrun
  | complete hrun => exact hcomplete hrun
  | store o => exact hquiet _ rfl
  | replace o _ => exact hquiet _ rfl
  | refused o _ => exact hquiet _ rfl
  | fetch r => exact hquiet _ rfl
  | check v t => exact hquiet _ rfl
  | ask _ _ => exact hquiet _ rfl
  | copy source target => exact hquiet _ rfl

/-- At every point of a session, the ends counted do not exceed the bodies entered. -/
theorem ended_le_of_reachable {allowed : Session → Command → Prop} {limits : Limits}
    {s : Session} (h : s.Reachable allowed limits) :
    s.interpreter.machine.tally.ended ≤ s.interpreter.machine.tally.calls := by
  refine Session.Reachable.induct
    (P := fun s => s.interpreter.machine.tally.ended ≤ s.interpreter.machine.tally.calls)
    (Nat.le_refl 0) ?_ h
  intro s s' fuel command reply hs _ hperformed
  obtain ⟨_, _, _, _, _, hm⟩ := accounts_of_performed hperformed
  exact hm.settles.ended_le hs

/-- What is recorded after a point of a session are the events that come after it. -/
theorem Session.eventsFrom_of_append {s s' : Session} {events : List Event}
    (h : s'.interpreter.machine.trace.toList = s.interpreter.machine.trace.toList ++ events) :
    s'.eventsFrom s.interpreter.machine.trace.size = events := by
  have hsize : s'.interpreter.machine.trace.size =
      s.interpreter.machine.trace.size + events.length := by
    have hlength := congrArg List.length h
    rwa [List.length_append] at hlength
  rw [eventsFrom, Array.toList_extract, h, hsize]
  simp [List.extract, ← Array.length_toList]

/-! ## Accounting -/

/-- **Calls are accounted for.**  In every session, whatever its commands, the ends counted never
exceed the bodies entered, and a command raises the count of each kind of return by the number of
returns of that kind that it records as caught.  Where neither the code nor the declared functions
have a handler, whatever is evaluated: if it does not fail, then as many bodies have been entered
as have been counted at their end; and if it fails, then the difference is at most the number of
bodies that could have been entered one inside the other. -/
theorem calls_accounted (fuel : Nat) :
    (∀ (limits : Limits) (s : Session), s.Reachable (fun _ _ => True) limits →
      s.interpreter.machine.tally.fallThroughs + s.interpreter.machine.tally.explicitReturns ≤
        s.interpreter.machine.tally.calls) ∧
    (∀ (s s' : Session) (command : Command) (reply : Reply),
      s.perform fuel command = some (reply, s') → ∀ k,
        s'.interpreter.machine.tally.returns k = s.interpreter.machine.tally.returns k +
          (s'.eventsFrom s.interpreter.machine.trace.size).countP (Event.catches k)) ∧
    (∀ (ctx : Context) (s : Stmt) (a b : Activation) (r : Except Exit Value),
      ctx.Lacks .guarded → s.has .guarded = false → s.run ctx fuel a = some (r, b) →
        a.machine.tally.SettlesWithin b.machine.tally (∃ f, r = .error (.failed f))
          (ctx.limits.callDepth - a.machine.callDepth)) ∧
    (∀ (ctx : Context) (body : List Stmt) (a b : Activation) (r : Except Exit Value),
      ctx.Lacks .guarded → Stmt.anyHas .guarded body = false →
        Stmt.execAll ctx (ctx.calls fuel) fuel .unit body a = some (r, b) →
          a.machine.tally.SettlesWithin b.machine.tally (∃ f, r = .error (.failed f))
            (ctx.limits.callDepth - a.machine.callDepth)) ∧
    (∀ (ctx : Context) (e : Expr) (scope : Scope) (m m' : Machine) (r : Except Fault Value),
      ctx.Lacks .guarded → e.run ctx fuel scope m = some (r, m') →
        m.tally.SettlesWithin m'.tally (∃ f, r = .error f)
          (ctx.limits.callDepth - m.callDepth)) ∧
    (∀ (ctx : Context) (caller : Scope) (f : Function) (args : List Value) (m m' : Machine)
        (r : Except Fault Completion),
      ctx.Lacks .guarded → Stmt.anyHas .guarded f.body = false →
        ctx.calls fuel caller f args m = some (r, m') →
          m.tally.SettlesWithin m'.tally (∃ f, r = .error f)
            (ctx.limits.callDepth - m.callDepth)) ∧
    (∀ (i : Interpreter) (scope : Scope) (p : Program) (ran : Interpreter.Ran),
      i.context.Lacks .guarded → p.Lacks .guarded → i.runIn fuel scope p = some ran →
        i.machine.tally.SettlesWithin ran.interpreter.machine.tally (∃ f, ran.result = .error f)
          (i.limits.callDepth - i.machine.callDepth)) ∧
    (∀ (i i' : Interpreter) (name : String) (args : List Value) (r : Except Fault Completion),
      i.context.Lacks .guarded → i.complete fuel name args = some (r, i') →
        i.machine.tally.SettlesWithin i'.machine.tally (∃ f, r = .error f)
          (i.limits.callDepth - i.machine.callDepth)) := by
  refine ⟨?session, ?command, ?stmt, ?body, ?expr, ?call, ?program, ?host⟩
  case session =>
    intro limits s h
    exact ended_le_of_reachable h
  case command =>
    intro s s' command reply h k
    obtain ⟨_, _, events, _, _, hm⟩ := accounts_of_performed (Session.performed_of_perform h)
    rw [Session.eventsFrom_of_append hm.trace]
    exact hm.returns k
  case stmt =>
    intro ctx s a b r hctx hs h
    exact settles_of_stmt hctx hs h
  case body =>
    intro ctx body a b r hctx hbody h
    exact settles_of_body hctx hbody h
  case expr =>
    intro ctx e scope m m' r hctx h
    exact settles_of_expr hctx h
  case call =>
    intro ctx caller f args m m' r hctx hf h
    exact settles_of_call hctx hf h
  case program =>
    intro i scope p ran hi hp h
    exact settles_of_runIn hi hp h
  case host =>
    intro i i' name args r hi h
    exact settles_of_complete hi h

/-- A function that returns at once. -/
def returnsAtOnce : Function where
  name := "leaf"
  params := []
  body := [.ret (some (.int 1))]

/-- A function that calls the other one, and then itself without end. -/
def callsLeafAndItself : Function where
  name := "deepen"
  params := []
  body := [.declare "x" none (.call "leaf" []), .expr (.call "deepen" [])]

/-- A program that calls it from inside a loop. -/
def deepens : Program where
  items := [
    .function returnsAtOnce,
    .function callsLeafAndItself,
    .statement (.forRange "i" (.int 0) (.int 2) [.expr (.call "deepen" [])])]

/-- Where three bodies may be in progress, five are entered: two are counted at their end, and the
three that are in progress when the run fails are lost. -/
theorem calls_accounted_deepens :
    ∃ ran, Interpreter.runIn 5 { limits := { callDepth := 3 } } .root deepens = some ran ∧
      Tally.SettlesWithin {} ran.interpreter.machine.tally (∃ f, ran.result = .error f) 3 ∧
      ran.interpreter.machine.tally.calls = 5 ∧ ran.interpreter.machine.tally.ended = 2 := by
  have htally : (Interpreter.runIn 5 { limits := { callDepth := 3 } } .root deepens).map
      (fun ran => (ran.interpreter.machine.tally.calls, ran.interpreter.machine.tally.ended)) =
        some (5, 2) := by
    decide +kernel
  obtain ⟨ran, hrun, hcounts⟩ := Option.map_eq_some_iff.mp htally
  have hprogram : deepens.Lacks .guarded := by
    refine ⟨fun f hf => ?_, rfl⟩
    have hmem : f = returnsAtOnce ∨ f = callsLeafAndItself := by
      simpa [deepens, Program.functions] using hf
    rcases hmem with rfl | rfl <;> rfl
  have hnone : Context.Lacks { limits := { callDepth := 3 } } .guarded := by
    intro name f hf
    rw [Std.ExtTreeMap.getElem?_empty] at hf
    cases hf
  refine ⟨ran, hrun, ?_, congrArg Prod.fst hcounts, congrArg Prod.snd hcounts⟩
  exact (calls_accounted 5).2.2.2.2.2.2.1 { limits := { callDepth := 3 } } .root deepens ran
    hnone hprogram hrun

end Imperative
