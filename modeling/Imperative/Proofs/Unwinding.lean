import Imperative.Proofs.Moments.Catching
import Imperative.Proofs.Moments.Points
import Imperative.Proofs.Progress
import Mathlib.Data.List.Chain

/-!
# How a return unwinds

A return on its way out leaves a mark on the trace at every loop that it leaves, and one at the
end of its way, where a call catches it or the top level complains.  Nothing else happens on the
way: no handler sees a return, and nothing is evaluated between the return statement and the
catcher.  So the marks of one return stand together in the trace, in the order of the loops from
the inside outwards, and the number that each of them carries is one less than the number before.
What has been evaluated *for* the return, and may itself have called functions whose returns leave
their own marks, stands in front of the first mark.

`Event.Follows` says what may come next after the mark of a loop, and `Unwinds` is the law for the
events of an action: each mark is followed as it should be, only the last event can be a mark that
is still to be followed, and then the action has ended in that return and has left all the loops
that it entered.  It is a law of one action after another (`Unwinds.append`), and so it makes a
discipline, `unwinding`.  For whole runs, which no return gets out of, it says that every mark is
followed (`returns_unwind`).

The law also holds of the body of each call that the run reaches, and that is how the last mark
before a catch is tied to the call that caught the return (`Moment.Catches.released`): the body has
left the loops that it entered, so what is still in progress is what was when the call was entered.
If the body has recorded nothing, then there is no mark, since none is open where a moment starts
(`Moment.Reaches.settled`).
-/

namespace Imperative

/-- The kind of return that an exit is, if it is one. -/
def Exit.kind? : Exit → Option Kind
  | .returned s => some s.kind
  | _ => none

theorem Exit.kind?_eq_none {e : Exit} (h : ∀ s, e ≠ .returned s) : e.kind? = none := by
  cases e with
  | returned s => exact absurd rfl (h s)
  | broke => rfl
  | continued => rfl
  | failed f => rfl

/-! ## What may follow what -/

/-- The events that may come next after a return of this kind has left a loop, with `depth` loops
still in progress: it leaves the next loop, or a call catches it, or it gets out at the top level,
where no loop is in progress. -/
def Event.Follows (k : Kind) (depth : Nat) : Event → Prop
  | .loopReleased k' depth' => k' = k ∧ depth = depth' + 1
  | .returnCaught _ k' => k' = k
  | .returnEscaped k' => k' = k ∧ depth = 0
  | .faultCaught _ => False

/-- The second event may come next after the first one. -/
def Event.LeadsTo (e e' : Event) : Prop := ∀ k depth, e = .loopReleased k depth → e'.Follows k depth

/-- The events of an action that starts with `depth` loops in progress, and that ends in a return of
kind `o`, or in no return. -/
structure Unwinds (depth : Nat) (o : Option Kind) (events : List Event) : Prop where
  chain : events.IsChain Event.LeadsTo
  last : ∀ k n, events.getLast? = some (.loopReleased k n) → o = some k ∧ n = depth
  quiet : ∀ k, .returnEscaped k ∉ events

namespace Unwinds

variable {xs ys : List Event} {depth : Nat} {o : Option Kind}

theorem nil : Unwinds depth o [] where
  chain := .nil
  last k n h := by cases h
  quiet k h := by cases h

/-- Without a return on its way, no mark is left to be followed. -/
theorem not_last (h : Unwinds depth none xs) (k : Kind) (n : Nat) :
    xs.getLast? ≠ some (.loopReleased k n) := by
  intro hlast
  cases (h.last k n hlast).1

/-- Without a return on its way, it does not matter how many loops are in progress. -/
theorem of_none {depth' : Nat} (h : Unwinds depth none xs) : Unwinds depth' none xs where
  chain := h.chain
  last k n hlast := absurd hlast (h.not_last k n)
  quiet := h.quiet

/-- **One action after the other.** -/
theorem append (hx : Unwinds depth none xs) (hy : Unwinds depth o ys) :
    Unwinds depth o (xs ++ ys) where
  chain := by
    refine List.isChain_append.mpr ⟨hx.chain, hy.chain, fun e he _ _ k n hreleased => ?_⟩
    rw [hreleased] at he
    exact absurd he (hx.not_last k n)
  last k n hlast := by
    rw [List.getLast?_append] at hlast
    rcases Option.or_eq_some_iff.mp hlast with hlast | ⟨-, hlast⟩
    · exact hy.last k n hlast
    · exact absurd hlast (hx.not_last k n)
  quiet k h := by
    rcases List.mem_append.mp h with h | h
    · exact hx.quiet k h
    · exact hy.quiet k h

theorem chain_snoc {e : Event} (hx : Unwinds depth o xs)
    (hfollows : ∀ k, o = some k → e.Follows k depth) : (xs ++ [e]).IsChain Event.LeadsTo := by
  refine List.isChain_append.mpr ⟨hx.chain, List.isChain_singleton e, ?_⟩
  intro x hlast y hy k n hreleased
  cases hy
  rw [hreleased] at hlast
  obtain ⟨hkind, rfl⟩ := hx.last k n hlast
  exact hfollows k hkind

/-- One event more: it follows the last mark, if that is still to be followed. -/
theorem snoc {depth' : Nat} {o' : Option Kind} {e : Event} (hx : Unwinds depth o xs)
    (hfollows : ∀ k, o = some k → e.Follows k depth)
    (hlast : ∀ k n, e = .loopReleased k n → o' = some k ∧ n = depth')
    (hquiet : ∀ k, e ≠ .returnEscaped k) : Unwinds depth' o' (xs ++ [e]) where
  chain := hx.chain_snoc hfollows
  last k n h := by
    rw [List.getLast?_concat] at h
    exact hlast k n (Option.some.inj h)
  quiet k h := by
    rcases List.mem_append.mp h with h | h
    · exact hx.quiet k h
    · exact hquiet k (List.mem_singleton.mp h).symm

/-- A handler takes over. -/
theorem fault (hx : Unwinds depth none xs) (f : Fault) :
    Unwinds depth none (xs ++ [.faultCaught f]) := by
  refine hx.snoc ?_ ?_ ?_
  · intro k hk
    cases hk
  · intro k n h
    cases h
  · intro k h
    cases h

/-- A return leaves a loop. -/
theorem release {k : Kind} (hx : Unwinds (depth + 1) (some k) xs) :
    Unwinds depth (some k) (xs ++ [.loopReleased k depth]) := by
  refine hx.snoc ?_ ?_ ?_
  · intro j hj
    cases hj
    exact ⟨rfl, rfl⟩
  · intro j n h
    cases h
    exact ⟨rfl, rfl⟩
  · intro j h
    cases h

/-- A call catches a return. -/
theorem catches {k : Kind} (hx : Unwinds depth (some k) xs) (name : String) :
    Unwinds depth none (xs ++ [.returnCaught name k]) := by
  refine hx.snoc ?_ ?_ ?_
  · intro j hj
    cases hj
    exact rfl
  · intro j n h
    cases h
  · intro j h
    cases h

end Unwinds

/-! ## The discipline -/

namespace Machine

theorem escape_of_ne_returned {e : Exit} (he : ∀ s, e ≠ .returned s) (m : Machine) :
    m.escape e = m := by
  cases e with
  | returned s => exact absurd rfl (he s)
  | broke => rfl
  | continued => rfl
  | failed f => rfl

end Machine

/-- The discipline of unwinding returns, and of not failing with one that got out. -/
def unwinding : Discipline where
  Sound _ := True
  Keeps _ _ := True
  Holds _ _ := True
  Step m o m' := m'.activeLoops = m.activeLoops ∧ o ≠ some (.failed .returnOutsideFunction) ∧
    ∃ events, m'.trace.toList = m.trace.toList ++ events ∧
      Unwinds m.activeLoops (o.bind Exit.kind?) events
  Allows _ := True
  Callable _ := True

section Steps

variable {m m' : Machine} {o : Option Exit}

/-- An action that records nothing and leaves the loops in progress. -/
theorem unwinding_quiet (hloops : m'.activeLoops = m.activeLoops) (htrace : m'.trace = m.trace)
    (ho : o ≠ some (.failed .returnOutsideFunction)) : unwinding.Step m o m' :=
  ⟨hloops, ho, [], by rw [htrace, List.append_nil], .nil⟩

theorem unwinding_trans {m₁ : Machine} (h₁ : unwinding.Step m none m₁)
    (h₂ : unwinding.Step m₁ o m') : unwinding.Step m o m' := by
  obtain ⟨hloops₁, -, xs, hxs, hx⟩ := h₁
  obtain ⟨hloops₂, ho, ys, hys, hy⟩ := h₂
  rw [hloops₁] at hy
  refine ⟨hloops₂.trans hloops₁, ho, xs ++ ys, ?_, hx.append hy⟩
  rw [hys, hxs, List.append_assoc]

theorem unwinding_caught {f : Fault} (h : unwinding.Step m (some (.failed f)) m') :
    unwinding.Step m none (m'.emit (.faultCaught f)) := by
  obtain ⟨hloops, -, xs, hxs, hx⟩ := h
  refine ⟨hloops, nofun, xs ++ [Event.faultCaught f], ?_, hx.fault f⟩
  rw [Machine.emit, Array.toList_push, hxs, List.append_assoc]

/-- A loop is left, and a return on its way out leaves its mark. -/
theorem unwinding_leaveLoop {r : Except Exit Value}
    (h : unwinding.Step m.enterLoop (Exit.of? r) m') :
    unwinding.Step m (Exit.of? r) (m'.leaveLoop r) := by
  obtain ⟨hloops, ho, xs, hxs, hx⟩ := h
  have hdepth : m'.activeLoops - 1 = m.activeLoops := by
    rw [hloops, Machine.enterLoop, Nat.add_sub_cancel]
  cases r with
  | ok v => exact ⟨hdepth, ho, xs, hxs, hx.of_none⟩
  | error e =>
    cases e with
    | returned s =>
      refine ⟨hdepth, ho, xs ++ [Event.loopReleased s.kind m.activeLoops], ?_, hx.release⟩
      rw [Machine.leaveLoop, Array.toList_push, hxs, hdepth, List.append_assoc]
      rfl
    | broke => exact ⟨hdepth, ho, xs, hxs, hx.of_none⟩
    | continued => exact ⟨hdepth, ho, xs, hxs, hx.of_none⟩
    | failed f => exact ⟨hdepth, ho, xs, hxs, hx.of_none⟩

/-- A call is completed, and has caught the return of its body if there was one. -/
theorem unwinding_complete {name : String} {c : Completion}
    (h : unwinding.Step m.enterCall c.exit m') :
    unwinding.Step m none (m'.leaveCall.record name c) := by
  obtain ⟨hloops, -, xs, hxs, hx⟩ := h
  cases c with
  | fellThrough v => exact ⟨hloops, nofun, xs, hxs, hx⟩
  | returned s =>
    refine ⟨hloops, nofun, xs ++ [Event.returnCaught name s.kind], ?_, hx.catches name⟩
    rw [Machine.record, Array.toList_push, Machine.leaveCall, hxs, List.append_assoc]
    rfl

/-- A call is abandoned for an exit that is no return. -/
theorem unwinding_abandon {e : Exit} (he : ∀ s, e ≠ .returned s)
    (h : unwinding.Step m.enterCall (some e) m') :
    unwinding.Step m (some (.failed e.fault)) m'.leaveCall := by
  obtain ⟨hloops, ho, xs, hxs, hx⟩ := h
  rw [Option.bind_some, Exit.kind?_eq_none he] at hx
  refine ⟨hloops, ?_, xs, hxs, hx⟩
  cases e with
  | returned s => exact absurd rfl (he s)
  | broke => exact nofun
  | continued => exact nofun
  | failed f => exact ho

theorem ne_returnOutside_of_raise {e : Exit} (he : ∀ f, e = .failed f → f.isInternal = false) :
    some e ≠ some (.failed .returnOutsideFunction) := by
  intro h
  cases h
  cases he _ rfl

end Steps

theorem unwinding_lawful (ctx : Context) : unwinding.Lawful ctx where
  refl m := unwinding_quiet rfl rfl nofun
  trans h₁ h₂ := unwinding_trans h₁ h₂
  keeps_mono _ _ := trivial
  holds_mono _ _ := trivial
  holds_plain _ := trivial
  holds_lookup _ _ := trivial
  holds_item _ _ _ := trivial
  keeps_root _ := trivial
  keeps_child _ := trivial
  keeps_define _ _ _ := trivial
  internText {m} text _ := by
    have hloops := congrArg Prod.snd (m.progress_internText text)
    exact ⟨⟨trivial, unwinding_quiet hloops (m.trace_internText text) nofun⟩, trivial⟩
  internFunction {m} name _ := by
    have hloops := congrArg Prod.snd (m.progress_internFunction name)
    exact ⟨⟨trivial, unwinding_quiet hloops (m.trace_internFunction name) nofun⟩, trivial⟩
  alloc _ _ _ _ _ := ⟨⟨trivial, unwinding_quiet rfl rfl nofun⟩, trivial⟩
  append _ _ _ _ _ := ⟨trivial, unwinding_quiet rfl rfl nofun⟩
  raise _ he := unwinding_quiet rfl rfl (ne_returnOutside_of_raise he)
  dangling _ _ _ := unwinding_quiet rfl rfl nofun
  caught _ _ h := ⟨trivial, unwinding_caught h.2⟩
  turn he h := by
    obtain ⟨hloops, -, xs, hxs, hx⟩ := h
    rw [Option.bind_some, Exit.kind?_eq_none] at hx
    · exact ⟨hloops, nofun, xs, hxs, hx⟩
    · rintro s rfl
      rcases he with he | he <;> cases he
  enterLoop _ := trivial
  leaveLoop _ h := ⟨trivial, unwinding_leaveLoop h.2⟩
  enterCall _ _ := trivial
  complete _ _ _ h := ⟨trivial, unwinding_complete h.2⟩
  abandon _ _ _ he _ h := ⟨trivial, unwinding_abandon he h.2⟩
  callable _ := trivial
  allows_body _ _ := trivial

/-! ## At the moments of a run -/

section Moments

variable {ctx : Context} {c d : Moment}

theorem Moment.ready_unwinding (c : Moment) : c.Ready unwinding where
  start := ⟨trivial, trivial⟩
  allows _ _ := trivial
  callable _ _ _ := trivial
  holds _ _ := trivial

/-- Where a moment starts, no mark is left to be followed. -/
theorem Moment.Reaches.settled (h : c.Reaches ctx d) :
    ∃ events, d.start.machine.trace.toList = c.start.machine.trace.toList ++ events ∧
      ∀ k n, events.getLast? ≠ some (.loopReleased k n) := by
  induction h with
  | refl => exact ⟨[], (List.append_nil _).symm, nofun⟩
  | @tail d e _ hstarts ih =>
    obtain ⟨xs, hxs, hx⟩ := ih
    obtain ⟨-, -, -, ys, hys, hy⟩ := d.ready_unwinding.part (unwinding_lawful ctx) hstarts
    refine ⟨xs ++ ys, by rw [hys, d.trace_entered, hxs, List.append_assoc], fun k n hlast => ?_⟩
    rw [List.getLast?_append] at hlast
    rcases Option.or_eq_some_iff.mp hlast with hlast | ⟨-, hlast⟩
    · exact hy.not_last k n hlast
    · exact hx k n hlast

/-- **A return that a call catches has left the loops that the call has entered.**  If the last event
before the catch is the mark of a loop, then it is the mark of the return that is caught, and as many
loops are in progress as were when the call was entered. -/
theorem Moment.Catches.released {before : List Event} {name : String} {k : Kind}
    (hd : c.Reaches ctx d)
    (hcatches : d.Catches ctx (c.start.machine.trace.toList ++ before) name k) {j : Kind} {n : Nat}
    (hlast : before.getLast? = some (.loopReleased j n)) :
    j = k ∧ n = d.start.machine.activeLoops := by
  generalize hpast : c.start.machine.trace.toList ++ before = past at hcatches
  cases hcatches with
  | @intro fuel key f args a b scope s m _ _ hexec _ _ =>
    obtain ⟨ys, hys, hsettled⟩ := hd.settled
    have hallows : ∀ t, Stmt.anyHas t f.body = true → unwinding.Allows t := fun _ _ => trivial
    have hready : unwinding.Ready ⟨scope, a.machine.enterCall⟩ := ⟨trivial, trivial⟩
    have hbody := (unwinding_lawful ctx).runs_body fuel hallows hready
    obtain ⟨-, ⟨-, -, xs, hxs, hx⟩, -⟩ := hbody.error _ b hexec
    have hbefore : before = ys ++ xs := by
      apply List.append_cancel_left
      rw [hpast, hxs, ← List.append_assoc, ← hys]
      rfl
    rw [hbefore, List.getLast?_append] at hlast
    rcases Option.or_eq_some_iff.mp hlast with hlast | ⟨-, hlast⟩
    · obtain ⟨hkind, hdepth⟩ := hx.last j n hlast
      cases hkind
      exact ⟨rfl, hdepth⟩
    · exact absurd hlast (hsettled j n)

/-- Every return that is caught among the events of a run is caught by a call of the run, which `c`
is the first moment of.  If the return has just left a loop, then as many loops were in progress when
that call was entered as the mark of the loop says. -/
def CaughtByCalls (ctx : Context) (c : Moment) (events : List Event) : Prop :=
  ∀ before name k after, events = before ++ .returnCaught name k :: after →
    ∃ d, c.Reaches ctx d ∧ d.Catches ctx (c.start.machine.trace.toList ++ before) name k ∧
      ∀ j n, before.getLast? = some (.loopReleased j n) →
        j = k ∧ n = d.start.machine.activeLoops

/-- **Every catch of a run is that of a call.** -/
theorem Moment.caughtByCalls {m : Machine} {events : List Event}
    (hc : ∀ f args, c.task = .call f args → ∃ key : String, ctx.functions[key]? = some f)
    (h : c.left ctx = some m)
    (hevents : m.trace.toList = c.start.machine.trace.toList ++ events) :
    CaughtByCalls ctx c events := by
  obtain ⟨recorded, hrecorded, hcaught⟩ := records_left hc h
  rw [hevents] at hrecorded
  cases List.append_cancel_left hrecorded
  intro before name k after hsplit
  obtain ⟨d, hd, hcatches⟩ := hcaught before name k after hsplit
  exact ⟨d, hd, hcatches, fun j n hlast => hcatches.released hd hlast⟩

end Moments

/-! ## What a host does -/

/-- The events of a whole run with the first moment `c`: every mark that a return has left at a loop
is followed as it should be, and every return that is caught is caught by a call of the run. -/
structure Orderly (ctx : Context) (c : Moment) (events : List Event) : Prop where
  chain : events.IsChain Event.LeadsTo
  followed : ∀ k n, events.getLast? ≠ some (.loopReleased k n)
  caught : CaughtByCalls ctx c events

theorem Unwinds.orderly {ctx : Context} {c : Moment} {events : List Event} {depth : Nat}
    (h : Unwinds depth none events) (hcaught : CaughtByCalls ctx c events) :
    Orderly ctx c events :=
  ⟨h.chain, h.not_last, hcaught⟩

/-- A return that gets out of all loops is complained of at the top level. -/
theorem Unwinds.escape {ctx : Context} {c : Moment} {events : List Event} {k : Kind}
    (h : Unwinds 0 (some k) events) (hcaught : CaughtByCalls ctx c events) :
    Orderly ctx c (events ++ [.returnEscaped k]) where
  chain := h.chain_snoc fun j hj => by
    cases hj
    exact ⟨rfl, rfl⟩
  followed j n hlast := by
    rw [List.getLast?_concat] at hlast
    cases hlast
  caught before name j after hsplit := by
    rcases split_append hsplit with ⟨rest, hrest⟩ | ⟨early, -, hone⟩
    · exact hcaught before name j rest hrest
    · cases (eq_of_singleton hone).2.1

/-- A return gets out at most once, and nothing happens after that. -/
def EscapesLast (events : List Event) : Prop :=
  ∀ before k after, events = before ++ .returnEscaped k :: after →
    after = [] ∧ ∀ j, .returnEscaped j ∉ before

theorem escapesLast_of_quiet {events : List Event} (h : ∀ k, .returnEscaped k ∉ events) :
    EscapesLast events := by
  rintro before k after rfl
  exact absurd (List.mem_append_right before List.mem_cons_self) (h k)

theorem escapesLast_snoc {events : List Event} (h : ∀ k, .returnEscaped k ∉ events) (k : Kind) :
    EscapesLast (events ++ [.returnEscaped k]) := by
  intro before j after hsplit
  rcases split_append hsplit with ⟨rest, hevents⟩ | ⟨early, hbefore, hone⟩
  · exact absurd (hevents ▸ List.mem_append_right before List.mem_cons_self) (h j)
  · obtain ⟨rfl, -, hafter⟩ := eq_of_singleton hone
    rw [hbefore, List.append_nil]
    exact ⟨hafter, h⟩

/-- An exit other than a return is no return that got out. -/
theorem fault_ne_returnOutside {e : Exit} (he : ∀ s, e ≠ .returned s)
    (hfailed : some e ≠ some (.failed .returnOutsideFunction)) :
    e.fault ≠ .returnOutsideFunction := by
  intro hfault
  cases e with
  | returned s => exact he s rfl
  | broke => cases hfault
  | continued => cases hfault
  | failed f => exact hfailed (congrArg (some ∘ Exit.failed) hfault)

/-- The first moment of a run of a program. -/
def Program.firstMoment (p : Program) (i : Interpreter) (fuel : Nat) (scope : Scope) : Moment :=
  ⟨fuel, .execAll .unit p.statements, ⟨scope, i.machine⟩⟩

/-- The first moment of a call by a host. -/
def Function.firstMoment (f : Function) (i : Interpreter) (fuel : Nat) (args : List Value) :
    Moment :=
  ⟨fuel, .call f args, ⟨.root, i.machine⟩⟩

/-- What a run of a program records. -/
theorem events_of_runIn {i : Interpreter} {p : Program} {scope : Scope} {fuel : Nat}
    {ran : Interpreter.Ran} (h : i.runIn fuel scope p = some ran)
    (hloops : i.machine.activeLoops = 0) :
    ∃ events, ran.interpreter.machine.trace.toList = i.machine.trace.toList ++ events ∧
      Orderly (i.declareAll p.functions).context (p.firstMoment i fuel scope) events ∧
        (ran.result = .error .returnOutsideFunction ↔ ∃ k, .returnEscaped k ∈ events) ∧
          EscapesLast events := by
  have L := unwinding_lawful (i.declareAll p.functions).context
  have hallows : ∀ t, Stmt.anyHas t p.statements = true → unwinding.Allows t :=
    fun _ _ => trivial
  have hready : unwinding.Ready ⟨scope, i.machine⟩ := ⟨trivial, trivial⟩
  have hruns := L.runs_program fuel hallows hready
  have hcaught {r : Except Exit (Option Value)} {b : Activation} {xs : List Event}
      (hexec : Program.exec (i.declareAll p.functions).context fuel p.statements
        ⟨scope, i.machine⟩ = some (r, b))
      (hxs : b.machine.trace.toList = i.machine.trace.toList ++ xs) :
      CaughtByCalls (i.declareAll p.functions).context (p.firstMoment i fuel scope) xs := by
    have hleft : (p.firstMoment i fuel scope).left (i.declareAll p.functions).context =
        some b.machine := by
      rw [Program.firstMoment, ← Program.left_exec, hexec]
      rfl
    exact Moment.caughtByCalls (fun f args hf => by cases hf) hleft hxs
  rcases Interpreter.execute_eq_some h with ⟨v, b, hexec, rfl⟩ | ⟨e, b, hexec, rfl⟩
  all_goals rw [Interpreter.machine_declareAll] at hexec
  · obtain ⟨-, ⟨-, -, xs, hxs, hx⟩, -⟩ := hruns.ok v b hexec
    have hquiet : ¬∃ k, .returnEscaped k ∈ xs := fun ⟨k, hk⟩ => hx.quiet k hk
    exact ⟨xs, hxs, hx.orderly (hcaught hexec hxs), iff_of_false nofun hquiet,
      escapesLast_of_quiet hx.quiet⟩
  · obtain ⟨-, ⟨-, he, xs, hxs, hx⟩, -⟩ := hruns.error e b hexec
    by_cases hreturn : ∃ s, e = .returned s
    · obtain ⟨s, rfl⟩ := hreturn
      rw [hloops] at hx
      refine ⟨xs ++ [Event.returnEscaped s.kind], ?_, hx.escape (hcaught hexec hxs), ?_,
        escapesLast_snoc hx.quiet _⟩
      · rw [Machine.escape, Machine.emit, Array.toList_push, hxs, List.append_assoc]
      · exact iff_of_true rfl ⟨s.kind, List.mem_append_right xs List.mem_cons_self⟩
    · have hne : ∀ s, e ≠ .returned s := fun s hs => hreturn ⟨s, hs⟩
      have hquiet : ¬∃ k, .returnEscaped k ∈ xs := fun ⟨k, hk⟩ => hx.quiet k hk
      have hfault := fault_ne_returnOutside hne he
      rw [Option.bind_some, Exit.kind?_eq_none hne] at hx
      refine ⟨xs, ?_, hx.orderly (hcaught hexec hxs),
        iff_of_false (fun h => hfault (Except.error.inj h)) hquiet, escapesLast_of_quiet hx.quiet⟩
      rw [Machine.escape_of_ne_returned hne, hxs]

/-- What a call by a host records. -/
theorem events_of_complete {i i' : Interpreter} {name : String} {args : List Value} {fuel : Nat}
    {r : Except Fault Completion} {f : Function} (hf : i.functions[name]? = some f)
    (h : i.complete fuel name args = some (r, i')) :
    ∃ events, i'.machine.trace.toList = i.machine.trace.toList ++ events ∧
      Orderly i.context (f.firstMoment i fuel args) events ∧ (∀ k, .returnEscaped k ∉ events) ∧
        r ≠ .error .returnOutsideFunction := by
  obtain ⟨-, -, hr, xs, hxs, hx⟩ :=
    (unwinding_lawful _).complete_ends trivial (fun _ _ => trivial) h
  have hcaught : CaughtByCalls i.context (f.firstMoment i fuel args) xs := by
    obtain ⟨m, hrun, rfl⟩ := Interpreter.complete_eq_some hf h
    have hleft : (f.firstMoment i fuel args).left i.context = some m := by
      rw [Function.firstMoment, Moment.left_call, hrun]
      rfl
    refine Moment.caughtByCalls (fun g vs hg => ?_) hleft hxs
    cases hg
    exact ⟨name, hf⟩
  cases r with
  | ok c => exact ⟨xs, hxs, hx.orderly hcaught, hx.quiet, nofun⟩
  | error g =>
    refine ⟨xs, hxs, hx.orderly hcaught, hx.quiet, fun hg => hr ?_⟩
    cases hg
    rfl

/-! ## Unwinding -/

/-- **Returns unwind in order.**  Whatever a program that is run, or a function that a host calls,
records from a state without loops in progress: a mark that a return has left at a loop is followed
at once by the mark of the same return at the next loop outwards, or by the call that catches the
return, or by the complaint of the top level.  A return is caught by a call of that very run, the
one that ends with the catch; if the return has just left a loop, then as many loops were in
progress when the call was entered as are in progress now.  The top level complains with none in
progress.  It complains exactly if the run of the program fails for a return that nothing catches,
and then once and as the last thing.  A call by a host never comes to that; and if there is no
function to call, nothing is recorded. -/
theorem returns_unwind (fuel : Nat) :
    (∀ (i : Interpreter) (scope : Scope) (p : Program) (ran : Interpreter.Ran),
      i.runIn fuel scope p = some ran → i.machine.activeLoops = 0 →
        ∃ events, ran.interpreter.machine.trace.toList = i.machine.trace.toList ++ events ∧
          Orderly (i.declareAll p.functions).context (p.firstMoment i fuel scope) events ∧
            (ran.result = .error .returnOutsideFunction ↔ ∃ k, .returnEscaped k ∈ events) ∧
              EscapesLast events) ∧
    (∀ (i i' : Interpreter) (name : String) (f : Function) (args : List Value)
        (r : Except Fault Completion),
      i.functions[name]? = some f → i.complete fuel name args = some (r, i') →
        ∃ events, i'.machine.trace.toList = i.machine.trace.toList ++ events ∧
          Orderly i.context (f.firstMoment i fuel args) events ∧ (∀ k, .returnEscaped k ∉ events) ∧
            r ≠ .error .returnOutsideFunction) ∧
    (∀ (i i' : Interpreter) (name : String) (args : List Value) (r : Except Fault Completion),
      i.functions[name]? = none → i.complete fuel name args = some (r, i') →
        i'.machine.trace = i.machine.trace ∧ r ≠ .error .returnOutsideFunction) := by
  refine ⟨?program, ?host, ?undefined⟩
  case program =>
    intro i scope p ran h hloops
    exact events_of_runIn h hloops
  case host =>
    intro i i' name f args r hf h
    exact events_of_complete hf h
  case undefined =>
    intro i i' name args r hf h
    rw [Interpreter.complete_undefined hf] at h
    cases h
    exact ⟨rfl, nofun⟩

/-- A function that returns from inside two loops. -/
def returnsFromLoops : Function where
  name := "g"
  params := []
  body := [.forRange "i" (.int 7) (.int 9) [.whileDo (.bool true) [.ret (some (.ident "i"))]]]

/-- A program that returns what the function returns, from inside two loops of its own. -/
def returnsThroughLoops : Program where
  items := [
    .function returnsFromLoops,
    .statement (.forRange "j" (.int 0) (.int 1) [
      .whileDo (.bool true) [.block [.ret (some (.call "g" []))]]])]

/-- The return of the function is caught by a call that was entered with two loops in progress, after
it has left two loops of its own, and the return of the program gets out of those two. -/
theorem returns_unwind_returnsThroughLoops :
    ∃ ran, Interpreter.runIn 4 {} .root returnsThroughLoops = some ran ∧
      ran.interpreter.machine.trace.toList =
        [.loopReleased .integer 3, .loopReleased .integer 2, .returnCaught "g" .integer,
          .loopReleased .integer 1, .loopReleased .integer 0, .returnEscaped .integer] ∧
      ran.result = .error .returnOutsideFunction ∧
      ∃ d, (returnsThroughLoops.firstMoment {} 4 .root).Reaches
          (Interpreter.declareAll {} returnsThroughLoops.functions).context d ∧
        d.Catches (Interpreter.declareAll {} returnsThroughLoops.functions).context
          [.loopReleased .integer 3, .loopReleased .integer 2] "g" .integer ∧
        d.start.machine.activeLoops = 2 := by
  have htrace : (Interpreter.runIn 4 {} .root returnsThroughLoops).map
      (·.interpreter.machine.trace.toList) = some
        [.loopReleased .integer 3, .loopReleased .integer 2, .returnCaught "g" .integer,
          .loopReleased .integer 1, .loopReleased .integer 0, .returnEscaped .integer] := by
    decide +kernel
  obtain ⟨ran, hrun, hevents⟩ := Option.map_eq_some_iff.mp htrace
  obtain ⟨events, hran, horderly, hescapes, -⟩ :=
    (returns_unwind 4).1 {} .root returnsThroughLoops ran hrun rfl
  have hsame : events = ran.interpreter.machine.trace.toList := by
    rw [hran]
    rfl
  obtain ⟨d, hd, hcatches, hreleased⟩ :=
    horderly.caught [.loopReleased .integer 3, .loopReleased .integer 2] "g" .integer _
      (hsame.trans hevents)
  refine ⟨ran, hrun, hevents, hescapes.mpr ⟨.integer, ?_⟩, d, hd, hcatches, ?_⟩
  · rw [hsame, hevents]
    decide
  · exact (hreleased .integer 2 rfl).2.symm

end Imperative
