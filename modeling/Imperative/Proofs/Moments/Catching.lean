import Imperative.Proofs.Moments.Order

/-!
# The calls that catch returns

The trace says of a return that it was caught, and what the function is called that caught it.  This
file says which call it was: a call that the run reaches, admitted and executed until its body has
returned, with the trace as it then was, and with the catch as the one event that the call adds to
that (`Moment.Catches`).

Nothing but a call records a catch, so the records of a moment that is no call are put together of
the records of its parts, and what happens in between adds no catch (`Moment.inTurn_between`).  The
records of a call are those of its body and its own.  Parts are smaller, so every catch among the
records of a moment is recorded by a call that the moment reaches (`Moment.records_left`).
-/

namespace Imperative

/-! ## Events one after the other -/

/-- Where an event stands in events one after the other: in the first ones, or in the second. -/
theorem split_append {xs ys before after : List Event} {e : Event}
    (h : xs ++ ys = before ++ e :: after) :
    (∃ rest, xs = before ++ e :: rest) ∨
      ∃ early, before = xs ++ early ∧ ys = early ++ e :: after := by
  rcases List.append_eq_append_iff.mp h with ⟨early, hbefore, hys⟩ | ⟨late, hxs, hlate⟩
  · exact .inr ⟨early, hbefore, hys⟩
  · rcases List.cons_eq_append_iff.mp hlate with ⟨rfl, hys⟩ | ⟨rest, rfl, -⟩
    · exact .inr ⟨[], by rw [hxs, List.append_nil, List.append_nil], hys⟩
    · exact .inl ⟨rest, hxs⟩

theorem eq_of_singleton {before after : List Event} {e e' : Event}
    (h : [e] = before ++ e' :: after) : before = [] ∧ e = e' ∧ after = [] := by
  rcases List.append_eq_singleton_iff.mp h.symm with ⟨hbefore, h⟩ | ⟨-, h⟩
  · cases h
    exact ⟨hbefore, rfl, rfl⟩
  · cases h

/-! ## Catching -/

/-- The moment is a call that catches the return of its body.  It calls a declared function and is
admitted; by when the body has returned the events in the list have been traced; and when the call
is over, that it caught a return is traced in addition. -/
inductive Moment.Catches (ctx : Context) : Moment → List Event → String → Kind → Prop where
  | intro {fuel : Nat} {key : String} {f : Function} {args : List Value} {a b : Activation}
      {scope : Scope} {s : Signal} {m : Machine} :
    ctx.functions[key]? = some f →
      Call.entry ctx a.scope f args a.machine = .ok scope →
        Stmt.execAll ctx (ctx.calls fuel) fuel .unit f.body ⟨scope, a.machine.enterCall⟩ =
          some (.error (.returned s), b) →
          Moment.left ctx ⟨fuel + 1, .call f args, a⟩ = some m →
            m.trace.toList = b.machine.trace.toList ++ [.returnCaught f.name s.kind] →
              Catches ctx ⟨fuel + 1, .call f args, a⟩ b.machine.trace.toList f.name s.kind

theorem eq_returned_of_catchReturn {outcome : Except Exit Value} {s : Signal}
    (h : catchReturn outcome = .ok (.returned s)) : outcome = .error (.returned s) := by
  cases outcome with
  | ok v => cases h
  | error e =>
    cases e <;> cases h
    rfl

/-- Only declared functions are called. -/
theorem Starts.declared {ctx : Context} {c d : Moment} (h : Starts ctx c d) {f : Function}
    {args : List Value} (hd : d.task = .call f args) :
    ∃ key : String, ctx.functions[key]? = some f := by
  cases h with
  | call hcallee _ =>
    cases hd
    exact Context.calleeOf_eq_function hcallee
  | _ => cases hd

/-! ## What is recorded between two machines -/

namespace Machine

theorem trace_internText (m : Machine) (s : String) : (m.internText s).2.trace = m.trace := by
  unfold internText
  split <;> rfl

theorem trace_internFunction (m : Machine) (name : String) :
    (m.internFunction name).2.trace = m.trace := by
  unfold internFunction
  split <;> rfl

/-- The trace of the one machine is continued by the trace of the other one, and every return that is
caught in between satisfies a condition, which speaks of the events before it, of the name of the
function and of the kind of the return. -/
def Records (Q : List Event → String → Kind → Prop) (m m' : Machine) : Prop :=
  ∃ events, m'.trace.toList = m.trace.toList ++ events ∧
    ∀ before name k after, events = before ++ .returnCaught name k :: after →
      Q (m.trace.toList ++ before) name k

namespace Records

variable {Q Q' : List Event → String → Kind → Prop} {m m₁ m' : Machine}

theorem of_trace (h : m'.trace = m.trace) : Records Q m m' := by
  refine ⟨[], by rw [h, List.append_nil], fun before name k after hsplit => ?_⟩
  exact absurd hsplit.symm (List.append_ne_nil_of_right_ne_nil before (List.cons_ne_nil _ after))

theorem snoc {e : Event} (h : m'.trace.toList = m.trace.toList ++ [e])
    (he : ∀ name k, e = .returnCaught name k → Q m.trace.toList name k) : Records Q m m' := by
  refine ⟨[e], h, fun before name k after hsplit => ?_⟩
  obtain ⟨rfl, heq, -⟩ := eq_of_singleton hsplit
  rw [List.append_nil]
  exact he name k heq

theorem trans (h : Records Q m m₁) (h' : Records Q m₁ m') : Records Q m m' := by
  obtain ⟨xs, hxs, hx⟩ := h
  obtain ⟨ys, hys, hy⟩ := h'
  refine ⟨xs ++ ys, by rw [hys, hxs, List.append_assoc], fun before name k after hsplit => ?_⟩
  rcases split_append hsplit with ⟨rest, hrest⟩ | ⟨early, rfl, hearly⟩
  · exact hx before name k rest hrest
  · rw [← List.append_assoc, ← hxs]
    exact hy early name k after hearly

theorem mono (h : Records Q m m') (hQ : ∀ past name k, Q past name k → Q' past name k) :
    Records Q' m m' := by
  obtain ⟨events, hevents, hcaught⟩ := h
  exact ⟨events, hevents, fun before name k after hsplit =>
    hQ _ name k (hcaught before name k after hsplit)⟩

theorem interlude (Q : List Event → String → Kind → Prop) : Interlude (Records Q) where
  trans := trans
  count _ _ _ htrace := of_trace htrace
  caught _ _ := snoc Array.toList_push fun _ _ h => by cases h
  leaveLoop m r := by
    unfold Machine.leaveLoop
    split
    · exact snoc Array.toList_push fun _ _ h => by cases h
    · exact of_trace rfl
  internText m text := of_trace (m.trace_internText text)
  internFunction m name := of_trace (m.trace_internFunction name)
  alloc _ _ := of_trace rfl
  append _ _ _ := of_trace rfl

end Records

end Machine

/-! ## What a moment records -/

section Moments

variable {ctx : Context}

/-- Among the events before it, a return is caught by a call that the moment reaches. -/
def Moment.ReachesCatch (ctx : Context) (c : Moment) (past : List Event) (name : String)
    (k : Kind) : Prop :=
  ∃ d, c.Reaches ctx d ∧ d.Catches ctx past name k

theorem Moment.ReachesCatch.of_starts {c d : Moment} (h : Starts ctx c d) {past : List Event}
    {name : String} {k : Kind} (hd : d.ReachesCatch ctx past name k) :
    c.ReachesCatch ctx past name k := by
  obtain ⟨e, he, hcatches⟩ := hd
  exact ⟨e, .head h he, hcatches⟩

/-- A call records what its body records, and that it has caught the return of the body if there was
one. -/
theorem Task.records_call {Q : List Event → String → Kind → Prop} {fuel : Nat} {f : Function}
    {args : List Value} {a : Activation} {m : Machine} {key : String}
    (hf : ctx.functions[key]? = some f)
    (hQ : ∀ past name k,
      Moment.Catches ctx ⟨fuel + 1, .call f args, a⟩ past name k → Q past name k)
    (hbody : ∀ d, Starts ctx ⟨fuel + 1, .call f args, a⟩ d → ∀ m₁, d.left ctx = some m₁ →
      Machine.Records Q d.start.machine m₁)
    (h : Moment.left ctx ⟨fuel + 1, .call f args, a⟩ = some m) :
    Machine.Records Q a.machine m := by
  have hleft := h
  rw [Moment.left_call] at hleft
  obtain ⟨⟨r, m'⟩, hrun, rfl⟩ := Option.map_eq_some_iff.mp hleft
  have hentered {scope : Scope} {outcome : Except Exit Value} {b : Activation}
      (hentry : Call.entry ctx a.scope f args a.machine = .ok scope)
      (hexec : Stmt.execAll ctx (ctx.calls fuel) fuel .unit f.body ⟨scope, a.machine.enterCall⟩ =
        some (outcome, b)) : Machine.Records Q a.machine b.machine := by
    have henter : Machine.Records Q a.machine a.machine.enterCall := .of_trace rfl
    refine henter.trans (hbody _ (.body hentry) b.machine ?_)
    rw [Moment.left_execAll, hexec]
    rfl
  have hrecorded {scope : Scope} {outcome : Except Exit Value} {b : Activation} {c : Completion}
      (hentry : Call.entry ctx a.scope f args a.machine = .ok scope)
      (hexec : Stmt.execAll ctx (ctx.calls fuel) fuel .unit f.body ⟨scope, a.machine.enterCall⟩ =
        some (outcome, b))
      (hcatch : catchReturn outcome = .ok c) (hm : m' = b.machine.leaveCall.record f.name c) :
      Machine.Records Q a.machine m' := by
    refine (hentered hentry hexec).trans ?_
    cases c with
    | fellThrough v => exact .of_trace (by rw [hm]; rfl)
    | returned s =>
      have htrace : m'.trace.toList =
          b.machine.trace.toList ++ [.returnCaught f.name s.kind] := by
        rw [hm]
        exact Array.toList_push
      rw [eq_returned_of_catchReturn hcatch] at hexec
      refine .snoc htrace fun name k heq => ?_
      cases heq
      exact hQ _ _ _ (.intro hf hentry hexec h htrace)
  cases r with
  | ok c =>
    obtain ⟨scope, outcome, b, hentry, hexec, hcatch, -, hm⟩ := Call.dispatch_eq_ok hrun
    exact hrecorded hentry hexec hcatch hm
  | error g =>
    rcases Call.dispatch_eq_error hrun with ⟨-, hm⟩ | ⟨scope, outcome, b, hentry, hexec, hend⟩
    · exact .of_trace (by rw [← hm]; rfl)
    · rcases hend with ⟨c, hcatch, -, hm⟩ | ⟨e, -, -, hm⟩
      · exact hrecorded hentry hexec hcatch hm
      · exact (hentered hentry hexec).trans (.of_trace (by rw [hm]; rfl))

/-- **What a moment records.**  Its trace goes on from what it was, and every return that is caught
on the way is caught by a call that the moment reaches. -/
theorem Moment.records_left {c : Moment} {m : Machine}
    (hc : ∀ f args, c.task = .call f args → ∃ key : String, ctx.functions[key]? = some f)
    (h : c.left ctx = some m) : Machine.Records (c.ReachesCatch ctx) c.start.machine m := by
  induction c using (starts_wf ctx).induction generalizing m with
  | _ c ih =>
    have hparts : ∀ d, Starts ctx c d → ∀ m₁, d.left ctx = some m₁ →
        Machine.Records (c.ReachesCatch ctx) d.start.machine m₁ := by
      intro d hstarts m₁ hm₁
      exact (ih d hstarts (fun f args hd => hstarts.declared hd) hm₁).mono
        fun _ _ _ => ReachesCatch.of_starts hstarts
    by_cases hcall : ∃ f args, c.task = .call f args
    · obtain ⟨fuel, task, a⟩ := c
      obtain ⟨f, args, rfl⟩ := hcall
      obtain ⟨key, hf⟩ := hc f args rfl
      cases fuel with
      | zero => cases h
      | succ fuel => exact Task.records_call hf (fun _ _ _ hd => ⟨_, .refl, hd⟩) hparts h
    · have hR := Machine.Records.interlude (c.ReachesCatch ctx)
      have hturn : InTurn ctx _ c.start.machine (c.parts ctx) (c.left ctx) :=
        inTurn_between hR fun f args hf => hcall ⟨f, args, hf⟩
      rw [h] at hturn
      exact hturn.whole_of_parts hR fun d hd m₁ hm₁ => hparts d (mem_parts.mp hd) m₁ hm₁

end Moments

end Imperative
