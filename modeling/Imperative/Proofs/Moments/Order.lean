import Imperative.Proofs.Moments.Sequence

/-!
# The order of the moments of a run

The parts of a moment are carried out in turn (`Moment.inTurn`), and so are all moments of a run: of
two of them, either one is part of what the other one carries out, or one has ended before the
other starts, and from where the one has ended to where the other starts every ratchet holds
(`Moment.Reaches.nested_or_before`).  It also holds from the start of a run to the start of each
moment, and from the end of each moment to the end of the run, if it has one.
-/

namespace Imperative

/-! ## The order of parts -/

/-- The one moment has ended, and what holds from there to the start of the other one is a
relation. -/
def Moment.Before (ctx : Context) (R : Machine → Machine → Prop) (d e : Moment) : Prop :=
  ∃ m, d.left ctx = some m ∧ R m e.start.machine

section Order

variable {ctx : Context} {R : Machine → Machine → Prop}

theorem Moment.of_left (hR : Ratchet R) {c : Moment} {m : Machine} (h : c.left ctx = some m) :
    R c.start.machine m := by
  have hready : c.Ready (ratchet R) :=
    ⟨ready_ratchet R c.start, fun _ _ => trivial, fun _ _ _ => trivial, fun _ _ => trivial⟩
  exact Ratchet.of_runs (hready.runs (hR.lawful ctx)) h

namespace Ratchet

variable {fuel : Nat}

/-- A ratchet holds from where an expression is evaluated to what is left by it. -/
theorem of_expr (hR : Ratchet R) {e : Expr} {scope : Scope} {m m' : Machine}
    {r : Except Fault Value} (h : e.run ctx fuel scope m = some (r, m')) : R m m' := by
  have hleft : Moment.left ctx ⟨fuel, .eval e, ⟨scope, m⟩⟩ = some m' := by
    rw [Moment.left_eval, h]
    rfl
  exact Moment.of_left hR hleft

theorem of_stmt (hR : Ratchet R) {s : Stmt} {a b : Activation} {r : Except Exit Value}
    (h : s.run ctx fuel a = some (r, b)) : R a.machine b.machine := by
  have hleft : Moment.left ctx ⟨fuel, .exec s, a⟩ = some b.machine := by
    rw [Moment.left_exec, h]
    rfl
  exact Moment.of_left hR hleft

theorem of_body (hR : Ratchet R) {body : List Stmt} {last : Value} {a b : Activation}
    {r : Except Exit Value}
    (h : Stmt.execAll ctx (ctx.calls fuel) fuel last body a = some (r, b)) :
    R a.machine b.machine := by
  have hleft : Moment.left ctx ⟨fuel, .execAll last body, a⟩ = some b.machine := by
    rw [Moment.left_execAll, h]
    rfl
  exact Moment.of_left hR hleft

theorem of_call (hR : Ratchet R) {caller : Scope} {f : Function} {args : List Value}
    {m m' : Machine} {r : Except Fault Completion}
    (h : ctx.calls fuel caller f args m = some (r, m')) : R m m' := by
  have hleft : Moment.left ctx ⟨fuel, .call f args, ⟨caller, m⟩⟩ = some m' := by
    rw [Moment.left_call, h]
    rfl
  exact Moment.of_left hR hleft

end Ratchet

namespace InTurn

variable {m : Machine} {d e : Moment} {ds : List Moment} {out : Option Machine}

/-- A part that is not the last one ends, some time after the machine it all started from. -/
theorem left_of_rest (hR : Ratchet R) (hstart : R m d.start.machine)
    (hnone : d.left ctx = none → ds = [] ∧ out = none) (h : ds ≠ [] ∨ out ≠ none) :
    ∃ m', d.left ctx = some m' ∧ R m m' := by
  cases hd : d.left ctx with
  | some m' => exact ⟨m', rfl, hR.trans hstart (Moment.of_left hR hd)⟩
  | none =>
    obtain ⟨hds, hout⟩ := hnone hd
    rcases h with h | h
    · exact absurd hds h
    · exact absurd hout h

theorem start (hR : Ratchet R) (h : InTurn ctx R m ds out) (hd : d ∈ ds) :
    R m d.start.machine := by
  induction h with
  | done _ => cases hd
  | part hstart _ hnone ih =>
    rcases List.mem_cons.mp hd with rfl | hd
    · exact hstart
    · obtain ⟨m', hm', hR'⟩ := left_of_rest hR hstart hnone (.inl (List.ne_nil_of_mem hd))
      exact hR.trans hR' (ih m' hm' hd)

/-- From before the first part to when everything is done, an interlude holds that holds of the
parts. -/
theorem whole_of_parts (hR : Interlude R) {m' : Machine} (h : InTurn ctx R m ds (some m'))
    (hparts : ∀ d ∈ ds, ∀ m₁, d.left ctx = some m₁ → R d.start.machine m₁) : R m m' := by
  generalize hout : some m' = out at h
  induction h with
  | done hm => exact hm m' hout.symm
  | @part m d ds out hstart _ hnone ih =>
    subst hout
    cases hd : d.left ctx with
    | none => cases (hnone hd).2
    | some m₁ =>
      have hpart : R d.start.machine m₁ := hparts d List.mem_cons_self m₁ hd
      have hrest : R m₁ m' :=
        ih m₁ hd (fun e he => hparts e (List.mem_cons_of_mem d he)) rfl
      exact hR.trans hstart (hR.trans hpart hrest)

/-- From before the first part to when everything is done. -/
theorem whole (hR : Ratchet R) {m' : Machine} (h : InTurn ctx R m ds (some m')) : R m m' :=
  h.whole_of_parts hR.interlude fun _ _ _ hd => Moment.of_left hR hd

/-- When everything is done, every part has ended some time before. -/
theorem left (hR : Ratchet R) {m' : Machine} (h : InTurn ctx R m ds (some m')) (hd : d ∈ ds) :
    ∃ m₁, d.left ctx = some m₁ ∧ R m₁ m' := by
  generalize hout : some m' = out at h
  induction h with
  | done _ => cases hd
  | part hstart hsome hnone ih =>
    subst hout
    obtain ⟨m₁, hm₁, -⟩ := left_of_rest hR hstart hnone (.inr (Option.some_ne_none m'))
    rcases List.mem_cons.mp hd with rfl | hd
    · exact ⟨m₁, hm₁, (hsome m₁ hm₁).whole hR⟩
    · exact ih m₁ hm₁ hd rfl

/-- Two parts are the same, or one comes before the other. -/
theorem before (hR : Ratchet R) (h : InTurn ctx R m ds out) (hd : d ∈ ds) (he : e ∈ ds) :
    d = e ∨ Moment.Before ctx R d e ∨ Moment.Before ctx R e d := by
  induction h with
  | done _ => cases hd
  | part hstart hsome hnone ih =>
    rcases List.mem_cons.mp hd with rfl | hrest
    · rcases List.mem_cons.mp he with rfl | hrest
      · exact .inl rfl
      · obtain ⟨m', hm', -⟩ := left_of_rest hR hstart hnone (.inl (List.ne_nil_of_mem hrest))
        exact .inr (.inl ⟨m', hm', (hsome m' hm').start hR hrest⟩)
    · obtain ⟨m', hm', -⟩ := left_of_rest hR hstart hnone (.inl (List.ne_nil_of_mem hrest))
      rcases List.mem_cons.mp he with rfl | hrest'
      · exact .inr (.inr ⟨m', hm', (hsome m' hm').start hR hrest⟩)
      · exact ih m' hm' hrest hrest'

end InTurn

/-! ## The order of moments -/

namespace Moment.Reaches

variable {c d e : Moment}

/-- A ratchet holds from the start of a run to the start of each of its moments. -/
theorem start (hR : Ratchet R) (h : c.Reaches ctx d) : R c.start.machine d.start.machine := by
  induction h with
  | refl => exact hR.refl _
  | tail _ hstarts ih => exact hR.trans ih ((Moment.inTurn hR _).start hR (mem_parts.mpr hstarts))

/-- **A ratchet holds from the end of each moment of a run to the end of the run.** -/
theorem left (hR : Ratchet R) (h : c.Reaches ctx d) {m : Machine} (hc : c.left ctx = some m) :
    ∃ m', d.left ctx = some m' ∧ R m' m := by
  induction h with
  | refl => exact ⟨m, hc, hR.refl m⟩
  | @tail d e _ hstarts ih =>
    obtain ⟨m', hm', hR'⟩ := ih
    have hparts : InTurn ctx R d.start.machine (d.parts ctx) (d.left ctx) := Moment.inTurn hR d
    rw [hm'] at hparts
    obtain ⟨m'', hm'', hR''⟩ := hparts.left hR (mem_parts.mpr hstarts)
    exact ⟨m'', hm'', hR.trans hR'' hR'⟩

/-- **Of two moments of a run, one is part of the other, or one comes before the other.** -/
theorem nested_or_before (hR : Ratchet R) (hd : c.Reaches ctx d) (he : c.Reaches ctx e) :
    d.Reaches ctx e ∨ e.Reaches ctx d ∨ Before ctx R d e ∨ Before ctx R e d := by
  induction c using (starts_wf ctx).induction with
  | _ c ih =>
    rcases Relation.ReflTransGen.cases_head hd with rfl | ⟨p, hp, hpd⟩
    · exact .inl he
    rcases Relation.ReflTransGen.cases_head he with rfl | ⟨q, hq, hqe⟩
    · exact .inr (.inl hd)
    rcases (Moment.inTurn hR c).before hR (mem_parts.mpr hp) (mem_parts.mpr hq) with
      rfl | ⟨m, hm, hR'⟩ | ⟨m, hm, hR'⟩
    · exact ih p hp hpd hqe
    · obtain ⟨m', hm', hR''⟩ := left hR hpd hm
      exact .inr (.inr (.inl ⟨m', hm', hR.trans hR'' (hR.trans hR' (start hR hqe))⟩))
    · obtain ⟨m', hm', hR''⟩ := left hR hqe hm
      exact .inr (.inr (.inr ⟨m', hm', hR.trans hR'' (hR.trans hR' (start hR hpd))⟩))

end Moment.Reaches

end Order

end Imperative
