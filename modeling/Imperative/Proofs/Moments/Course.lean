import Imperative.Proofs.Moments.Points

/-!
# The course of a session

The timeline of a run lists the moments of the run as they come up.  The timelines of the runs of a
session, one after the other, list the points of the session, and in the same order
(`Session.course`).  So "later in the session" means "further on in the course": in the same run, in
the run of a later command, or in the run of the last command, which need not come to an end.

If one point comes after another one, then it belongs to a part of the other one, or the other one
has ended before (`Session.part_or_before_of_course`).  And what has been declared stays declared,
under whatever body (`Session.declared_of_course`).
-/

namespace Imperative

/-! ## Two items of a list, in order -/

section Pairs

variable {α β : Type} {a b : α}

theorem pair_sublist_append {l l' : List α} (h : [a, b].Sublist (l ++ l')) :
    [a, b].Sublist l ∨ (a ∈ l ∧ b ∈ l') ∨ [a, b].Sublist l' := by
  obtain ⟨first, second, hpair, hfirst, hsecond⟩ := List.sublist_append_iff.mp h
  match first, hpair with
  | [], hpair =>
    cases hpair
    exact .inr (.inr hsecond)
  | [_], hpair =>
    cases hpair
    exact .inr (.inl ⟨List.singleton_sublist.mp hfirst, List.singleton_sublist.mp hsecond⟩)
  | [_, _], hpair =>
    cases hpair
    exact .inl hfirst

theorem pair_sublist_flatMap {f : β → List α} {l : List β} (h : [a, b].Sublist (l.flatMap f)) :
    (∃ x ∈ l, [a, b].Sublist (f x)) ∨ ∃ x y, [x, y].Sublist l ∧ a ∈ f x ∧ b ∈ f y := by
  induction l with
  | nil => cases h
  | cons x rest ih =>
    rw [List.flatMap_cons] at h
    rcases pair_sublist_append h with h | ⟨ha, hb⟩ | h
    · exact .inl ⟨x, List.mem_cons_self, h⟩
    · obtain ⟨y, hy, hb⟩ := List.mem_flatMap.mp hb
      exact .inr ⟨x, y, (List.singleton_sublist.mpr hy).cons_cons x, ha, hb⟩
    · rcases ih h with ⟨y, hy, h⟩ | ⟨y, z, hyz, ha, hb⟩
      · exact .inl ⟨y, List.mem_cons_of_mem x hy, h⟩
      · exact .inr ⟨y, z, hyz.cons x, ha, hb⟩

theorem pair_sublist_map {f : β → α} {l : List β} (h : [a, b].Sublist (l.map f)) :
    ∃ x y, [x, y].Sublist l ∧ f x = a ∧ f y = b := by
  obtain ⟨pair, hpair, heq⟩ := List.sublist_map_iff.mp h
  match pair, heq with
  | [x, y], heq =>
    cases heq
    exact ⟨x, y, hpair, rfl, rfl⟩

end Pairs

/-! ## In the same run -/

section Runs

variable {ctx : Context} {R : Machine → Machine → Prop} {d e : Moment}

/-- Of two parts, the one that is carried out first has ended when the other one starts. -/
theorem InTurn.before_of_sublist (hR : Ratchet R) {m : Machine} {ds : List Moment}
    {out : Option Machine} (h : InTurn ctx R m ds out) (hde : [d, e].Sublist ds) :
    Moment.Before ctx R d e := by
  induction h with
  | done _ => cases hde
  | part hstart hsome hnone ih =>
    cases hde with
    | cons _ hde =>
      have hrest := List.ne_nil_of_mem (hde.subset List.mem_cons_self)
      obtain ⟨m', hm', -⟩ := left_of_rest hR hstart hnone (.inl hrest)
      exact ih m' hm' hde
    | cons_cons _ he =>
      have he := List.singleton_sublist.mp he
      obtain ⟨m', hm', -⟩ := left_of_rest hR hstart hnone (.inl (List.ne_nil_of_mem he))
      exact ⟨m', hm', (hsome m' hm').start hR he⟩

/-- What comes further on in a timeline belongs to a part of what comes first, or starts when that
has ended. -/
theorem Moment.part_or_before (hR : Ratchet R) {c : Moment}
    (h : [d, e].Sublist (c.timeline ctx)) :
    (∃ p ∈ d.parts ctx, p.Reaches ctx e) ∨ Before ctx R d e := by
  induction c using (starts_wf ctx).induction with
  | _ c ih =>
    rw [timeline_eq] at h
    cases h with
    | cons _ h =>
      rcases pair_sublist_flatMap h with ⟨p, hp, h⟩ | ⟨p, q, hpq, hd, he⟩
      · exact ih p (mem_parts.mp hp) h
      · obtain ⟨m, hm, hstart⟩ := (Moment.inTurn hR c).before_of_sublist hR hpq
        obtain ⟨m', hm', hrest⟩ := (mem_timeline.mp hd).left hR hm
        exact .inr ⟨m', hm', hR.trans hrest (hR.trans hstart ((mem_timeline.mp he).start hR))⟩
    | cons_cons _ he =>
      obtain ⟨p, hp, he⟩ := List.mem_flatMap.mp (List.singleton_sublist.mp he)
      exact .inl ⟨p, hp, mem_timeline.mp he⟩

end Runs

/-! ## In the same session -/

namespace Session

/-- The points of a session while it carries out one command. -/
noncomputable def points (s : Session) (fuel : Nat) (command : Command) :
    List (Context × Moment) :=
  match s.moment? fuel command with
  | some (ctx, c) => (c.timeline ctx).map fun d => (ctx, d)
  | none => []

/-- The points of a session as they come up, from one command to the next.  After a command that is
not answered there are no more. -/
noncomputable def course (s : Session) : List (Nat × Command) → List (Context × Moment)
  | [] => []
  | (fuel, command) :: rest =>
    s.points fuel command ++
      match s.perform fuel command with
      | some (_, s') => s'.course rest
      | none => []

section Course

variable {R : Machine → Machine → Prop} {s s' : Session} {fuel : Nat} {command : Command}
  {reply : Reply} {script : List (Nat × Command)} {ctx ctx' : Context} {d e : Moment}

theorem mem_points :
    (ctx, d) ∈ s.points fuel command ↔ ∃ c, s.moment? fuel command = some (ctx, c) ∧
      c.Reaches ctx d := by
  unfold points
  split
  · next ctx' c hc =>
    simp only [List.mem_map, Prod.mk.injEq, hc, Option.some.injEq]
    constructor
    · rintro ⟨d', hd, rfl, rfl⟩
      exact ⟨c, ⟨rfl, rfl⟩, Moment.mem_timeline.mp hd⟩
    · rintro ⟨c', ⟨rfl, rfl⟩, hd⟩
      exact ⟨d, Moment.mem_timeline.mpr hd, rfl, rfl⟩
  · next hnone => simp [hnone]

/-- The course of a session consists of its points. -/
theorem mem_course : (ctx, d) ∈ s.course script ↔ s.Meets script ctx d := by
  induction script generalizing s with
  | nil => exact iff_of_false List.not_mem_nil fun h => by cases h
  | cons p rest ih =>
    obtain ⟨fuel, command⟩ := p
    rw [course, List.mem_append, mem_points]
    constructor
    · rintro (⟨c, hc, hd⟩ | h)
      · exact .now hc hd
      · split at h
        · next reply s' hperform => exact .later hperform (ih.mp h)
        · cases h
    · intro h
      cases h with
      | now hc hd => exact .inl ⟨_, hc, hd⟩
      | later hperform h =>
        rw [hperform]
        exact .inr (ih.mpr h)

/-- Two points in order: they come up in the same command, or the first one comes up in a command
and the other one after it, or both come up later. -/
theorem course_cons {rest : List (Nat × Command)} :
    [(ctx, d), (ctx', e)].Sublist (s.course ((fuel, command) :: rest)) ↔
      (ctx = ctx' ∧ ∃ c, s.moment? fuel command = some (ctx, c) ∧
        [d, e].Sublist (c.timeline ctx)) ∨
      ∃ reply s', s.perform fuel command = some (reply, s') ∧
        ((∃ c, s.moment? fuel command = some (ctx, c) ∧ c.Reaches ctx d ∧ s'.Meets rest ctx' e) ∨
          [(ctx, d), (ctx', e)].Sublist (s'.course rest)) := by
  rw [course]
  constructor
  · intro h
    rcases pair_sublist_append h with h | ⟨hd, he⟩ | h
    · unfold points at h
      split at h
      · next ctx₀ c hc =>
        obtain ⟨x, y, hpair, hx, hy⟩ := pair_sublist_map h
        cases hx
        cases hy
        exact .inl ⟨rfl, c, hc, hpair⟩
      · cases h
    · obtain ⟨c, hc, hd⟩ := mem_points.mp hd
      split at he
      · next reply s' hperform =>
        exact .inr ⟨reply, s', hperform, .inl ⟨c, hc, hd, mem_course.mp he⟩⟩
      · cases he
    · split at h
      · next reply s' hperform => exact .inr ⟨reply, s', hperform, .inr h⟩
      · cases h
  · rintro (⟨rfl, c, hc, h⟩ | ⟨reply, s', hperform, ⟨c, hc, hd, he⟩ | h⟩)
    · rw [points, hc]
      exact (h.map fun d => (ctx, d)).trans (List.sublist_append_left _ _)
    · rw [hperform]
      exact (List.singleton_sublist.mpr (mem_points.mpr ⟨c, hc, hd⟩)).append
        (List.singleton_sublist.mpr (mem_course.mpr he))
    · rw [hperform]
      exact h.trans (List.sublist_append_right _ _)

/-- **Of two points of a session, the one that comes up later belongs to a part of the other one, or
the other one has ended before**, if no command replaces an object. -/
theorem part_or_before_of_course (hR : Ratchet R) (hscript : ∀ p ∈ script, p.2.Respectful)
    (h : [(ctx, d), (ctx', e)].Sublist (s.course script)) :
    (ctx = ctx' ∧ ∃ p ∈ d.parts ctx, p.Reaches ctx e) ∨ Moment.Before ctx R d e := by
  induction script generalizing s with
  | nil => cases h
  | cons p rest ih =>
    have hrest := fun q hq => hscript q (List.mem_cons_of_mem p hq)
    rcases course_cons.mp h with ⟨rfl, c, -, h⟩ | ⟨reply, s', hperform, ⟨c, hc, hd, he⟩ | h⟩
    · exact (Moment.part_or_before hR h).imp_left fun h => ⟨rfl, h⟩
    · exact .inr (Meets.before hR hrest hc hd hperform he)
    · exact ih hrest h

end Course

end Session

/-! ## What has been declared -/

namespace Interpreter

variable {i : Interpreter} {name : String}

theorem declared_declareAll (fs : List Function) (h : i.functions.contains name = true) :
    (i.declareAll fs).functions.contains name = true := by
  induction fs generalizing i with
  | nil => exact h
  | cons f fs ih =>
    have hdeclare : (i.declare f).functions.contains name = true := by
      rw [declare, Std.ExtTreeMap.contains_insert, h, Bool.or_true]
    rw [declareAll, List.foldl_cons]
    exact ih hdeclare

/-- A run declares what the program declares, and nothing else. -/
theorem context_runIn {fuel : Nat} {scope : Scope} {p : Program} {ran : Ran}
    (h : i.runIn fuel scope p = some ran) :
    ran.interpreter.context = (i.declareAll p.functions).context := by
  rcases execute_eq_some h with ⟨v, b, -, rfl⟩ | ⟨e, b, -, rfl⟩
  · rfl
  · rfl

theorem context_complete {fuel : Nat} {i' : Interpreter} {args : List Value}
    {r : Except Fault Completion} (h : i.complete fuel name args = some (r, i')) :
    i'.context = i.context := by
  obtain ⟨m, -, rfl⟩ := evaluate_eq_some h
  rfl

end Interpreter

namespace Session

section Declared

variable {s s' : Session} {fuel : Nat} {command : Command} {reply : Reply}
  {script : List (Nat × Command)} {ctx ctx' : Context} {c d e : Moment} {name : String}

/-- What a command is carried out under is what it leaves. -/
theorem context_of_perform (hc : s.moment? fuel command = some (ctx, c))
    (h : s.perform fuel command = some (reply, s')) : s'.interpreter.context = ctx := by
  cases performed_of_perform h with
  | run hran | runAlone hran =>
    cases hc
    exact Interpreter.context_runIn hran
  | call hcomplete | complete hcomplete =>
    obtain ⟨f, -, he⟩ := Option.map_eq_some_iff.mp hc
    cases he
    exact Interpreter.context_complete hcomplete
  | ask hasks _ =>
    rw [moment?_of_asks hasks] at hc
    cases hc
  | _ => cases hc

theorem declared_of_moment? (hc : s.moment? fuel command = some (ctx, c))
    (h : s.interpreter.functions.contains name = true) : ctx.functions.contains name = true := by
  cases command with
  | run p scope | runAlone p =>
    cases hc
    exact Interpreter.declared_declareAll p.functions h
  | call f args | complete f args =>
    obtain ⟨g, -, he⟩ := Option.map_eq_some_iff.mp hc
    cases he
    exact h
  | _ => cases hc

theorem declared_of_perform (hperform : s.perform fuel command = some (reply, s'))
    (h : s.interpreter.functions.contains name = true) :
    s'.interpreter.functions.contains name = true := by
  cases hc : s.moment? fuel command with
  | some p =>
    obtain ⟨ctx, c⟩ := p
    have hctx := declared_of_moment? hc h
    rwa [← context_of_perform hc hperform] at hctx
  | none =>
    cases performed_of_perform hperform with
    | declare f => exact Interpreter.declared_declareAll [f] h
    | run _ | runAlone _ => cases hc
    | call hcomplete | complete hcomplete =>
      obtain ⟨m, -, rfl⟩ := Interpreter.evaluate_eq_some hcomplete
      exact h
    | _ => exact h

theorem Meets.declared (hmeets : s.Meets script ctx d)
    (h : s.interpreter.functions.contains name = true) : ctx.functions.contains name = true := by
  induction hmeets with
  | now hc _ => exact declared_of_moment? hc h
  | later hperform _ ih => exact ih (declared_of_perform hperform h)

/-- **What has been declared stays declared.** -/
theorem declared_of_course (hcourse : [(ctx, d), (ctx', e)].Sublist (s.course script))
    (h : ctx.functions.contains name = true) : ctx'.functions.contains name = true := by
  induction script generalizing s with
  | nil => cases hcourse
  | cons p rest ih =>
    rcases course_cons.mp hcourse with ⟨rfl, -⟩ | ⟨reply, s', hperform, ⟨c, hc, -, he⟩ | hrest⟩
    · exact h
    · refine he.declared ?_
      have hctx := context_of_perform hc hperform
      rwa [← hctx] at h
    · exact ih hrest

end Declared

end Session

end Imperative
