import Imperative.Proofs.Moments.Order

/-!
# The points of a session

A session is a sequence of commands, and some of the commands carry something out.  What comes up
while the commands of a script are carried out, one after the other, are the points of the session
(`Session.Meets`): the moments of all its runs, in the contexts of these runs, which differ when
functions are declared in between.  The last command of a script need not come to an end.

Ratchets hold along sessions as well, as long as no command replaces an object, and so two points
of a session are in the same order as two moments of a run (`Session.Meets.nested_or_before`).
-/

namespace Imperative

/-! ## What is left to a host -/

section Hosts

variable {R : Machine → Machine → Prop} {fuel : Nat}

/-- The run of a program leaves what the execution of its statements leaves. -/
theorem Program.left_exec (ctx : Context) (body : List Stmt) (s : Activation) :
    Action.left Activation.machine (Program.exec ctx fuel body s) =
      Moment.left ctx ⟨fuel, .execAll .unit body, s⟩ := by
  rw [Moment.left_execAll]
  cases body with
  | nil => rfl
  | cons t rest => exact Exec.left_map some _ s

theorem Ratchet.left_of_runIn (hR : Ratchet R) {i : Interpreter} {scope : Scope} {p : Program}
    {ran : Interpreter.Ran} (h : i.runIn fuel scope p = some ran) :
    ∃ m, Moment.left (i.declareAll p.functions).context
        ⟨fuel, .execAll .unit p.statements, ⟨scope, i.machine⟩⟩ = some m ∧
      R m ran.interpreter.machine := by
  rw [← Program.left_exec]
  rcases Interpreter.execute_eq_some h with ⟨v, b, hrun, rfl⟩ | ⟨e, b, hrun, rfl⟩
  all_goals rw [Interpreter.machine_declareAll] at hrun; rw [hrun]
  · exact ⟨b.machine, rfl, hR.refl _⟩
  · exact ⟨b.machine, rfl, hR.escape b.machine e⟩

theorem Ratchet.left_of_complete (hR : Ratchet R) {i i' : Interpreter} {name : String}
    {f : Function} {args : List Value} {r : Except Fault Completion}
    (hf : i.functions[name]? = some f) (h : i.complete fuel name args = some (r, i')) :
    ∃ m, Moment.left i.context ⟨fuel, .call f args, ⟨.root, i.machine⟩⟩ = some m ∧
      R m i'.machine := by
  obtain ⟨m, hrun, rfl⟩ := Interpreter.complete_eq_some hf h
  rw [Moment.left_call, hrun]
  exact ⟨m, rfl, hR.refl m⟩

end Hosts

/-! ## Points -/

namespace Session

/-- What a command carries out, and in which context, if it carries anything out. -/
def moment? (s : Session) (fuel : Nat) : Command → Option (Context × Moment)
  | .run p name =>
    some ((s.interpreter.declareAll p.functions).context,
      ⟨fuel, .execAll .unit p.statements, ⟨s.scope name, s.interpreter.machine⟩⟩)
  | .runAlone p =>
    some ((s.interpreter.declareAll p.functions).context,
      ⟨fuel, .execAll .unit p.statements, ⟨.root, s.interpreter.machine⟩⟩)
  | .call name args | .complete name args =>
    s.interpreter.functions[name]?.map fun f =>
      (s.interpreter.context, ⟨fuel, .call f args, ⟨.root, s.interpreter.machine⟩⟩)
  | _ => none

/-- A moment comes up while a script is carried out from a session: commands with amounts of fuel,
each of them in the session that the ones before have left. -/
inductive Meets : Session → List (Nat × Command) → Context → Moment → Prop where
  | now {s : Session} {fuel : Nat} {command : Command} {rest : List (Nat × Command)}
      {ctx : Context} {c d : Moment} :
    s.moment? fuel command = some (ctx, c) → c.Reaches ctx d →
      Meets s ((fuel, command) :: rest) ctx d
  | later {s s' : Session} {fuel : Nat} {command : Command} {reply : Reply}
      {rest : List (Nat × Command)} {ctx : Context} {d : Moment} :
    s.perform fuel command = some (reply, s') → Meets s' rest ctx d →
      Meets s ((fuel, command) :: rest) ctx d

section Points

variable {R : Machine → Machine → Prop} {s s' : Session} {fuel : Nat} {command : Command}
  {reply : Reply} {ctx : Context} {c : Moment}

/-- What a command carries out starts from the machine that the host holds. -/
theorem machine_of_moment? (h : s.moment? fuel command = some (ctx, c)) :
    c.start.machine = s.interpreter.machine := by
  cases command with
  | run p name | runAlone p =>
    cases h
    rfl
  | call name args | complete name args =>
    obtain ⟨f, -, he⟩ := Option.map_eq_some_iff.mp h
    cases he
    rfl
  | _ => cases h

theorem moment?_of_asks (h : command.asks = true) : s.moment? fuel command = none := by
  cases command with
  | run p name | runAlone p | call name args | complete name args => cases h
  | _ => rfl

/-- If a command is answered, then what it carries out has ended. -/
theorem left_of_perform (hR : Ratchet R) (hc : s.moment? fuel command = some (ctx, c))
    (h : s.perform fuel command = some (reply, s')) :
    ∃ m, c.left ctx = some m ∧ R m s'.interpreter.machine := by
  cases performed_of_perform h with
  | run hran =>
    cases hc
    exact hR.left_of_runIn hran
  | runAlone hran =>
    cases hc
    exact hR.left_of_runIn hran
  | call hcomplete | complete hcomplete =>
    obtain ⟨f, hf, he⟩ := Option.map_eq_some_iff.mp hc
    cases he
    exact hR.left_of_complete hf hcomplete
  | ask hasks _ =>
    rw [moment?_of_asks hasks] at hc
    cases hc
  | _ => cases hc

namespace Meets

variable {script : List (Nat × Command)} {ctx' : Context} {d e : Moment}

/-- **A ratchet holds from the start of a script to each point of it**, if no command of the
script replaces an object. -/
theorem start (hR : Ratchet R) (hscript : ∀ p ∈ script, p.2.Respectful)
    (h : s.Meets script ctx d) : R s.interpreter.machine d.start.machine := by
  induction h with
  | now hc hd =>
    rw [← machine_of_moment? hc]
    exact hd.start hR
  | later hperform _ ih =>
    have hfirst := hR.of_performed (hscript _ List.mem_cons_self) (performed_of_perform hperform)
    exact hR.trans hfirst (ih fun p hp => hscript p (List.mem_cons_of_mem _ hp))

/-- What comes up in the first command comes before what comes up in the later ones. -/
theorem before (hR : Ratchet R) (hscript : ∀ p ∈ script, p.2.Respectful)
    (hc : s.moment? fuel command = some (ctx, c)) (hd : c.Reaches ctx d)
    (hperform : s.perform fuel command = some (reply, s')) (he : s'.Meets script ctx' e) :
    Moment.Before ctx R d e := by
  obtain ⟨m, hm, hend⟩ := left_of_perform hR hc hperform
  obtain ⟨m', hm', hrest⟩ := hd.left hR hm
  exact ⟨m', hm', hR.trans hrest (hR.trans hend (he.start hR hscript))⟩

/-- **Of two points of a session, one is part of the other, or one comes before the other**, if
no command replaces an object. -/
theorem nested_or_before (hR : Ratchet R) (hscript : ∀ p ∈ script, p.2.Respectful)
    (hd : s.Meets script ctx d) (he : s.Meets script ctx' e) :
    (ctx = ctx' ∧ (d.Reaches ctx e ∨ e.Reaches ctx d)) ∨
      Moment.Before ctx R d e ∨ Moment.Before ctx' R e d := by
  induction hd with
  | now hc hd =>
    have hrest := fun p hp => hscript p (List.mem_cons_of_mem _ hp)
    cases he with
    | now hc' he =>
      rw [hc] at hc'
      cases hc'
      rcases hd.nested_or_before hR he with h | h | h | h
      · exact .inl ⟨rfl, .inl h⟩
      · exact .inl ⟨rfl, .inr h⟩
      · exact .inr (.inl h)
      · exact .inr (.inr h)
    | later hperform he => exact .inr (.inl (before hR hrest hc hd hperform he))
  | later hperform hd ih =>
    have hrest := fun p hp => hscript p (List.mem_cons_of_mem _ hp)
    cases he with
    | now hc he => exact .inr (.inr (before hR hrest hc he hperform hd))
    | later hperform' he =>
      rw [hperform] at hperform'
      cases hperform'
      exact ih hrest he

end Meets

end Points

end Session

end Imperative
