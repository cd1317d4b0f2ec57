import Imperative.Proofs.Bindings
import Imperative.Proofs.Evolution
import Imperative.Proofs.Modification
import Imperative.Proofs.Moments.Order

/-!
# Annotations are kept

An annotation is checked when a value arrives at a name: at a declaration, at an
assignment, at a parameter.  It is not checked again, although the objects that values
refer to go on changing, through whatever other handles there are to them, and although
the frame of the name may be out of reach at the time, below the frames of calls and
handlers.  This file shows that nothing more is needed: a binding that conforms to its
annotation conforms to it for as long as it exists.

A scope *conforms* to a heap if every annotated binding in each of its frames holds a value
that the annotation admits (`Scope.Conforms`).  Two facts make this a discipline,
`conformity`.  Conforming is kept when the heap grows, and evaluation does nothing else to
the heap (`Imperative.Proofs.Growth`); and every way to bind a name checks what it binds.
The result of a call is the other place where an annotation stands, and there the check is
the last thing that happens (`check_result_of_call`).

To conform would mean little if annotations got lost, and they do not.  A declaration, a
parameter and a turn of a loop over a range bind their name under its annotation
(`annotated_of_declare`, `Call.annotated_of_entry`, `Loop.range_annotates`), and from then
on the name is annotated so until it is declared anew: assignments leave the annotation
alone, and nothing else reaches the frame (`AnnotationsKept`).
-/

namespace Imperative

/-- A binding that is annotated holds a value that its annotation admits. -/
def Binding.Conforms (h : Heap) (b : Binding) : Prop :=
  ∀ t, b.ty = some t → h.check b.value t = .ok ()

/-- Every binding of a scope conforms, in all its frames. -/
def Scope.Conforms (h : Heap) (s : Scope) : Prop := s.All (Binding.Conforms h)

theorem Binding.conforms_of_checkTyped {h : Heap} {v : Value} {ty : Option Ty}
    (hc : h.checkTyped v ty = .ok ()) : Binding.Conforms h { value := v, ty } := by
  intro t ht
  cases ht
  exact hc

theorem Scope.Conforms.grows {h h' : Heap} {s : Scope} (hs : s.Conforms h) (hg : h.Grows h') :
    s.Conforms h' :=
  hs.imp fun _ hb t ht => hg.check (hb t ht)

/-! ## The discipline -/

/-- The discipline of keeping annotations. -/
def conformity : Discipline where
  Sound _ := True
  Keeps h s := s.Conforms h
  Holds _ _ := True
  Step m _ m' := m.heap.Grows m'.heap
  Allows _ := True
  Callable _ := True

theorem conformity_lawful (ctx : Context) : conformity.Lawful ctx :=
  { growth_lawful ctx with
    keeps_mono := fun hg hs => Scope.Conforms.grows hs hg
    holds_lookup := fun _ _ => trivial
    keeps_root := fun _ => Scope.all_root
    keeps_child := fun hs => Scope.All.child hs
    keeps_define := fun hs _ hc =>
      Scope.All.define hs (Binding.conforms_of_checkTyped hc) _ }

section Conformity

variable {ctx : Context} {fuel : Nat}

theorem conforms_of_body {body : List Stmt} {a b : Activation} {r : Except Exit Value}
    (ha : a.scope.Conforms a.machine.heap)
    (h : Stmt.execAll ctx (ctx.calls fuel) fuel .unit body a = some (r, b)) :
    b.scope.Conforms b.machine.heap :=
  (((conformity_lawful ctx).runs_body fuel (fun _ _ => trivial) ⟨trivial, ha⟩).ends h).1.keeps

theorem conforms_of_stmt {s : Stmt} {a b : Activation} {r : Except Exit Value}
    (ha : a.scope.Conforms a.machine.heap) (h : s.run ctx fuel a = some (r, b)) :
    b.scope.Conforms b.machine.heap :=
  (((conformity_lawful ctx).runs_run fuel (fun _ _ => trivial) ⟨trivial, ha⟩).ends h).1.keeps

/-- A call that succeeds has had its value checked, in the heap that it leaves. -/
theorem check_result_of_call {caller : Scope} {f : Function} {args : List Value}
    {m m' : Machine} {c : Completion} {t : Ty}
    (h : ctx.calls fuel caller f args m = some (.ok c, m')) (ht : f.result = some t) :
    m'.heap.check c.value t = .ok () := by
  cases fuel with
  | zero => cases h
  | succ fuel =>
    obtain ⟨scope, outcome, b, -, -, -, hcheck, rfl⟩ := Call.dispatch_eq_ok h
    rw [ht] at hcheck
    rw [Machine.heap_record, Machine.heap_leaveCall]
    exact hcheck

end Conformity

/-! ## What a host does -/

theorem conforms_of_runIn {i : Interpreter} {p : Program} {scope : Scope} {fuel : Nat}
    {ran : Interpreter.Ran} (hs : scope.Conforms i.machine.heap)
    (h : i.runIn fuel scope p = some ran) :
    ran.scope.Conforms ran.interpreter.machine.heap := by
  obtain ⟨b, hb, hscope, ⟨v, -, hm, -⟩ | ⟨e, -, hm, -⟩⟩ :=
    (conformity_lawful _).runIn (fun _ _ => trivial) trivial hs h
  · rw [hscope, hm]
    exact hb.keeps
  · rw [hscope, hm, Machine.heap_escape]
    exact hb.keeps

theorem check_result_of_complete {i i' : Interpreter} {name : String} {args : List Value}
    {fuel : Nat} {c : Completion} {f : Function} {t : Ty}
    (h : i.complete fuel name args = some (.ok c, i')) (hf : i.functions[name]? = some f)
    (ht : f.result = some t) : i'.machine.heap.check c.value t = .ok () := by
  obtain ⟨m, hrun, rfl⟩ := Interpreter.complete_eq_some hf h
  exact check_result_of_call hrun ht

/-- Every scope that a session keeps conforms to its heap. -/
def Session.Conforms (s : Session) : Prop := ∀ name, (s.scope name).Conforms s.heap

namespace Session

theorem Conforms.grows {s : Session} {i : Interpreter} (hs : s.Conforms)
    (hg : s.heap.Grows i.machine.heap) : Session.Conforms { s with interpreter := i } :=
  fun name => (hs name).grows hg

theorem Conforms.insert {s : Session} {i : Interpreter} {scope : Scope} (hs : s.Conforms)
    (hg : s.heap.Grows i.machine.heap) (hscope : scope.Conforms i.machine.heap) (name : String) :
    Session.Conforms { interpreter := i, scopes := s.scopes.insert name scope } := by
  intro other
  rw [scope_insert]
  split
  · exact hscope
  · exact hs.grows hg other

/-- Every command of a host that replaces no object keeps the scopes conforming. -/
theorem Conforms.performed {fuel : Nat} {s s' : Session} {command : Command} {reply : Reply}
    (hs : s.Conforms) (hcommand : ∀ r o, command ≠ .replace r o)
    (h : Performed fuel s command reply s') : s'.Conforms := by
  cases h with
  | declare f => exact hs
  | run hran => exact hs.insert (grows_ratchet.of_runIn hran) (conforms_of_runIn (hs _) hran) _
  | runAlone hran => exact hs.grows (grows_ratchet.of_runIn hran)
  | call hcomplete => exact hs.grows (grows_of_complete hcomplete)
  | complete hcomplete => exact hs.grows (grows_of_complete hcomplete)
  | store o => exact hs.grows (.alloc s.heap o)
  | replace o _ => exact absurd rfl (hcommand _ o)
  | refused o _ => exact hs
  | fetch r => exact hs
  | check v t => exact hs
  | ask _ _ => exact hs
  | copy source target => exact hs.insert (.refl s.heap) (hs source) target

theorem conforms_of_reachable {limits : Limits} {s : Session}
    (h : s.Reachable (fun _ command => ∀ r o, command ≠ .replace r o) limits) : s.Conforms := by
  refine Reachable.induct (P := Session.Conforms) ?_ (fun hs hc hp => hs.performed hc hp) h
  intro name
  rw [scope_start]
  exact Scope.all_root

end Session

/-! ## Where annotations come from -/

/-- The name is bound in the innermost frame, under the annotation, and to a value that the
annotation admits. -/
def Scope.Annotated (h : Heap) (s : Scope) (name : String) (t : Ty) : Prop :=
  ∃ v, s.own[name]? = some { value := v, ty := some t } ∧ h.check v t = .ok ()

theorem Scope.annotated_define {s : Scope} {h : Heap} {v : Value} {t : Ty}
    (hcheck : h.check v t = .ok ()) (name : String) :
    (s.define name { value := v, ty := some t }).Annotated h name t :=
  ⟨v, by rw [own_define, if_pos rfl], hcheck⟩

/-- A declaration that succeeds binds its name under its annotation. -/
theorem annotated_of_declare {ctx : Context} {fuel : Nat} {name : String} {t : Ty} {e : Expr}
    {a b : Activation} {v : Value}
    (h : (Stmt.declare name (some t) e).run ctx fuel a = some (.ok v, b)) :
    b.scope.Annotated b.machine.heap name t := by
  rw [Stmt.run, Stmt.exec] at h
  obtain ⟨x, c, -, hrest⟩ := Action.bind_eq_ok.mp h
  obtain ⟨u, d, hbind, hend⟩ := Action.bind_eq_ok.mp hrest
  cases hend
  clear h hrest
  simp only [Exec.rescope] at hbind
  split at hbind <;> cases hbind
  next s' hs =>
  obtain ⟨hcheck, rfl⟩ := Scope.declare_eq_ok_iff.mp hs
  exact Scope.annotated_define hcheck name

namespace Call

variable {h : Heap} {s s' : Scope}

theorem own_bind {ps : List Param} {args : List Value} {name : String}
    (hs : bind h ps args s = .ok s') (hname : ∀ p ∈ ps, p.name ≠ name) :
    s'.own[name]? = s.own[name]? := by
  induction ps generalizing args s with
  | nil =>
    rw [bind_no_params] at hs
    cases hs
    rfl
  | cons p ps ih =>
    cases args with
    | nil =>
      rw [bind_no_args] at hs
      cases hs
      rfl
    | cons v vs =>
      rw [bind] at hs
      split at hs
      · next s₁ hdeclare =>
        rw [ih hs fun q hq => hname q (List.mem_cons_of_mem p hq), Scope.declare_eq_ok hdeclare,
          Scope.own_define, if_neg (hname p List.mem_cons_self)]
      · cases hs

/-- A parameter is bound to its operand, unless a later one has the same name. -/
theorem own_bind_param {before after : List Param} {p : Param} {args : List Value}
    (hlength : (before ++ p :: after).length = args.length)
    (hs : bind h (before ++ p :: after) args s = .ok s') (hafter : ∀ q ∈ after, q.name ≠ p.name) :
    ∃ v, s'.own[p.name]? = some { value := v, ty := p.ty } ∧ h.checkTyped v p.ty = .ok () := by
  induction before generalizing args s with
  | nil =>
    cases args with
    | nil => cases hlength
    | cons v vs =>
      rw [List.nil_append, bind] at hs
      split at hs
      · next s₁ hdeclare =>
        obtain ⟨hcheck, rfl⟩ := Scope.declare_eq_ok_iff.mp hdeclare
        exact ⟨v, by rw [own_bind hs hafter, Scope.own_define, if_pos rfl], hcheck⟩
      · cases hs
  | cons q before ih =>
    cases args with
    | nil => cases hlength
    | cons v vs =>
      rw [List.cons_append, bind] at hs
      split at hs
      · exact ih (Nat.succ.inj hlength) hs
      · cases hs

/-- A call binds each parameter under its annotation, the last one if some have the same name. -/
theorem annotated_of_entry {ctx : Context} {caller scope : Scope} {f : Function}
    {args : List Value} {m : Machine} (hentry : entry ctx caller f args m = .ok scope)
    {before after : List Param} {p : Param} {t : Ty} (hp : f.params = before ++ p :: after)
    (hafter : ∀ q ∈ after, q.name ≠ p.name) (ht : p.ty = some t) :
    scope.Annotated m.heap p.name t := by
  obtain ⟨hlength, -, hbind⟩ := entry_eq_ok_iff.mp hentry
  rw [hp] at hlength hbind
  obtain ⟨v, hv, hcheck⟩ := own_bind_param hlength hbind hafter
  rw [ht] at hv hcheck
  exact ⟨v, hv, hcheck⟩

end Call

/-- A turn of a loop over a range that is admitted starts from where its name is bound to an integer,
under the annotation for integers. -/
theorem Loop.range_annotates {limits : Limits} {taken : Nat}
    (hturn : limits.admitTurn taken = .ok ()) (name : String) (body : Exec Bool) (left : Nat)
    (i : Int64) (a : Activation) :
    range limits name body (left + 1) taken i a =
      (do if ← body then range limits name body left (taken + 1) (i + 1) else pure () : Exec Unit)
        ⟨a.scope.define name { value := .int i, ty := some .int }, a.machine⟩ := by
  rw [range, hturn]
  rfl

/-! ## How long annotations stay -/

/-- What becomes of annotations from the one activation to the other, if the names in the list are
the only ones that are bound anew in the scope at hand. -/
structure AnnotationsKept (ts : List Target) (a b : Activation) : Prop where
  /-- The scope at hand goes on conforming, in the heap that there is now. -/
  conforms : a.scope.Conforms a.machine.heap → b.scope.Conforms b.machine.heap
  /-- So does every other scope, of callers and of whoever keeps one. -/
  others (other : Scope) : other.Conforms a.machine.heap → other.Conforms b.machine.heap
  /-- An annotated name stays annotated, and bound to a value that the annotation admits, until it is
  declared anew. -/
  annotated (name : String) (t : Ty) :
    a.scope.Conforms a.machine.heap → a.scope.Annotated a.machine.heap name t →
      .declared name ∉ ts → b.scope.Annotated b.machine.heap name t
  /-- The frames around the scope at hand are the same, with what is annotated there. -/
  outer : b.scope.outer = a.scope.outer

theorem Scope.Modified.annotationsKept {ts : List Target} {a b : Activation}
    (h : a.scope.Modified ts b.scope) (hgrows : a.machine.heap.Grows b.machine.heap)
    (hconforms : a.scope.Conforms a.machine.heap → b.scope.Conforms b.machine.heap) :
    AnnotationsKept ts a b where
  conforms := hconforms
  others _ ho := ho.grows hgrows
  annotated name t ha := by
    rintro ⟨v, hv, -⟩ hname
    have hty := h.annotated hname
    rw [hv, Option.map_some] at hty
    obtain ⟨⟨w, ty⟩, hw, rfl⟩ := Option.map_eq_some_iff.mp hty
    exact ⟨w, hw, hconforms ha b.scope.own List.mem_cons_self name _ hw t rfl⟩
  outer := h.outer

section Kept

variable {ctx : Context} {fuel : Nat}

theorem kept_of_stmt {s : Stmt} {a b : Activation} {r : Except Exit Value}
    (h : s.run ctx fuel a = some (r, b)) : AnnotationsKept s.targets a b :=
  (modified_of_stmt h).annotationsKept (grows_of_stmt h) fun ha => conforms_of_stmt ha h

theorem kept_of_body {body : List Stmt} {a b : Activation} {r : Except Exit Value}
    (h : Stmt.execAll ctx (ctx.calls fuel) fuel .unit body a = some (r, b)) :
    AnnotationsKept (Stmt.allTargets body) a b :=
  (modified_of_body h).annotationsKept (grows_of_body h) fun ha => conforms_of_body ha h

/-- Where a handler starts, the annotations are those that the guarded statements have left, and they
are in the frames around the one of the handler. -/
theorem kept_handlerStart? {body : List Stmt} {name : String} {a b : Activation} {scope : Scope}
    (h : Stmt.handlerStart? ctx fuel body name a = some (scope, b)) :
    AnnotationsKept (Stmt.allTargets body) a ⟨scope, b.machine⟩ ∧ b.scope.outer = scope.frames ∧
      (a.scope.Conforms a.machine.heap → b.scope.Conforms b.machine.heap) := by
  obtain ⟨hmodified, houter⟩ := modified_handlerStart? h
  have hgrows := grows_handlerStart? h
  have hconforms (ha : a.scope.Conforms a.machine.heap) : b.scope.Conforms b.machine.heap := by
    have hready : conformity.Ready a := ⟨trivial, ha⟩
    exact ((conformity_lawful ctx).handlerStart? trivial (fun _ _ => trivial) hready h).1.keeps
  refine ⟨hmodified.annotationsKept hgrows fun ha frame hframe => ?_, houter, hconforms⟩
  refine hconforms ha frame (List.mem_cons_of_mem _ ?_)
  rw [houter]
  exact hframe

theorem kept_of_runIn {i : Interpreter} {scope : Scope} {p : Program} {ran : Interpreter.Ran}
    (h : i.runIn fuel scope p = some ran) :
    AnnotationsKept (Stmt.allTargets p.statements) ⟨scope, i.machine⟩
      ⟨ran.scope, ran.interpreter.machine⟩ :=
  (modified_of_runIn h).annotationsKept (grows_of_runIn h) fun hs => conforms_of_runIn hs h

/-- All scopes conform at every moment of a run, if they do at the first one. -/
theorem conforms_of_reaches {c d : Moment} (h : c.Reaches ctx d)
    (hc : c.start.scope.Conforms c.start.machine.heap) :
    d.start.scope.Conforms d.start.machine.heap := by
  have hready : c.Ready conformity :=
    ⟨⟨trivial, hc⟩, fun _ _ => trivial, fun _ _ _ => trivial, fun _ _ => trivial⟩
  exact (hready.of_reaches (conformity_lawful ctx) h).start.keeps

end Kept

/-! ## Soundness of annotations -/

/-- **Annotations are kept.**  If every annotated binding of the scopes in use holds a value
that its annotation admits, then this is still so after anything has been evaluated, however
the evaluation ends: for the scope in which a statement or a body was executed, as that has
become, and for every other scope, in the heap that there is by then.  It is so as well at
every moment of the run: where the body of a call starts, where a handler starts, where a
turn of a loop starts.  A call that succeeds has a value that the annotation of its result
admits.  And it is so of all scopes of a session between its commands, as long as the host
replaces no object.

Annotations do not get lost, either.  A declaration that succeeds, the entry of a call and
each turn of a loop over a range bind their names under their annotations, and a name that
is annotated stays so, with a value that the annotation admits, until it is declared anew. -/
theorem annotations_kept (ctx : Context) (fuel : Nat) :
    (∀ (s : Stmt) (a b : Activation) (r : Except Exit Value),
      s.run ctx fuel a = some (r, b) → AnnotationsKept s.targets a b) ∧
    (∀ (body : List Stmt) (a b : Activation) (r : Except Exit Value),
      Stmt.execAll ctx (ctx.calls fuel) fuel .unit body a = some (r, b) →
        AnnotationsKept (Stmt.allTargets body) a b) ∧
    (∀ (e : Expr) (scope : Scope) (m m' : Machine) (r : Except Fault Value),
      e.run ctx fuel scope m = some (r, m') →
        ∀ other : Scope, other.Conforms m.heap → other.Conforms m'.heap) ∧
    (∀ (caller : Scope) (f : Function) (args : List Value) (m m' : Machine)
        (r : Except Fault Completion),
      ctx.calls fuel caller f args m = some (r, m') →
        (∀ other : Scope, other.Conforms m.heap → other.Conforms m'.heap) ∧
          ∀ c t, r = .ok c → f.result = some t → m'.heap.check c.value t = .ok ()) ∧
    (∀ (name : String) (t : Ty) (e : Expr) (a b : Activation) (v : Value),
      (Stmt.declare name (some t) e).run ctx fuel a = some (.ok v, b) →
        b.scope.Annotated b.machine.heap name t) ∧
    (∀ (caller scope : Scope) (f : Function) (args : List Value) (m : Machine),
      Call.entry ctx caller f args m = .ok scope →
        (caller.Conforms m.heap → scope.Conforms m.enterCall.heap) ∧
          ∀ before p after t, f.params = before ++ p :: after → (∀ q ∈ after, q.name ≠ p.name) →
            p.ty = some t → scope.Annotated m.enterCall.heap p.name t) ∧
    (∀ (name : String) (body : Exec Bool) (left taken : Nat) (i : Int64) (a : Activation),
      ctx.limits.admitTurn taken = .ok () →
        ∃ b : Activation, b.scope.Annotated b.machine.heap name .int ∧
          AnnotationsKept [.declared name] a b ∧
            Loop.range ctx.limits name body (left + 1) taken i a =
              (do
                if ← body then Loop.range ctx.limits name body left (taken + 1) (i + 1)
                else pure () : Exec Unit) b) ∧
    (∀ (body : List Stmt) (name : String) (a b : Activation) (scope : Scope),
      Stmt.handlerStart? ctx fuel body name a = some (scope, b) →
        AnnotationsKept (Stmt.allTargets body) a ⟨scope, b.machine⟩ ∧
          b.scope.outer = scope.frames ∧
            (a.scope.Conforms a.machine.heap → b.scope.Conforms b.machine.heap)) ∧
    (∀ c d : Moment, c.Reaches ctx d → c.start.scope.Conforms c.start.machine.heap →
      d.start.scope.Conforms d.start.machine.heap ∧
        ∀ other : Scope, other.Conforms c.start.machine.heap →
          other.Conforms d.start.machine.heap) ∧
    (∀ (i : Interpreter) (scope : Scope) (p : Program) (ran : Interpreter.Ran),
      i.runIn fuel scope p = some ran →
        AnnotationsKept (Stmt.allTargets p.statements) ⟨scope, i.machine⟩
          ⟨ran.scope, ran.interpreter.machine⟩) ∧
    (∀ (i i' : Interpreter) (name : String) (args : List Value) (r : Except Fault Completion),
      i.complete fuel name args = some (r, i') →
        (∀ other : Scope, other.Conforms i.machine.heap → other.Conforms i'.machine.heap) ∧
          ∀ c f t, r = .ok c → i.functions[name]? = some f → f.result = some t →
            i'.machine.heap.check c.value t = .ok ()) ∧
    (∀ (limits : Limits) (s : Session),
      s.Reachable (fun _ command => ∀ r o, command ≠ .replace r o) limits →
        ∀ name, (s.scope name).Conforms s.heap) := by
  refine ⟨?stmt, ?body, ?expr, ?call, ?declare, ?entry, ?turn, ?handler, ?moment, ?program, ?host,
    ?session⟩
  case stmt =>
    intro s a b r h
    exact kept_of_stmt h
  case body =>
    intro body a b r h
    exact kept_of_body h
  case expr =>
    intro e scope m m' r h other ho
    exact ho.grows (grows_of_expr h)
  case call =>
    intro caller f args m m' r h
    refine ⟨fun other ho => ho.grows (grows_of_call h), ?_⟩
    rintro c t rfl ht
    exact check_result_of_call h ht
  case declare =>
    intro name t e a b v h
    exact annotated_of_declare h
  case entry =>
    intro caller scope f args m h
    refine ⟨fun hs => ?_, fun before p after t => Call.annotated_of_entry h⟩
    have hargs : ∀ v ∈ args, conformity.Holds m.heap v := fun _ _ => trivial
    obtain ⟨-, hready⟩ := (conformity_lawful ctx).entry_ok trivial hs hargs h
    exact hready.keeps
  case turn =>
    intro name body left taken i a hturn
    refine ⟨_, Scope.annotated_define rfl name, ?_, Loop.range_annotates hturn name body left i a⟩
    refine (Scope.Modified.define (List.mem_singleton_self _) _).annotationsKept (.refl _) ?_
    intro ha
    exact Scope.All.define ha (Binding.conforms_of_checkTyped rfl) name
  case handler =>
    intro body name a b scope h
    exact kept_handlerStart? h
  case moment =>
    intro c d h hc
    exact ⟨conforms_of_reaches h hc, fun other ho => ho.grows (h.start grows_ratchet)⟩
  case program =>
    intro i scope p ran h
    exact kept_of_runIn h
  case host =>
    intro i i' name args r h
    refine ⟨fun other ho => ho.grows (grows_of_complete h), ?_⟩
    rintro c f t rfl hf ht
    exact check_result_of_complete h hf ht
  case session =>
    intro limits s h
    exact Session.conforms_of_reachable h

/-- A function from a list to its length, annotated on both ends. -/
def countItems : Function where
  name := "count"
  params := [⟨"items", some .list⟩]
  result := some .int
  body := [.ret (some (.call "len" [.ident "items"]))]

/-- The functions of the example. -/
def countingContext : Context where
  limits := {}
  functions := (∅ : Std.ExtTreeMap String Function).insert "count" countItems

/-- A list under an annotation. -/
def annotatedList : Stmt := .declare "xs" (some .list) (.list [.int 1])

/-- The list is extended through an alias, an assignment to the annotated name is refused, and a
function with annotations is called. -/
def aliasedList : Stmt :=
  .block [
    .declare "ys" none (.ident "xs"),
    .expr (.call "push" [.ident "ys", .text "s"]),
    .guarded [.assign "xs" (.int 3)] "e" [],
    .expr (.call "count" [.ident "xs"])]

/-- The name is annotated by its declaration, and is so still, with a list for its value, after the
object has been extended through an alias and an integer has been refused. -/
theorem annotations_kept_aliasedList :
    ∃ v a r b, annotatedList.run countingContext 3 ⟨.root, {}⟩ = some (.ok v, a) ∧
      aliasedList.run countingContext 3 a = some (r, b) ∧
        a.scope.Annotated a.machine.heap "xs" .list ∧
          b.scope.Conforms b.machine.heap ∧ b.scope.Annotated b.machine.heap "xs" .list := by
  have hsome : ((annotatedList.run countingContext 3 ⟨.root, {}⟩).bind fun p =>
      p.1.toOption.bind fun _ => aliasedList.run countingContext 3 p.2).isSome = true := by
    decide +kernel
  obtain ⟨⟨r, b⟩, hruns⟩ := Option.isSome_iff_exists.mp hsome
  obtain ⟨⟨o, a⟩, hdeclare, hrest⟩ := Option.bind_eq_some_iff.mp hruns
  obtain ⟨v, ho, hrun⟩ := Option.bind_eq_some_iff.mp hrest
  cases o with
  | error e => cases ho
  | ok w =>
    obtain ⟨hstmt, -, -, -, hdeclares, -⟩ := annotations_kept countingContext 3
    have hconforms := (hstmt _ _ _ _ hdeclare).conforms Scope.all_root
    have hannotated := hdeclares _ _ _ _ _ _ hdeclare
    have hkept := hstmt _ _ _ _ hrun
    exact ⟨w, a, r, b, hdeclare, hrun, hannotated, hkept.conforms hconforms,
      hkept.annotated _ _ hconforms hannotated (by decide)⟩

end Imperative
