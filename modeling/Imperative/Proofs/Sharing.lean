import Imperative.Proofs.Moments.Points

/-!
# Shared objects

A string literal and the name of a function denote objects that are made when they are evaluated
for the first time and shared by all evaluations to come.  Which object it is says a table, and the
object itself lies in the heap with all the others, where a program can reach it.  The tables are
right about the heap (`Machine.Interned`): what they name for a text is a string with that text,
what they name for a function is a function object of that name, and no object is named twice.

Programs cannot change this.  A string or a function object is not extended by what extends lists,
new objects get handles that are in no table, and a table is only ever extended.  So it is kept
by whatever a machine undergoes, and an entry stays (`Machine.Remembers`, a ratchet).  Of two
evaluations of one literal, at any two points of a session, one comes before the other, and so both
yield the same handle (`sharing_permanent`).
-/

namespace Imperative

/-! ## What is shared -/

/-- What objects are shared under: the text of a literal, or the name of a function. -/
inductive Shared where
  | text (s : String)
  | function (name : String)
deriving DecidableEq

namespace Shared

/-- The object that is shared. -/
def object : Shared → Object
  | .text s => .string s
  | .function name => .function name

/-- The expression that yields the shared object. -/
def expr : Shared → Expr
  | .text s => .text s
  | .function name => .ident name

/-- The expression denotes the shared object: a name has to be that of a function and of no
variable. -/
def Visible (ctx : Context) (scope : Scope) : Shared → Prop
  | .text _ => True
  | .function name => scope.lookup name = none ∧ ctx.functions.contains name = true

theorem append_object (k : Shared) (v : Value) : Object.append v k.object = k.object := by
  cases k <;> rfl

end Shared

namespace Machine

/-- The handle of the shared object, if there is one yet. -/
def shared? (m : Machine) : Shared → Option Handle
  | .text s => m.texts[s]?
  | .function name => m.functionRefs[name]?

/-- The shared object, created on first use. -/
def intern (m : Machine) : Shared → Value × Machine
  | .text s => m.internText s
  | .function name => m.internFunction name

/-- A new shared object and its entry. -/
def share (m : Machine) (k : Shared) : Machine :=
  match k with
  | .text s => { (m.alloc k.object).2 with texts := m.texts.insert s m.heap.next }
  | .function name =>
    { (m.alloc k.object).2 with functionRefs := m.functionRefs.insert name m.heap.next }

variable {m m' : Machine} {k : Shared} {r : Handle}

theorem shared?_eq (htexts : m'.texts = m.texts) (hrefs : m'.functionRefs = m.functionRefs)
    (k : Shared) : m'.shared? k = m.shared? k := by
  cases k with
  | text s => rw [shared?, htexts, shared?]
  | function name => rw [shared?, hrefs, shared?]

theorem intern_of_some (h : m.shared? k = some r) : m.intern k = (.ref r, m) := by
  cases k with
  | text s =>
    rw [shared?] at h
    rw [intern, internText, h]
  | function name =>
    rw [shared?] at h
    rw [intern, internFunction, h]

theorem intern_of_none (h : m.shared? k = none) : m.intern k = (.ref m.heap.next, m.share k) := by
  cases k with
  | text s =>
    rw [shared?] at h
    rw [intern, internText, h]
    rfl
  | function name =>
    rw [shared?] at h
    rw [intern, internFunction, h]
    rfl

theorem heap_share (m : Machine) (k : Shared) : (m.share k).heap = m.heap.alloc k.object := by
  cases k <;> rfl

/-- One entry is made, and all others are left as they are. -/
theorem shared?_share (m : Machine) (k k' : Shared) :
    (m.share k).shared? k' = if k = k' then some m.heap.next else m.shared? k' := by
  cases k <;> cases k' <;> simp [share, shared?, alloc, Std.ExtTreeMap.getElem?_insert]

/-- What is yielded is in the table from then on. -/
theorem intern_eq (m : Machine) (k : Shared) :
    ∃ r, (m.intern k).1 = .ref r ∧ (m.intern k).2.shared? k = some r := by
  cases h : m.shared? k with
  | some r =>
    rw [intern_of_some h]
    exact ⟨r, rfl, h⟩
  | none =>
    rw [intern_of_none h]
    refine ⟨m.heap.next, rfl, ?_⟩
    rw [shared?_share, if_pos rfl]

/-- An entry of the tables is not changed. -/
theorem shared?_intern_of_some {k' : Shared} (h : m.shared? k' = some r) :
    (m.intern k).2.shared? k' = some r := by
  cases hk : m.shared? k with
  | some q => rwa [intern_of_some hk]
  | none =>
    have hne : k ≠ k' := by
      rintro rfl
      rw [hk] at h
      cases h
    rw [intern_of_none hk, shared?_share, if_neg hne, h]

/-! ## The tables are right about the heap -/

/-- The tables name the objects that they are to name, and no object twice. -/
structure Interned (m : Machine) : Prop where
  object {k : Shared} {r : Handle} : m.shared? k = some r → m.heap.get? r = some k.object
  distinct {k k' : Shared} {r : Handle} : m.shared? k = some r → m.shared? k' = some r → k = k'

theorem interned_empty : ({} : Machine).Interned := by
  have hnone : ∀ k, ({} : Machine).shared? k = none := by
    intro k
    cases k <;> exact Std.ExtTreeMap.getElem?_empty
  refine ⟨fun {k r} h => ?_, fun {k k' r} h _ => ?_⟩
  all_goals rw [hnone] at h; cases h

namespace Interned

/-- With the same tables, only the objects that are named have to stay. -/
theorem of_tables (hm : m.Interned) (htexts : m'.texts = m.texts)
    (hrefs : m'.functionRefs = m.functionRefs)
    (hobject : ∀ {k r}, m.heap.get? r = some (Shared.object k) → m.shared? k = some r →
      m'.heap.get? r = some k.object) : m'.Interned where
  object {k r} h := by
    rw [shared?_eq htexts hrefs] at h
    exact hobject (hm.object h) h
  distinct {k k' r} h h' := by
    rw [shared?_eq htexts hrefs] at h h'
    exact hm.distinct h h'

/-- The handle of the next object is in no table. -/
theorem ne_next (hm : m.Interned) (h : m.shared? k = some r) : r ≠ m.heap.next := by
  rintro rfl
  have hobject := hm.object h
  rw [Heap.get?_next] at hobject
  cases hobject

theorem get?_alloc (hm : m.Interned) (o : Object) (h : m.shared? k = some r) :
    (m.heap.alloc o).get? r = some k.object := by
  rw [Heap.get?_alloc, if_neg (hm.ne_next h)]
  exact hm.object h

theorem alloc (hm : m.Interned) (o : Object) : (m.alloc o).2.Interned :=
  hm.of_tables rfl rfl fun _ h => hm.get?_alloc o h

theorem share (hm : m.Interned) (k : Shared) : (m.share k).Interned where
  object {k₁ r} h := by
    rw [heap_share]
    rw [shared?_share] at h
    split at h
    · next heq =>
      cases h
      rw [Heap.get?_alloc, if_pos rfl, heq]
    · exact hm.get?_alloc k.object h
  distinct {k₁ k₂ r} h₁ h₂ := by
    -- the new handle is in no table, so two entries with one handle are both new or both old
    rw [shared?_share] at h₁ h₂
    split at h₁
    · next heq =>
      cases h₁
      split at h₂
      · next heq' => rw [← heq, heq']
      · exact absurd rfl (hm.ne_next h₂)
    · split at h₂
      · cases h₂
        exact absurd rfl (hm.ne_next h₁)
      · exact hm.distinct h₁ h₂

theorem intern (hm : m.Interned) (k : Shared) : (m.intern k).2.Interned := by
  cases hk : m.shared? k with
  | some q => rwa [intern_of_some hk]
  | none =>
    rw [intern_of_none hk]
    exact hm.share k

/-- Only lists are extended, and no shared object is one. -/
theorem append (hm : m.Interned) (q : Handle) (v : Value) :
    Machine.Interned { m with heap := m.heap.append q v } := by
  refine hm.of_tables rfl rfl fun {k r} hr _ => ?_
  change (m.heap.append q v).get? r = some k.object
  rw [Heap.get?_append, hr, Option.map_some, k.append_object, ite_self]

end Interned

/-! ## Entries stay -/

/-- From one machine to a later one the entries of the tables stay, and the tables stay right. -/
structure Remembers (m m' : Machine) : Prop where
  entry {k : Shared} {r : Handle} : m.shared? k = some r → m'.shared? k = some r
  interned : m.Interned → m'.Interned

theorem Remembers.intern (m : Machine) (k : Shared) : m.Remembers (m.intern k).2 :=
  ⟨shared?_intern_of_some, fun hm => hm.intern k⟩

theorem Remembers.of_tables (htexts : m'.texts = m.texts)
    (hrefs : m'.functionRefs = m.functionRefs) (h : m.Interned → m'.Interned) : m.Remembers m' :=
  ⟨(shared?_eq htexts hrefs _).trans, h⟩

theorem remembers_ratchet : Ratchet Remembers where
  trans h₁ h₂ := ⟨fun h => h₂.entry (h₁.entry h), fun hm => h₂.interned (h₁.interned hm)⟩
  quiet hheap htexts hrefs := by
    refine .of_tables htexts hrefs fun hm => hm.of_tables htexts hrefs fun hr _ => ?_
    rwa [hheap]
  internText m text := .intern m (.text text)
  internFunction m name := .intern m (.function name)
  alloc m o := .of_tables rfl rfl fun hm => hm.alloc o
  append m q v := .of_tables rfl rfl fun hm => hm.append q v

end Machine

/-! ## Evaluations -/

theorem Shared.expr_injective : Function.Injective Shared.expr := by
  intro k k' h
  cases k <;> cases k' <;> cases h <;> rfl

theorem Shared.run_expr {ctx : Context} {scope : Scope} {k : Shared} (hk : k.Visible ctx scope)
    (fuel : Nat) (m : Machine) :
    k.expr.run ctx fuel scope m = some (.ok (m.intern k).1, (m.intern k).2) := by
  cases k with
  | text s => rfl
  | function name =>
    obtain ⟨hlookup, hdeclared⟩ := hk
    rw [expr, Expr.run, Expr.eval, Context.valueOf, hlookup]
    dsimp only
    rw [if_pos hdeclared]
    rfl

namespace Moment

/-- The moment is the evaluation of an expression that denotes a shared object. -/
structure Denotes (ctx : Context) (c : Moment) (k : Shared) : Prop where
  task : c.task = .eval k.expr
  visible : k.Visible ctx c.start.scope

/-- The evaluation succeeds with a handle, which is the one in the table from then on, and the
object there is the one that is to be shared. -/
def Yields (ctx : Context) (c : Moment) (k : Shared) (r : Handle) : Prop :=
  ∃ m, k.expr.run ctx c.fuel c.start.scope c.start.machine = some (.ok (.ref r), m) ∧
    m.shared? k = some r ∧ m.heap.get? r = some k.object

namespace Denotes

variable {ctx ctx' : Context} {d e : Moment} {k k' : Shared} {r : Handle}

theorem left (h : d.Denotes ctx k) : d.left ctx = some (d.start.machine.intern k).2 := by
  obtain ⟨fuel, task, s⟩ := d
  obtain ⟨rfl, hvisible⟩ := h
  rw [left_eval, Shared.run_expr hvisible]
  rfl

/-- An evaluation of this kind has no parts. -/
theorem parts_eq_nil (h : d.Denotes ctx k) : d.parts ctx = [] := by
  obtain ⟨fuel, task, s⟩ := d
  obtain ⟨rfl, -⟩ := h
  cases k <;> rfl

theorem eq_of_reaches (h : d.Denotes ctx k) (he : d.Reaches ctx e) : e = d := by
  rcases Relation.ReflTransGen.cases_head he with rfl | ⟨p, hp, -⟩
  · rfl
  · have hpart := mem_parts.mpr hp
    rw [h.parts_eq_nil] at hpart
    cases hpart

theorem unique (h : d.Denotes ctx k) (h' : d.Denotes ctx' k') : k = k' := by
  have htask := h.task
  rw [h'.task] at htask
  exact Shared.expr_injective (Task.eval.inj htask).symm

theorem yields (h : d.Denotes ctx k) (hm : d.start.machine.Interned)
    (hr : (d.start.machine.intern k).2.shared? k = some r) : d.Yields ctx k r := by
  obtain ⟨q, hvalue, hentry⟩ := d.start.machine.intern_eq k
  rw [hentry] at hr
  cases hr
  refine ⟨_, ?_, hentry, (hm.intern k).object hentry⟩
  rw [Shared.run_expr h.visible, hvalue]

/-- What is evaluated first makes the entry, if it is not there yet, and what is evaluated
later finds it. -/
theorem yields_of_before (hd : d.Denotes ctx k) (he : e.Denotes ctx' k')
    (hm : d.start.machine.Interned) (h : Before ctx Machine.Remembers d e) :
    ∃ r r', d.Yields ctx k r ∧ e.Yields ctx' k' r' ∧ (r = r' ↔ k = k') := by
  obtain ⟨m, hleft, hkept⟩ := h
  rw [hd.left] at hleft
  cases hleft
  -- the entry is made by the end of the first evaluation, and it stays until the second one
  have hm' := hkept.interned (hm.intern k)
  obtain ⟨r, -, hr⟩ := d.start.machine.intern_eq k
  obtain ⟨r', -, hr'⟩ := e.start.machine.intern_eq k'
  have hstill := Machine.shared?_intern_of_some (k := k') (hkept.entry hr)
  refine ⟨r, r', hd.yields hm hr, he.yields hm' hr', fun heq => ?_, fun heq => ?_⟩
  · subst heq
    exact (hm'.intern k').distinct hstill hr'
  · subst heq
    rw [hstill] at hr'
    exact Option.some.inj hr'

end Denotes

end Moment

/-! ## Sessions -/

namespace Session

variable {limits : Limits} {script : List (Nat × Command)} {ctx ctx' : Context} {d e : Moment}
  {k k' : Shared}

theorem interned_of_reachable {s : Session}
    (h : s.Reachable (fun _ command => command.Respectful) limits) :
    s.interpreter.machine.Interned := by
  refine h.induct (P := fun s => s.interpreter.machine.Interned) Machine.interned_empty ?_
  intro s s' fuel command reply hs hcommand hperform
  exact (Machine.remembers_ratchet.of_performed hcommand hperform).interned hs

theorem Meets.interned (hscript : ∀ p ∈ script, p.2.Respectful)
    (h : (Session.start limits).Meets script ctx d) : d.start.machine.Interned :=
  (h.start Machine.remembers_ratchet hscript).interned Machine.interned_empty

/-- Two evaluations of the same literal yield the same handle, and two of different ones do not. -/
theorem Meets.yields (hscript : ∀ p ∈ script, p.2.Respectful)
    (hd : (Session.start limits).Meets script ctx d)
    (he : (Session.start limits).Meets script ctx' e) (hk : d.Denotes ctx k)
    (hk' : e.Denotes ctx' k') :
    ∃ r r', d.Yields ctx k r ∧ e.Yields ctx' k' r' ∧ (r = r' ↔ k = k') := by
  have hone : ∀ {ctx' : Context}, d.Denotes ctx' k' →
      ∃ r r', d.Yields ctx k r ∧ d.Yields ctx' k' r' ∧ (r = r' ↔ k = k') := by
    intro ctx' hk'
    cases hk.unique hk'
    obtain ⟨r, -, hr⟩ := d.start.machine.intern_eq k
    have hm := hd.interned hscript
    exact ⟨r, r, hk.yields hm hr, hk'.yields hm hr, iff_of_true rfl rfl⟩
  rcases hd.nested_or_before Machine.remembers_ratchet hscript he with
    ⟨rfl, hreach | hreach⟩ | hbefore | hbefore
  · cases hk.eq_of_reaches hreach
    exact hone hk'
  · cases hk'.eq_of_reaches hreach
    exact hone hk'
  · exact hk.yields_of_before hk' (hd.interned hscript) hbefore
  · obtain ⟨r', r, hr', hr, hiff⟩ := hk'.yields_of_before hk (he.interned hscript) hbefore
    exact ⟨r, r', hr, hr', eq_comm.trans (hiff.trans eq_comm)⟩

end Session

/-- **Sharing is sound and permanent.**  In every session that comes about without a command that
replaces an object, the tables name the objects that they are to name, and no object twice; in
every later session the entries are still there.  The same holds inside of runs, from the start of
a run to the start of each moment, from there to its end, and from there to the end of the run; and
of all points of a session, whatever has failed or has been declared anew in between.  Hence two
evaluations, at any two points of a session, of a string literal or of the name of a function that
no variable has, succeed; they yield the same handle exactly if it is the same text or the same
function; and the object at the handle is the string or the function. -/
theorem sharing_permanent (limits : Limits) :
    (∀ s : Session, s.Reachable (fun _ command => command.Respectful) limits →
      s.interpreter.machine.Interned) ∧
    (∀ s s' : Session, s.Later (fun _ command => command.Respectful) s' →
      s.interpreter.machine.Remembers s'.interpreter.machine) ∧
    (∀ (ctx : Context) (c d : Moment), c.Reaches ctx d →
      c.start.machine.Remembers d.start.machine ∧
        (∀ m, d.left ctx = some m → d.start.machine.Remembers m) ∧
        ∀ m, c.left ctx = some m → ∃ m', d.left ctx = some m' ∧ m'.Remembers m) ∧
    (∀ script : List (Nat × Command), (∀ p ∈ script, p.2.Respectful) →
      (∀ (ctx : Context) (d : Moment), (Session.start limits).Meets script ctx d →
        d.start.machine.Interned ∧ ∀ m, d.left ctx = some m → m.Interned) ∧
      ∀ (ctx ctx' : Context) (d e : Moment) (k k' : Shared),
        (Session.start limits).Meets script ctx d → (Session.start limits).Meets script ctx' e →
          d.Denotes ctx k → e.Denotes ctx' k' →
            ∃ r r', d.Yields ctx k r ∧ e.Yields ctx' k' r' ∧ (r = r' ↔ k = k')) := by
  have hR := Machine.remembers_ratchet
  refine ⟨?session, ?later, ?moment, fun script hscript => ⟨?point, ?evaluation⟩⟩
  case session =>
    intro s hs
    exact Session.interned_of_reachable hs
  case later =>
    intro s s' h
    exact hR.of_later h
  case moment =>
    intro ctx c d h
    exact ⟨h.start hR, fun m hm => Moment.of_left hR hm, fun m hm => h.left hR hm⟩
  case point =>
    intro ctx d h
    have hstart := h.interned hscript
    exact ⟨hstart, fun m hm => (Moment.of_left hR hm).interned hstart⟩
  case evaluation =>
    intro ctx ctx' d e k k' hd he hk hk'
    exact hd.yields hscript he hk hk'

/-- A function that yields itself. -/
def itself : Function where
  name := "itself"
  params := []
  body := [.expr (.ident "itself")]

/-- Puts the function into a list, extends the list by it, and then fails. -/
def fillsAndFails : Program where
  items := [
    .statement (.declare "xs" none (.list [.ident "itself"])),
    .statement (.expr (.call "push" [.ident "xs", .call "itself" []])),
    .statement (.raise (.text "itself"))]

/-- After the failure the function is declared anew, and named again. -/
def failsBetween : List (Nat × Command) := [
  (1, .declare itself),
  (1, .run fillsAndFails "main"),
  (1, .declare { itself with body := [] }),
  (1, .runAlone ⟨[.statement (.expr (.ident "itself"))]⟩)]

/-- The evaluation in the list and the one at the end yield the same handle. -/
theorem sharing_permanent_failsBetween :
    ∃ ctx ctx' d e r, (Session.start {}).Meets failsBetween ctx d ∧
      (Session.start {}).Meets failsBetween ctx' e ∧ d.Yields ctx (.function "itself") r ∧
        e.Yields ctx' (.function "itself") r := by
  let s₁ : Session := { interpreter := Interpreter.declare {} itself }
  have hrun : (s₁.perform 1 (.run fillsAndFails "main")).isSome = true := by decide +kernel
  obtain ⟨⟨reply, s₂⟩, hrun⟩ := Option.isSome_iff_exists.mp hrun
  let s₃ : Session := { s₂ with interpreter := s₂.interpreter.declare { itself with body := [] } }
  have hfirst : (Session.start {}).perform 1 (.declare itself) = some (.done, s₁) := rfl
  have hagain : s₂.perform 1 (.declare { itself with body := [] }) = some (.done, s₃) := rfl
  let d : Moment := ⟨1, .eval (.ident "itself"), ⟨s₁.scope "main", {}⟩⟩
  let e : Moment := ⟨1, .eval (.ident "itself"), ⟨.root, s₃.interpreter.machine⟩⟩
  have hd : (Session.start {}).Meets failsBetween s₁.interpreter.context d := by
    refine .later hfirst (.now rfl ?_)
    exact .tail (.tail (.tail (.tail .refl .head) (.operand rfl)) .elements) .firstOf
  have he : (Session.start {}).Meets failsBetween s₃.interpreter.context e := by
    refine .later hfirst (.later hrun (.later hagain (.now rfl ?_)))
    exact .tail (.tail .refl .head) (.operand rfl)
  have hscript : ∀ p ∈ failsBetween, p.2.Respectful := by
    intro p hp r o
    simp only [failsBetween, List.mem_cons, List.not_mem_nil, or_false] at hp
    rcases hp with rfl | rfl | rfl | rfl <;> exact Command.noConfusion
  have hk : d.Denotes s₁.interpreter.context (.function "itself") :=
    ⟨rfl, by decide, by decide⟩
  have hk' : e.Denotes s₃.interpreter.context (.function "itself") :=
    ⟨rfl, Scope.lookup_root _, Std.ExtTreeMap.contains_insert_self⟩
  obtain ⟨r, r', hr, hr', hiff⟩ :=
    ((sharing_permanent {}).2.2.2 failsBetween hscript).2 _ _ d e _ _ hd he hk hk'
  cases hiff.mpr rfl
  exact ⟨_, _, d, e, r, hd, he, hr, hr'⟩

end Imperative
