import Imperative.Proofs.Evolution
import Imperative.Proofs.Frugality
import Imperative.Proofs.Moments.Order

/-!
# What is allocated

The heap and the two tables of shared objects grow together: an entry of a table is made with the
object that it names.  Objects that are in no table are made only by the four constructs that create
objects of their own.  So the number of objects, less the number of entries, never falls
(`Machine.unshared`), and in frugal code it never changes either.  There the heap gets no object but
those that the tables name, and once the tables have what the code names, it gets none at all.

The first half is a ratchet (`Machine.Accrues`).  For the second half, what has come about since
some machine is looked at as a property of the machine at hand (`Machine.AddsShared`,
`Machine.SameTables`), which frugal code keeps.
-/

namespace Imperative

open Imperative.Action

namespace Machine

/-- How many more objects there are than entries in the tables. -/
def unshared (m : Machine) : Int := m.heap.size - (m.texts.size + m.functionRefs.size)

/-- There is a shared object for this already. -/
def Stocks (m : Machine) (k : Shared) : Prop := m.shared? k ≠ none

/-- Neither the heap nor the tables have shrunk, no entry is gone, and there are at least as many
new objects as new entries. -/
structure Accrues (m m' : Machine) : Prop where
  objects : m.heap.size ≤ m'.heap.size
  texts : m.texts.size ≤ m'.texts.size
  functionRefs : m.functionRefs.size ≤ m'.functionRefs.size
  unshared : m.unshared ≤ m'.unshared
  stocks {k : Shared} : m.Stocks k → m'.Stocks k

/-- There are exactly as many new objects as new entries, and the new objects are the shared objects
that the tables name. -/
structure AddsShared (m m' : Machine) : Prop where
  unshared : m'.unshared = m.unshared
  fresh (r : Handle) : m.heap.size ≤ r.index → r.index < m'.heap.size →
    ∃ k, m'.shared? k = some r ∧ m'.heap.get? r = some k.object

/-- No entry has been made. -/
structure SameTables (m m' : Machine) : Prop where
  texts : m'.texts = m.texts
  functionRefs : m'.functionRefs = m.functionRefs

variable {m m' : Machine} {k : Shared}

/-! ## Making a shared object -/

/-- A table gets longer by an entry for what it had none for. -/
theorem size_insert_of_none {t : Std.ExtTreeMap String Handle} {s : String} (h : t[s]? = none)
    (r : Handle) : (t.insert s r).size = t.size + 1 := by
  have hnew : ¬ t.contains s = true := by
    rw [Std.ExtTreeMap.contains_eq_isSome_getElem?, h]
    exact Bool.false_ne_true
  exact Std.ExtTreeMap.size_insert.trans (if_neg hnew)

/-- A new shared object comes with a new entry. -/
theorem unshared_share (h : m.shared? k = none) : (m.share k).unshared = m.unshared := by
  cases k with
  | text s =>
    simp only [unshared, share, alloc, Heap.size_alloc, size_insert_of_none h]
    omega
  | function name =>
    simp only [unshared, share, alloc, Heap.size_alloc, size_insert_of_none h]
    omega

theorem unshared_intern (m : Machine) (k : Shared) : (m.intern k).2.unshared = m.unshared := by
  cases h : m.shared? k with
  | some r => rw [intern_of_some h]
  | none =>
    rw [intern_of_none h]
    exact unshared_share h

/-! ## What every run does -/

/-- The tables do not change, and objects are at most added. -/
theorem Accrues.of_tables (htexts : m'.texts = m.texts) (hrefs : m'.functionRefs = m.functionRefs)
    (hobjects : m.heap.size ≤ m'.heap.size) : m.Accrues m' where
  objects := hobjects
  texts := Nat.le_of_eq (congrArg Std.ExtTreeMap.size htexts.symm)
  functionRefs := Nat.le_of_eq (congrArg Std.ExtTreeMap.size hrefs.symm)
  unshared := by
    rw [Machine.unshared, Machine.unshared, htexts, hrefs]
    omega
  stocks h := by rwa [Stocks, shared?_eq htexts hrefs]

theorem accrues_share (h : m.shared? k = none) : m.Accrues (m.share k) := by
  have hobjects : m.heap.size ≤ (m.share k).heap.size := by
    rw [heap_share, Heap.size_alloc]
    exact Nat.le_succ _
  have hentries : m.texts.size ≤ (m.share k).texts.size ∧
      m.functionRefs.size ≤ (m.share k).functionRefs.size := by
    cases k with
    | text s =>
      exact ⟨Nat.le_trans (Nat.le_succ _) (Nat.le_of_eq (size_insert_of_none h _).symm),
        Nat.le_refl _⟩
    | function name =>
      exact ⟨Nat.le_refl _,
        Nat.le_trans (Nat.le_succ _) (Nat.le_of_eq (size_insert_of_none h _).symm)⟩
  have hunshared : m.unshared ≤ (m.share k).unshared := Int.le_of_eq (unshared_share h).symm
  refine ⟨hobjects, hentries.1, hentries.2, hunshared, fun {k'} hk' => ?_⟩
  rw [Stocks, shared?_share]
  split
  · exact Option.some_ne_none _
  · exact hk'

theorem accrues_intern (m : Machine) (k : Shared) : m.Accrues (m.intern k).2 := by
  cases h : m.shared? k with
  | some r =>
    rw [intern_of_some h]
    exact .of_tables rfl rfl (Nat.le_refl _)
  | none =>
    rw [intern_of_none h]
    exact accrues_share h

theorem accrues_ratchet : Ratchet Accrues where
  trans h₁ h₂ :=
    { objects := Nat.le_trans h₁.objects h₂.objects
      texts := Nat.le_trans h₁.texts h₂.texts
      functionRefs := Nat.le_trans h₁.functionRefs h₂.functionRefs
      unshared := Int.le_trans h₁.unshared h₂.unshared
      stocks := fun h => h₂.stocks (h₁.stocks h) }
  quiet hheap htexts hrefs := .of_tables htexts hrefs (Nat.le_of_eq (congrArg Heap.size hheap).symm)
  internText m text := m.accrues_intern (.text text)
  internFunction m name := m.accrues_intern (.function name)
  alloc m o := .of_tables rfl rfl (Heap.Grows.alloc m.heap o).size_le
  append m r v := .of_tables rfl rfl (Nat.le_of_eq (m.heap.size_append r v).symm)

/-! ## What frugal code does -/

theorem AddsShared.refl (m : Machine) : m.AddsShared m where
  unshared := rfl
  fresh _ hge hlt := absurd hlt (Nat.not_lt.mpr hge)

/-- A handle other than the last one names an object that was there before. -/
theorem lt_size_of_ne_next {h : Heap} {r : Handle} (hlt : r.index < h.size + 1)
    (hne : r ≠ h.next) : r.index < h.size := by
  refine Nat.lt_of_le_of_ne (Nat.le_of_lt_succ hlt) fun heq => hne ?_
  cases r
  exact congrArg Handle.mk heq

/-- All that is made in frugal code is shared. -/
theorem addsShared_kept (m : Machine) : Kept m.AddsShared fun _ => True where
  quiet {m₁ m₂} hheap htexts hrefs h := by
    refine ⟨?unshared, fun r hge hlt => ?fresh⟩
    case unshared => rw [← h.unshared, Machine.unshared, Machine.unshared, hheap, htexts, hrefs]
    case fresh =>
      rw [hheap] at hlt ⊢
      obtain ⟨k, hentry, hobject⟩ := h.fresh r hge hlt
      exact ⟨k, (shared?_eq htexts hrefs k).trans hentry, hobject⟩
  append {m₁} q v h := by
    refine ⟨?unshared, fun r hge hlt => ?fresh⟩
    case unshared => rw [← h.unshared, Machine.unshared, Machine.unshared, Heap.size_append]
    case fresh =>
      rw [Heap.size_append] at hlt
      obtain ⟨k, hentry, hobject⟩ := h.fresh r hge hlt
      refine ⟨k, (shared?_eq rfl rfl k).trans hentry, ?_⟩
      rw [Heap.get?_append, hobject, Option.map_some, k.append_object, ite_self]
  intern {m₁ k} _ h := by
    refine ⟨(m₁.unshared_intern k).trans h.unshared, fun r hge hlt => ?fresh⟩
    cases hk : m₁.shared? k with
    | some q =>
      rw [intern_of_some hk] at hlt ⊢
      exact h.fresh r hge hlt
    | none =>
      rw [intern_of_none hk] at hlt ⊢
      rw [heap_share, Heap.size_alloc] at hlt
      by_cases hr : r = m₁.heap.next
      · refine ⟨k, ?_, ?_⟩
        · rw [shared?_share, if_pos rfl, hr]
        · rw [heap_share, Heap.get?_alloc, if_pos hr]
      · obtain ⟨k', hentry, hobject⟩ := h.fresh r hge (lt_size_of_ne_next hlt hr)
        have hne : k ≠ k' := by
          rintro rfl
          rw [hk] at hentry
          cases hentry
        refine ⟨k', ?_, ?_⟩
        · rw [shared?_share, if_neg hne, hentry]
        · rw [heap_share, Heap.get?_alloc, if_neg hr, hobject]

theorem sameTables_kept (m : Machine) : Kept m.SameTables m.Stocks where
  quiet _ htexts hrefs h := ⟨htexts.trans h.texts, hrefs.trans h.functionRefs⟩
  append _ _ h := ⟨h.texts, h.functionRefs⟩
  intern {m₁ k} hk h := by
    rw [Stocks, ← shared?_eq h.texts h.functionRefs] at hk
    obtain ⟨r, hr⟩ := Option.ne_none_iff_exists'.mp hk
    rwa [intern_of_some hr]

/-- As many entries as before come with as many objects as before. -/
theorem AddsShared.size_eq (h : m.AddsShared m') (htables : m.SameTables m') :
    m'.heap.size = m.heap.size := by
  have hunshared := h.unshared
  rw [Machine.unshared, Machine.unshared, htables.texts, htables.functionRefs] at hunshared
  omega

end Machine

/-! ## Runs -/

/-- What a run from one machine to another one has allocated, for the code that is carried out in
it: the constructs that occur in the code, and the shared objects that it names. -/
structure Context.Accounts (ctx : Context) (has : Construct → Bool) (shared : List Shared)
    (m m' : Machine) : Prop where
  accrues : m.Accrues m'
  /-- If the code and all declared functions are frugal, then all that is new is shared. -/
  addsShared :
    ctx.Frugal (fun _ => True) → Imperative.Frugal ctx (fun _ => True) has shared →
      m.AddsShared m'
  /-- If there is also a shared object already for all that they name, then nothing is new. -/
  stands : ctx.Frugal m.Stocks → Imperative.Frugal ctx m.Stocks has shared →
    m'.heap.size = m.heap.size ∧ m.SameTables m' ∧ m.heap.Evolved m'.heap

section Runs

variable {ctx : Context} {has : Construct → Bool} {shared : List Shared} {m m' : Machine}

/-- What goes along ratchets, and keeps what frugal code keeps, accounts for its allocations. -/
theorem Context.accounts_of (hratchet : ∀ R, Ratchet R → R m m')
    (hkeeps : ∀ P wanted, Machine.Kept P wanted → ctx.Frugal wanted →
      Imperative.Frugal ctx wanted has shared → P m → P m') : ctx.Accounts has shared m m' := by
  have hadds : ctx.Frugal (fun _ => True) →
      Imperative.Frugal ctx (fun _ => True) has shared → m.AddsShared m' := fun hctx hcode =>
    hkeeps _ _ m.addsShared_kept hctx hcode (.refl m)
  refine ⟨hratchet _ Machine.accrues_ratchet, hadds, fun hctx hcode => ?_⟩
  have htables : m.SameTables m' := hkeeps _ _ m.sameTables_kept hctx hcode ⟨rfl, rfl⟩
  have hall := hadds (fun name f hf => (hctx name f hf).mono fun _ _ => trivial)
    (hcode.mono fun _ _ => trivial)
  exact ⟨hall.size_eq htables, htables, (hratchet _ grows_ratchet).evolved⟩

end Runs

/-- **Allocation is accounted for.**  Whatever is carried out, however it ends: neither the heap nor
the tables shrink, and at least as many objects are added to the heap as entries to the tables.

If no addition, no list expression, no index expression and no handler occurs in the code or in a
declared function, the two numbers are equal, and the new objects are those that the tables name;
loops and calls, pushes and failures make nothing.  If, moreover, there is a shared object already
for each text of a literal and each name of a function that occurs in them, then no object is made
at all, and no entry: all objects are where they were, and at most some lists have grown.

This is so for expressions, for statements and for bodies, for calls, for programs that a host runs,
and for functions that it calls. -/
theorem allocation_accounted (ctx : Context) (fuel : Nat) :
    (∀ (e : Expr) (scope : Scope) (m m' : Machine) (r : Except Fault Value),
      e.run ctx fuel scope m = some (r, m') → ctx.Accounts (e.has ·) e.shared m m') ∧
    (∀ (s : Stmt) (a b : Activation) (r : Except Exit Value), s.run ctx fuel a = some (r, b) →
      ctx.Accounts (s.has ·) s.shared a.machine b.machine) ∧
    (∀ (body : List Stmt) (last : Value) (a b : Activation) (r : Except Exit Value),
      Stmt.execAll ctx (ctx.calls fuel) fuel last body a = some (r, b) →
        ctx.Accounts (Stmt.anyHas · body) (Stmt.allShared body) a.machine b.machine) ∧
    (∀ (caller : Scope) (f : Function) (args : List Value) (m m' : Machine)
        (r : Except Fault Completion),
      ctx.calls fuel caller f args m = some (r, m') →
        ctx.Accounts (Stmt.anyHas · f.body) (Stmt.allShared f.body) m m') ∧
    (∀ (i : Interpreter) (scope : Scope) (p : Program) (ran : Interpreter.Ran),
      i.runIn fuel scope p = some ran →
        (i.declareAll p.functions).context.Accounts (Stmt.anyHas · p.statements)
          (Stmt.allShared p.statements) i.machine ran.interpreter.machine) ∧
    (∀ (i i' : Interpreter) (name : String) (args : List Value) (r : Except Fault Completion),
      i.complete fuel name args = some (r, i') →
        i.context.Accounts (fun _ => false) [] i.machine i'.machine) := by
  refine ⟨?expr, ?stmt, ?body, ?call, ?program, ?host⟩
  case expr =>
    intro e scope m m' r h
    refine Context.accounts_of (fun R hR => hR.of_expr h) fun P wanted H hctx hcode hm => ?_
    exact Expr.keeps_eval H (Context.keep_calls H hctx fuel) scope e hcode m r m' hm h
  case stmt =>
    intro s a b r h
    refine Context.accounts_of (fun R hR => hR.of_stmt h) fun P wanted H hctx hcode hm => ?_
    exact Stmt.keeps_exec H (Context.keep_calls H hctx fuel) fuel s hcode a r b hm h
  case body =>
    intro body last a b r h
    refine Context.accounts_of (fun R hR => hR.of_body h) fun P wanted H hctx hcode hm => ?_
    exact Stmt.keeps_execAll H (Context.keep_calls H hctx fuel) fuel body hcode last a r b hm h
  case call =>
    intro caller f args m m' r h
    refine Context.accounts_of (fun R hR => hR.of_call h) fun P wanted H hctx hcode hm => ?_
    exact Context.keeps_calls H hctx fuel hcode caller args m r m' hm h
  case program =>
    intro i scope p ran h
    refine Context.accounts_of (fun R hR => hR.of_runIn h) fun P wanted H hctx hcode hm => ?_
    exact Interpreter.keeps_runIn H hctx hcode h hm
  case host =>
    intro i i' name args r h
    refine Context.accounts_of (fun R hR => hR.of_complete h) fun P wanted H hctx hcode hm => ?_
    exact Interpreter.keeps_complete H hctx h hm

/-- A function that extends a list by a number, and goes on with the next lower one until zero,
where it fails. -/
def fills : Function where
  name := "fill"
  params := [{ name := "xs" }, { name := "n" }]
  body := [
    .expr (.call "push" [.ident "xs", .ident "n"]),
    .cond (.eq (.ident "n") (.int 0)) [.raise (.text "full")] [],
    .ret (some (.call "fill" [.ident "xs", .arith .sub (.ident "n") (.int 1)]))]

/-- An interpreter with the function, and with a list to fill. -/
def fillable : Interpreter :=
  { Interpreter.declare {} fills with machine := { heap := ⟨#[.list #[]]⟩ } }

/-- The function is frugal, and the text it fails with is all that it names. -/
theorem frugal_fillable {wanted : Shared → Prop} (h : wanted (.text "full")) :
    fillable.context.Frugal wanted := by
  intro name f hf
  cases Context.eq_of_single hf
  refine ⟨fun c hc => ?creates, fun k hk hdeclared => ?wants⟩
  case creates =>
    cases c with
    | push => cases hc
    | _ => rfl
  case wants =>
    have hnames : ∀ k ∈ Stmt.allShared fills.body,
        k = .text "full" ∨ k = .function "xs" ∨ k = .function "n" := by
      decide
    rcases hnames k hk with rfl | rfl | rfl
    · exact h
    · exact absurd hdeclared Bool.false_ne_true
    · exact absurd hdeclared Bool.false_ne_true

/-- The first call makes the text with which it fails, and an entry for it.  After that no call
makes anything, from whatever number it counts down. -/
theorem allocation_accounted_fills :
    ∃ r i₁, fillable.complete 5 "fill" [.ref ⟨0⟩, .int 3] = some (r, i₁) ∧
      i₁.machine.heap.size = 2 ∧ i₁.machine.unshared = fillable.machine.unshared ∧
      ∀ fuel n r' i₂, i₁.complete fuel "fill" [.ref ⟨0⟩, .int n] = some (r', i₂) →
        i₂.machine.heap.size = 2 := by
  have hfirst : (fillable.complete 5 "fill" [.ref ⟨0⟩, .int 3]).map
      (fun p => (p.2.machine.heap.size, (p.2.machine.shared? (.text "full")).isSome)) =
        some (2, true) := by
    decide +kernel
  obtain ⟨⟨r, i₁⟩, hcall, hmade⟩ := Option.map_eq_some_iff.mp hfirst
  obtain ⟨hsize, hstocked⟩ := Prod.mk.inj hmade
  obtain ⟨m, -, rfl⟩ := Interpreter.evaluate_eq_some hcall
  have hnothing : ∀ wanted, Frugal fillable.context wanted (fun _ => false) [] := fun wanted =>
    ⟨fun _ _ => rfl, fun _ hk => absurd hk List.not_mem_nil⟩
  have hadds := ((allocation_accounted {} 5).2.2.2.2.2 _ _ _ _ _ hcall).addsShared
    (frugal_fillable trivial) (hnothing _)
  refine ⟨r, _, hcall, hsize, hadds.unshared, fun fuel n r' i₂ hagain => ?_⟩
  have hstocks : m.Stocks (.text "full") := Option.isSome_iff_ne_none.mp hstocked
  have hstands := ((allocation_accounted {} fuel).2.2.2.2.2 _ _ _ _ _ hagain).stands
    (frugal_fillable hstocks) (hnothing _)
  exact hstands.1.trans hsize

end Imperative
