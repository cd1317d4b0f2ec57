import Imperative.Proofs.Discipline.Execution
import Imperative.Proofs.Sessions

/-!
# Ratchets

Some relations between machines hold from every machine to every one that comes after it, no matter
what is going on: they are preorders, and every change that a machine can undergo goes along them
(`Ratchet`).  That the heap only grows is such a relation, and so is everything that says "once this
is so, it stays so".

A ratchet asks for no hypothesis, neither about the code nor about the machine it starts from, and
so it is kept by whatever is carried out.  As a discipline it is `ratchet`.  It is kept by what
hosts do as well, as long as they replace no object (`Command.Respectful`, `Ratchet.of_later`).

Other relations hold only as long as nothing is called, that of having caught no return for one.
They are the interludes (`Interlude`), and every ratchet is one.  In a context without functions an
interlude is a discipline, too.  That is enough to say what operations on values do, since these
know nothing of functions.
-/

namespace Imperative

/-- A preorder of machines along which every change of a machine goes.  What is kept count of and
what is traced does not matter. -/
structure Ratchet (R : Machine → Machine → Prop) : Prop where
  trans {m₁ m₂ m₃ : Machine} : R m₁ m₂ → R m₂ m₃ → R m₁ m₃
  quiet {m m' : Machine} :
    m'.heap = m.heap → m'.texts = m.texts → m'.functionRefs = m.functionRefs → R m m'
  internText (m : Machine) (text : String) : R m (m.internText text).2
  internFunction (m : Machine) (name : String) : R m (m.internFunction name).2
  alloc (m : Machine) (o : Object) : R m (m.alloc o).2
  append (m : Machine) (r : Handle) (v : Value) : R m { m with heap := m.heap.append r v }

/-- The discipline of going along a relation. -/
def ratchet (R : Machine → Machine → Prop) : Discipline where
  Sound _ := True
  Keeps _ _ := True
  Holds _ _ := True
  Step m _ m' := R m m'
  Allows _ := True
  Callable _ := True

namespace Ratchet

variable {R : Machine → Machine → Prop}

theorem refl (hR : Ratchet R) (m : Machine) : R m m := hR.quiet rfl rfl rfl

theorem record (hR : Ratchet R) (m : Machine) (function : String) (c : Completion) :
    R m (m.record function c) := by
  cases c with
  | returned s => exact hR.quiet rfl rfl rfl
  | fellThrough v => exact hR.quiet rfl rfl rfl

theorem leaveLoop (hR : Ratchet R) {α : Type} (m : Machine) (r : Except Exit α) :
    R m (m.leaveLoop r) := by
  unfold Machine.leaveLoop
  split
  · exact hR.quiet rfl rfl rfl
  · exact hR.quiet rfl rfl rfl

theorem escape (hR : Ratchet R) (m : Machine) (e : Exit) : R m (m.escape e) := by
  cases e with
  | returned s => exact hR.quiet rfl rfl rfl
  | _ => exact hR.refl m

theorem lawful (hR : Ratchet R) (ctx : Context) : (ratchet R).Lawful ctx where
  refl m := hR.refl m
  trans h₁ h₂ := hR.trans h₁ h₂
  keeps_mono _ _ := trivial
  holds_mono _ _ := trivial
  holds_plain _ := trivial
  holds_lookup _ _ := trivial
  holds_item _ _ _ := trivial
  keeps_root _ := trivial
  keeps_child _ := trivial
  keeps_define _ _ _ := trivial
  internText {m} text _ := ⟨⟨trivial, hR.internText m text⟩, trivial⟩
  internFunction {m} name _ := ⟨⟨trivial, hR.internFunction m name⟩, trivial⟩
  alloc {m} _ o _ _ _ _ _ := ⟨⟨trivial, hR.alloc m o⟩, trivial⟩
  append {m} r _ v _ _ _ _ _ := ⟨trivial, hR.append m r v⟩
  raise {m} _ _ _ := hR.refl m
  dangling {m} _ _ _ _ := hR.refl m
  caught _ _ h := ⟨trivial, hR.trans h.2 (hR.quiet rfl rfl rfl)⟩
  turn _ h := h
  enterLoop _ := trivial
  leaveLoop {m m'} r _ h := by
    have henter : R m m.enterLoop := hR.quiet rfl rfl rfl
    exact ⟨trivial, hR.trans henter (hR.trans h.2 (hR.leaveLoop m' r))⟩
  enterCall _ _ := trivial
  complete {m m'} f c _ _ _ h := by
    have henter : R m m.enterCall := hR.quiet rfl rfl rfl
    have hleave : R m' m'.leaveCall := hR.quiet rfl rfl rfl
    have hrecord := hR.record m'.leaveCall f.name c
    exact ⟨trivial, hR.trans henter (hR.trans h.2 (hR.trans hleave hrecord))⟩
  abandon {m m'} _ _ _ _ _ _ _ h := by
    have henter : R m m.enterCall := hR.quiet rfl rfl rfl
    have hleave : R m' m'.leaveCall := hR.quiet rfl rfl rfl
    exact ⟨trivial, hR.trans henter (hR.trans h.2 hleave)⟩
  callable _ := trivial
  allows_body _ _ := trivial

end Ratchet

/-! ## Interludes -/

/-- A preorder of machines along which every change of a machine goes, except that a call takes note
of how its body has ended. -/
structure Interlude (R : Machine → Machine → Prop) : Prop where
  trans {m₁ m₂ m₃ : Machine} : R m₁ m₂ → R m₂ m₃ → R m₁ m₃
  count {m m' : Machine} :
    m'.heap = m.heap → m'.texts = m.texts → m'.functionRefs = m.functionRefs →
      m'.trace = m.trace → R m m'
  caught (m : Machine) (f : Fault) : R m (m.emit (.faultCaught f))
  leaveLoop (m : Machine) (r : Except Exit Value) : R m (m.leaveLoop r)
  internText (m : Machine) (text : String) : R m (m.internText text).2
  internFunction (m : Machine) (name : String) : R m (m.internFunction name).2
  alloc (m : Machine) (o : Object) : R m (m.alloc o).2
  append (m : Machine) (r : Handle) (v : Value) : R m { m with heap := m.heap.append r v }

/-- The discipline of going along a relation and calling nothing. -/
def interlude (R : Machine → Machine → Prop) : Discipline where
  Sound _ := True
  Keeps _ _ := True
  Holds _ _ := True
  Step m _ m' := R m m'
  Allows _ := True
  Callable _ := False

theorem Ratchet.interlude {R : Machine → Machine → Prop} (hR : Ratchet R) : Interlude R where
  trans := hR.trans
  count hheap htexts hrefs _ := hR.quiet hheap htexts hrefs
  caught _ _ := hR.quiet rfl rfl rfl
  leaveLoop := hR.leaveLoop
  internText := hR.internText
  internFunction := hR.internFunction
  alloc := hR.alloc
  append := hR.append

namespace Interlude

variable {R : Machine → Machine → Prop}

theorem refl (hR : Interlude R) (m : Machine) : R m m := hR.count rfl rfl rfl rfl

theorem lawful (hR : Interlude R) : (interlude R).Lawful ⟨{}, ∅⟩ where
  refl m := hR.refl m
  trans h₁ h₂ := hR.trans h₁ h₂
  keeps_mono _ _ := trivial
  holds_mono _ _ := trivial
  holds_plain _ := trivial
  holds_lookup _ _ := trivial
  holds_item _ _ _ := trivial
  keeps_root _ := trivial
  keeps_child _ := trivial
  keeps_define _ _ _ := trivial
  internText {m} text _ := ⟨⟨trivial, hR.internText m text⟩, trivial⟩
  internFunction {m} name _ := ⟨⟨trivial, hR.internFunction m name⟩, trivial⟩
  alloc {m} _ o _ _ _ _ _ := ⟨⟨trivial, hR.alloc m o⟩, trivial⟩
  append {m} r _ v _ _ _ _ _ := ⟨trivial, hR.append m r v⟩
  raise {m} _ _ _ := hR.refl m
  dangling {m} _ _ _ _ := hR.refl m
  caught {_ m' f} _ _ h := ⟨trivial, hR.trans h.2 (hR.caught m' f)⟩
  turn _ h := h
  enterLoop _ := trivial
  leaveLoop {m m'} r _ h := by
    have henter : R m m.enterLoop := hR.count rfl rfl rfl rfl
    exact ⟨trivial, hR.trans henter (hR.trans h.2 (hR.leaveLoop m' r))⟩
  enterCall _ _ := trivial
  complete hf _ _ _ := hf.elim
  abandon hf _ _ _ _ _ := hf.elim
  callable {name f} hf := by
    rw [Std.ExtTreeMap.getElem?_empty] at hf
    cases hf
  allows_body hf _ := hf.elim

end Interlude

/-! ## Hosts -/

/-- The command replaces no object. -/
def Command.Respectful (command : Command) : Prop := ∀ r o, command ≠ .replace r o

namespace Ratchet

variable {R : Machine → Machine → Prop} {fuel : Nat}

theorem of_runIn (hR : Ratchet R) {i : Interpreter} {scope : Scope} {p : Program}
    {ran : Interpreter.Ran} (h : i.runIn fuel scope p = some ran) :
    R i.machine ran.interpreter.machine := by
  obtain ⟨b, -, -, ⟨v, -, hm, hstep, -⟩ | ⟨e, -, hm, hstep⟩⟩ :=
    (hR.lawful _).runIn (fun _ _ => trivial) trivial trivial h
  · rw [hm]
    exact hstep
  · rw [hm]
    exact hR.trans hstep (hR.escape b.machine e)

theorem of_complete (hR : Ratchet R) {i i' : Interpreter} {name : String}
    {args : List Value} {r : Except Fault Completion}
    (h : i.complete fuel name args = some (r, i')) : R i.machine i'.machine :=
  ((hR.lawful _).complete_ends trivial (fun _ _ => trivial) h).2

theorem of_performed (hR : Ratchet R) {s s' : Session} {command : Command} {reply : Reply}
    (hcommand : command.Respectful) (h : Session.Performed fuel s command reply s') :
    R s.interpreter.machine s'.interpreter.machine := by
  cases h with
  | declare f => exact hR.refl _
  | run hran => exact hR.of_runIn hran
  | runAlone hran => exact hR.of_runIn hran
  | call hcomplete => exact hR.of_complete hcomplete
  | complete hcomplete => exact hR.of_complete hcomplete
  | store o => exact hR.alloc _ o
  | replace o _ => exact absurd rfl (hcommand _ o)
  | refused o _ => exact hR.refl _
  | fetch r => exact hR.refl _
  | check v t => exact hR.refl _
  | ask _ _ => exact hR.refl _
  | copy source target => exact hR.refl _

theorem of_later (hR : Ratchet R) {s s' : Session}
    (h : s.Later (fun _ command => command.Respectful) s') :
    R s.interpreter.machine s'.interpreter.machine := by
  induction h with
  | refl => exact hR.refl _
  | step _ hcommand hperform ih =>
    exact hR.trans ih (hR.of_performed hcommand (Session.performed_of_perform hperform))

end Ratchet

end Imperative
