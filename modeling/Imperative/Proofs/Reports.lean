import Imperative.Proofs.Workload
import Imperative.Throughput.Measurement
import Mathlib.Data.List.Basic
import Mathlib.Data.List.Induction

/-!
# What a report says

A measurement checks itself.  It stops when a run fails, and it stops when a run has not caught as
many returns as it should have.  Neither happens, on any host whose watch does nothing but watch
(`LawfulHost`): a run of a workload yields the number that is expected of it (`settle_run`), so all
that a host contributes to a result is times.

What is left of a measurement is then `survey`, which has no way to fail, and whose type says what
it finds: for each kind in turn one entry, and in each entry what the options say (`Findings`).
Which kinds these are is settled before anything is run.  They are the kinds that were asked for,
each of them once, and in the order of the places where they are named first (`mem_distinct`,
`pairwise_distinct`).
-/

namespace Imperative
namespace Throughput

/-! ## Kinds -/

/-- The kinds of a list without repetitions. -/
def distinct (ks : List Kind) : List Kind :=
  ks.foldl (fun found k => if k ∈ found then found else found ++ [k]) []

theorem Options.selected_of_kinds {o : Options} (h : o.kinds ≠ []) :
    o.selected = distinct o.kinds :=
  if_neg (mt List.isEmpty_iff.mp h)

theorem distinct_concat (ks : List Kind) (k : Kind) :
    distinct (ks ++ [k]) = if k ∈ distinct ks then distinct ks else distinct ks ++ [k] :=
  List.foldl_concat _ _ _ _

theorem mem_distinct {ks : List Kind} {j : Kind} : j ∈ distinct ks ↔ j ∈ ks := by
  induction ks using List.reverseRecOn with
  | nil => exact Iff.rfl
  | append_singleton ks k ih =>
    rw [distinct_concat, List.mem_append, List.mem_singleton]
    split
    · next hk =>
      rw [ih]
      refine ⟨.inl, fun h => h.elim id ?_⟩
      rintro rfl
      exact ih.mp hk
    · rw [List.mem_append, List.mem_singleton, ih]

/-- Each kind stands at the place where it is named first. -/
theorem pairwise_distinct (ks : List Kind) :
    (distinct ks).Pairwise fun j k => ks.idxOf j < ks.idxOf k := by
  induction ks using List.reverseRecOn with
  | nil => exact .nil
  | append_singleton ks k ih =>
    -- What is added behind does not move the first place of what has been named already.
    have hold : (distinct ks).Pairwise fun i j => (ks ++ [k]).idxOf i < (ks ++ [k]).idxOf j := by
      refine ih.imp_of_mem fun hi hj hlt => ?_
      rwa [List.idxOf_append, if_pos (mem_distinct.mp hi), List.idxOf_append,
        if_pos (mem_distinct.mp hj)]
    rw [distinct_concat]
    split
    · exact hold
    · next hk =>
      refine List.pairwise_append.mpr ⟨hold, List.pairwise_singleton _ _, fun j hj j' hj' => ?_⟩
      obtain rfl := List.mem_singleton.mp hj'
      rw [List.idxOf_append, if_pos (mem_distinct.mp hj), List.idxOf_append,
        if_neg (mt mem_distinct.mpr hk)]
      exact Nat.lt_add_left _ (List.idxOf_lt_length_of_mem (mem_distinct.mp hj))

theorem nodup_distinct (ks : List Kind) : (distinct ks).Nodup := by
  refine (pairwise_distinct ks).imp fun hlt => ?_
  rintro rfl
  exact Nat.lt_irrefl _ hlt

/-! ## Runs -/

theorem Workload.run_eq_expected (w : Workload) : w.run = some (.ok w.expected) := by
  obtain ⟨m, hrun, hm⟩ := w.runIn_program (w.expected + 1) (by omega)
  have hcaught : m.tally.returns w.kind = w.expected := by rw [hm.returns, if_pos rfl]
  rw [run, Interpreter.run, fuel, hrun, ← hcaught]
  rfl

theorem settle_run (w : Workload) : settle w.run = .ok w.expected := by
  rw [w.run_eq_expected]
  rfl

theorem warmUp_succ (w : Workload) (runs : Nat) :
    warmUp w (runs + 1) =
      match settle w.run with
      | .ok _ => warmUp w runs
      | .error f => .error f := by
  -- Not by unfolding, which would set out to run the workload.
  rfl

theorem warmUp_eq (w : Workload) (runs : Nat) : warmUp w runs = .ok () := by
  induction runs with
  | zero => rfl
  | succ runs ih =>
    rw [warmUp_succ, settle_run]
    exact ih

/-! ## Findings -/

/-- What the options say about an entry, whatever was read from the watch. -/
structure Entry.Fits (e : Entry) (o : Options) : Prop where
  iterations : e.iterations = o.iterations.toNat
  calls : e.calls = o.calls
  depth : e.depth = o.depth.toNat
  caught : (e.caught : Int) = if 0 < o.iterations then max o.calls.toInt 0 else 0

/-- What is found about kinds: one entry for each of them, in their order. -/
structure Findings (o : Options) (ks : List Kind) where
  entries : List Entry
  kinds : entries.map Entry.kind = ks
  fits : ∀ e ∈ entries, e.Fits o

namespace Options

/-- The entry of a kind, made of what was read from the watch. -/
def entry (o : Options) (k : Kind) (samples : List Float) : Entry where
  kind := k
  iterations := o.iterations.toNat
  calls := o.calls
  depth := o.depth.toNat
  times := summarize samples
  caught := o.expected k

/-- Without measured runs there is no last one, and nothing has been caught. -/
theorem expected_eq (o : Options) (k : Kind) :
    o.expected k = if o.iterations.toNat = 0 then 0 else (o.workload k).expected := by
  have hruns : ¬ 0 < o.iterations ↔ o.iterations.toNat = 0 := by
    rw [UInt32.lt_iff_toNat_lt]
    exact Nat.not_lt.trans Nat.le_zero
  rw [expected, ← ite_not]
  exact if_congr hruns rfl rfl

theorem coe_expected (o : Options) (k : Kind) :
    (o.expected k : Int) = if 0 < o.iterations then max o.calls.toInt 0 else 0 := by
  rw [expected]
  split
  · exact (o.workload k).coe_expected
  · rfl

theorem entry_fits (o : Options) (k : Kind) (samples : List Float) : (o.entry k samples).Fits o :=
  ⟨rfl, rfl, rfl, o.coe_expected k⟩

end Options

/-- An entry that fits passes the check. -/
theorem Entry.Fits.caught_eq {e : Entry} {o : Options} (h : e.Fits o) (k : Kind) :
    e.caught = o.expected k :=
  Int.ofNat.inj (h.caught.trans (o.coe_expected k).symm)

/-! ## Hosts -/

/-- A host whose watch only watches: what is timed yields what it would have yielded anyhow.  How
long it takes, and what else happens to the host meanwhile, is left open. -/
class LawfulHost (m : Type → Type) [Monad m] [Host m] : Prop where
  timed_eq : ∀ {α : Type} (f : Unit → α),
    (fun reading => (reading.1, f ())) <$> Host.timed f = (Host.timed f : m (Float × α))

instance : LawfulHost (StateM Stage) where
  timed_eq _ := rfl

section

variable {m : Type → Type} [Monad m] [Host m]

/-- The times of runs. -/
def readings (w : Workload) : Nat → m (List Float)
  | 0 => return []
  | runs + 1 => do
    let (time, _) ← Host.timed fun _ => settle w.run
    return time :: (← readings w runs)

/-- What is found about one kind. -/
def examine (o : Options) (k : Kind) : m { e : Entry // e.kind = k ∧ e.Fits o } :=
  (fun samples => ⟨o.entry k samples, rfl, o.entry_fits k samples⟩) <$>
    readings (o.workload k) o.iterations.toNat

/-- A measurement without its checks: each kind is examined in turn, and a line is printed about
it. -/
def survey (o : Options) : (ks : List Kind) → m (Findings o ks)
  | [] => return ⟨[], rfl, fun _ he => nomatch he⟩
  | k :: ks => do
    let ⟨e, hkind, hfits⟩ ← examine o k
    Host.print e.line
    let found ← survey o ks
    return {
      entries := e :: found.entries
      kinds := congrArg₂ List.cons hkind found.kinds
      fits := List.forall_mem_cons.mpr ⟨hfits, found.fits⟩ }

variable [LawfulMonad m] [LawfulHost m]

theorem timed_bind {α β : Type} (f : Unit → α) (g : Float × α → m β) :
    Host.timed f >>= g = Host.timed f >>= fun reading => g (reading.1, f ()) := by
  conv => lhs; rw [← LawfulHost.timed_eq f]
  exact bind_map_left _ _ _

/-- Measured runs read the watch, and the last of them has caught what was expected. -/
theorem measureRuns_eq (w : Workload) (runs : Nat) (samples : List Float) (caught : Nat) :
    measureRuns w runs samples caught =
      (fun more => .ok (samples.reverse ++ more, if runs = 0 then caught else w.expected)) <$>
        (readings w runs : m (List Float)) := by
  induction runs generalizing samples caught with
  | zero => simp [measureRuns, readings]
  | succ runs ih =>
    rw [measureRuns, timed_bind]
    simp [settle_run, ih, readings]

theorem measure_eq (o : Options) (k : Kind) :
    measure o k = (fun e => .ok e.1) <$> (examine o k : m _) := by
  rw [measure, warmUp_eq]
  simp only [measureRuns_eq, examine, map_eq_pure_bind, bind_assoc, pure_bind, List.reverse_nil,
    List.nil_append, ← o.expected_eq k, Options.entry]

theorem measureAll_eq (o : Options) (ks : List Kind) :
    measureAll o ks = (fun found => .ok found.entries) <$> (survey o ks : m _) := by
  induction ks with
  | nil => simp [measureAll, survey]
  | cons k ks ih =>
    rw [measureAll, survey, measure_eq, ih]
    simp only [bind_map_left, map_bind]
    refine bind_congr fun ⟨e, hkind, hfits⟩ => ?_
    simp [hfits.caught_eq k, Except.map]

end

/-- **A report is complete, and no measurement fails.**  Let the options ask for a measurement,
with any kinds, any numbers of runs and of calls, and any depth.  On every lawful host, measuring a
kind is examining it, which yields an entry that fits the options; measuring the selected kinds is
examining one after the other, and the check of their results lets every one of them pass.  A
command line that asks for this goes on to save a report with one entry for each selected kind, in
order.  The selected kinds are all five of them if none is asked for, and otherwise those that are
asked for, each of them once, in the order in which they are named first. -/
theorem report_complete {m : Type → Type} [Monad m] [LawfulMonad m] [Host m] [LawfulHost m]
    (o : Options) (hlist : o.list = false) :
    (∀ k, measure o k = (fun e => .ok e.1) <$> (examine o k : m _)) ∧
    measureAll o o.selected = (fun found => .ok found.entries) <$> (survey o o.selected : m _) ∧
    (∀ words, Options.read words = .ok o →
      command words = (survey o o.selected : m _) >>= fun found => conclude o found.entries) ∧
    (o.kinds = [] → o.selected = [.reference, .integer, .float, .boolean, .unit]) ∧
    (o.kinds ≠ [] → o.selected.Nodup ∧ (∀ k, k ∈ o.selected ↔ k ∈ o.kinds) ∧
      o.selected.Pairwise fun j k => o.kinds.idxOf j < o.kinds.idxOf k) := by
  refine ⟨measure_eq o, measureAll_eq o o.selected, fun words hwords => ?_, fun hnone => ?_,
    fun hsome => ?_⟩
  · rw [command, hwords]
    simp [carryOut, hlist, measureAll_eq]
  · rw [Options.selected, hnone]
    rfl
  · rw [o.selected_of_kinds hsome]
    exact ⟨nodup_distinct _, fun k => mem_distinct, pairwise_distinct _⟩

/-- Two kinds, of which one is asked for twice, and three calls in each of two runs. -/
def twice : Options where
  kinds := [.unit, .integer, .unit]
  iterations := 2
  warmup := 1
  calls := 3
  depth := 1

/-- The words that ask for it. -/
def twiceWords : List String :=
  ["--kind", "unit", "-kinteger", "--kind=unit", "-n", "2", "-w", "1", "--calls", "3", "--depth=1"]

theorem report_complete_twice :
    Options.read twiceWords = .ok twice ∧ twice.list = false ∧
    ∃ (es : List Entry) (w : Stage),
      (measureAll twice twice.selected : StateM Stage _) {} = (.ok es, w) ∧
      (command twiceWords : StateM Stage _) {} = (conclude twice es : StateM Stage _) w ∧
      es.map Entry.kind = [.unit, .integer] ∧ ∀ e ∈ es, e.caught = 3 := by
  have hwords : Options.read twiceWords = .ok twice := rfl
  obtain ⟨-, hall, hcommand, -, -⟩ := report_complete (m := StateM Stage) twice rfl
  refine ⟨hwords, rfl, ((survey twice twice.selected : StateM Stage _) {}).1.entries,
    ((survey twice twice.selected : StateM Stage _) {}).2, ?_, ?_, ?_, fun e he => ?_⟩
  · rw [hall]
    rfl
  · rw [hcommand twiceWords hwords]
    rfl
  · exact Findings.kinds _
  · have hcaught := (Findings.fits _ e he).caught
    exact Int.ofNat.inj hcaught

end Throughput
end Imperative
