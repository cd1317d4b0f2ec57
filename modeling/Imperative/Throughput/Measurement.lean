import Imperative.Throughput.Host
import Imperative.Throughput.Options

/-!
# Measuring

Measures how long returns take, kind by kind.  Each kind is run a few times without the
watch and then as often as wanted with it.  After each kind its result is checked against
what is known beforehand, that every call is caught exactly once, and a line about it is
printed; at the end all results are saved.

A measurement can only fail at the last step: by the rules of the language its programs
do not fail, and the check finds nothing wrong.
-/

namespace Imperative
namespace Throughput

/-- Why a kind has no result. -/
inductive Failure where
  | fault (f : Fault)
  /-- The fuel of a run was not enough. -/
  | unfinished
  | mismatch (kind : Kind) (caught expected : Nat)
deriving Repr, Inhabited

/-- What is printed about a failure. -/
def Failure.message : Failure → String
  | .fault f => bold (red "Runtime error") ++ ": " ++ red f.message
  | .unfinished => bold (red "Runtime error") ++ ": " ++ red "unfinished"
  | .mismatch kind caught expected =>
    bold (red "Mismatch") ++ s!": {kind.name} caught {caught} returns, expected {expected}"

namespace Options

/-- The workload of a kind. -/
def workload (o : Options) (k : Kind) : Workload := ⟨k, o.calls, o.depth.toNat⟩

/-- How many returns the last run of a kind is to catch. -/
def expected (o : Options) (k : Kind) : Nat :=
  if 0 < o.iterations then (o.workload k).expected else 0

end Options

/-- The result of a run, as a success or a failure. -/
def settle : Option (Except Fault Nat) → Except Failure Nat
  | some (.ok n) => .ok n
  | some (.error f) => .error (.fault f)
  | none => .error .unfinished

/-- Runs a workload a number of times without the watch. -/
def warmUp (w : Workload) : Nat → Except Failure Unit
  | 0 => .ok ()
  | runs + 1 =>
    match settle w.run with
    | .ok _ => warmUp w runs
    | .error f => .error f

section

variable {m : Type → Type} [Monad m] [Host m]

/-- Runs a workload a number of times with the watch, after `samples` with `caught` returns
caught in the last of them. -/
def measureRuns (w : Workload) : Nat → List Float → Nat → m (Except Failure (List Float × Nat))
  | 0, samples, caught => return .ok (samples.reverse, caught)
  | runs + 1, samples, _ => do
    let (time, result) ← Host.timed fun _ => settle w.run
    match result with
    | .ok caught => measureRuns w runs (time :: samples) caught
    | .error f => return .error f

/-- Measures one kind. -/
def measure (o : Options) (k : Kind) : m (Except Failure Entry) := do
  match warmUp (o.workload k) o.warmup.toNat with
  | .error f => return .error f
  | .ok () =>
    match ← measureRuns (o.workload k) o.iterations.toNat [] 0 with
    | .error f => return .error f
    | .ok (samples, caught) =>
      return .ok {
        kind := k
        iterations := o.iterations.toNat
        calls := o.calls
        depth := o.depth.toNat
        times := summarize samples
        caught }

/-- Measures kinds in order, checking and printing each result. -/
def measureAll (o : Options) : List Kind → m (Except Failure (List Entry))
  | [] => return .ok []
  | k :: ks => do
    match ← measure o k with
    | .error f => return .error f
    | .ok e =>
      if e.caught ≠ o.expected k then return .error (.mismatch k e.caught (o.expected k))
      else
        Host.print e.line
        return (← measureAll o ks).map (e :: ·)

/-- The path of a report that was not sent anywhere in particular. -/
def defaultPath (home : String) (t : Stamp) : String :=
  home ++ "/benchmark/results/" ++ t.fileName

/-- Saves the report of a measurement.  The answer is the exit code. -/
def conclude (o : Options) (entries : List Entry) : m UInt32 := do
  let path ←
    match o.output with
    | some path => pure path
    | none => pure (defaultPath (← Host.home) (← Host.now))
  let report : Report := { timestamp := ← Host.now, entries }
  match ← Host.save path report.document with
  | .ok () =>
    Host.print ("\n" ++ green "Saved results to" ++ " " ++ path)
    return 0
  | .error e =>
    Host.complain (bold (red "Failed to write results") ++ ": " ++ e)
    return 1

/-- Does what the options say.  The answer is the exit code. -/
def carryOut (o : Options) : m UInt32 := do
  if o.list then
    Host.print "Benchmark cases:"
    o.selected.forM fun k => Host.print s!"- {k.name}"
    return 0
  else
    match ← measureAll o o.selected with
    | .ok entries => conclude o entries
    | .error f =>
      Host.complain f.message
      return 1

/-- Carries out a command line.  The answer is the exit code. -/
def command (words : List String) : m UInt32 := do
  match Options.read words with
  | .ok o => carryOut o
  | .error .help =>
    Host.explain Refusal.help.message
    return 0
  | .error r =>
    Host.explain ("error: " ++ r.message)
    return 2

end

end Throughput
end Imperative
