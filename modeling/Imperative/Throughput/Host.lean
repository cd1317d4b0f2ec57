import Imperative.Throughput.FileTree
import Imperative.Throughput.Report

/-!
# Hosts

What a measurement needs from the world around it: somewhere to print, a watch, a
calendar and a place to save its report.  `Host` is the list of these needs, and the
measurement is written for every host.

`Stage` is a world without effects.  What is printed and saved is kept, and watch and
calendar show what they were set to, so a measurement on a stage is an ordinary function
of its command line.
-/

namespace Imperative
namespace Throughput

/-- What a measurement needs. -/
class Host (m : Type → Type) where
  /-- Prints a line of results. -/
  print : String → m Unit
  /-- Prints a line about a failure. -/
  complain : String → m Unit
  /-- Prints a line about the use of the command. -/
  explain : String → m Unit
  /-- Carries out a computation and takes its time, in milliseconds. -/
  timed : {α : Type} → (Unit → α) → m (Float × α)
  /-- The present. -/
  now : m Stamp
  /-- The directory under which reports are kept that are not sent elsewhere. -/
  home : m String
  /-- Saves a text at a path, or says why it cannot be saved. -/
  save : String → String → m (Except String Unit)

/-- A world without effects. -/
structure Stage where
  files : FileTree := .directory []
  /-- Where relative paths start. -/
  here : Place := []
  home : String := "/"
  present : Stamp := {}
  /-- What the watch shows for each computation in turn. -/
  watch : Nat → Float := fun _ => 1.0
  /-- How many computations have been timed. -/
  timings : Nat := 0
  printed : Array String := #[]
  complaints : Array String := #[]
  explanations : Array String := #[]
deriving Inhabited

/-- Every action on a stage leaves its mark on the stage and nowhere else. -/
instance : Host (StateM Stage) where
  print s := modify fun w => { w with printed := w.printed.push s }
  complain s := modify fun w => { w with complaints := w.complaints.push s }
  explain s := modify fun w => { w with explanations := w.explanations.push s }
  timed f := modifyGet fun w => ((w.watch w.timings, f ()), { w with timings := w.timings + 1 })
  now := return (← get).present
  home := return (← get).home
  save path text := modifyGet fun w =>
    match w.files.save w.here path text with
    | (result, files) => (result.mapError SaveError.message, { w with files })

end Throughput
end Imperative
