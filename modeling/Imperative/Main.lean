import Imperative.Throughput.Measurement
import Std.Time.DateTime

/-!
# The command

Measures returns from the command line.  The options are described in
`Imperative.Throughput.Options`; this file only connects the measurement to the real
console, watch, calendar and disk.
-/

namespace Imperative
namespace Throughput

/-- The present, by the system clock. -/
def presentStamp : IO Stamp := do
  let t := Std.Time.PlainDateTime.ofWallTime
    (Std.Time.WallTime.ofTimestamp (← Std.Time.Timestamp.now) Std.Time.TimeZone.Offset.zero)
  return {
    year := t.date.year.toInt.toNat
    month := t.date.month.val.toNat
    day := t.date.day.val.toNat
    hour := t.time.hour.val.toNat
    minute := t.time.minute.val.toNat
    second := t.time.second.val.toNat }

/-- The directory part of a path, if it has one. -/
def directoryOf (path : String) : String :=
  let parts := path.splitOn "/"
  "/".intercalate parts.dropLast

instance : Host IO where
  print := IO.println
  complain := IO.eprintln
  explain := IO.eprintln
  timed f := do
    let start ← IO.monoNanosNow
    let result ← IO.lazyPure f
    let stop ← IO.monoNanosNow
    return (Float.ofNat (stop - start) / 1000000.0, result)
  now := presentStamp
  home := return (← IO.currentDir).toString
  save path text := do
    try
      let directory := directoryOf path
      unless directory.isEmpty do IO.FS.createDirAll directory
      IO.FS.writeFile path text
      return .ok ()
    catch e => return .error (toString e)

end Throughput
end Imperative

/-- Carries out the command line. -/
def main (args : List String) : IO UInt32 := Imperative.Throughput.command args
