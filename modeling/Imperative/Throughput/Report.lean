import Imperative.Decimal
import Imperative.Throughput.Samples
import Imperative.Throughput.Workload

/-!
# Reports

What a measurement has found: one entry for each kind, a line of text for each entry, and
a document in JSON of all of them.

Measured times are kept in milliseconds.  A line rounds them; the document gives the
shortest decimals that read back as the same floats.
-/

namespace Imperative
namespace Throughput

/-! ## Entries -/

/-- What was found about one kind. -/
structure Entry where
  kind : Kind
  iterations : Nat
  calls : Int64
  depth : Nat
  /-- Milliseconds of a run. -/
  times : Summary
  /-- Returns caught in the last run, zero if there was none. -/
  caught : Nat
deriving Repr, Inhabited

/-- Nanoseconds of a single call, on average.  Without calls there is nothing to divide
by. -/
def Entry.perCall (e : Entry) : Float :=
  if 0 < e.calls then e.times.average * 1000000.0 / e.calls.toFloat else 0.0

/-! ## Lines -/

/-- A text between two terminal codes. -/
def styled (start stop : Nat) (s : String) : String := s!"\x1b[{start}m{s}\x1b[{stop}m"

/-- Bold text. -/
def bold (s : String) : String := styled 1 0 s

/-- Red text. -/
def red (s : String) : String := styled 31 39 s

/-- Green text. -/
def green (s : String) : String := styled 32 39 s

/-- Cyan text. -/
def cyan (s : String) : String := styled 36 39 s

/-- A text brought to a width by blanks on its left. -/
def alignRight (width : Nat) (s : String) : String :=
  String.ofList (List.replicate (width - s.length) ' ') ++ s

/-- The line of an entry. -/
def Entry.line (e : Entry) : String :=
  let ms (x : Float) : String := fixedText x 3 ++ "ms"
  let title := bold (cyan (alignRight 10 e.kind.name))
  title ++ ": avg=" ++ ms e.times.average ++ " min=" ++ ms e.times.least ++
    " max=" ++ ms e.times.greatest ++ " | " ++ fixedText e.perCall 1 ++ "ns/call | depth=" ++
    toString e.depth

/-! ## Points in time -/

/-- A point in time, in the calendar of universal time. -/
structure Stamp where
  year : Nat := 0
  month : Nat := 0
  day : Nat := 0
  hour : Nat := 0
  minute : Nat := 0
  second : Nat := 0
deriving DecidableEq, Repr, Inhabited

namespace Stamp

/-- A number with at least the given count of digits. -/
def padded (width n : Nat) : String :=
  let ds := Nat.toDigits 10 n
  String.ofList (List.replicate (width - ds.length) '0' ++ ds)

/-- The date. -/
def date (t : Stamp) : String := s!"{padded 4 t.year}-{padded 2 t.month}-{padded 2 t.day}"

/-- The time of day, with a given separator. -/
def timeOfDay (t : Stamp) (separator : String) : String :=
  separator.intercalate [padded 2 t.hour, padded 2 t.minute, padded 2 t.second]

/-- The text of a point in time. -/
def text (t : Stamp) : String := t.date ++ "T" ++ t.timeOfDay ":" ++ "Z"

/-- A name for a file written then: the same without colons, which not every file system
allows. -/
def fileName (t : Stamp) : String := t.date ++ "_" ++ t.timeOfDay "-" ++ "Z.json"

end Stamp

/-! ## Documents -/

/-- A report. -/
structure Report where
  timestamp : Stamp
  entries : List Entry
deriving Inhabited

/-- The version that reports name. -/
def version : String := "0.1.0"

/-- A float in a document.  From `1e-5` up to `1e16` it is written out, with at least one
place, and beyond with an exponent.  What is not a number has no place in a document. -/
def amount (x : Float) : String :=
  match Magnitude.ofFloat x with
  | (negative, .finite d) =>
    let s := d.shortest
    let ds := Nat.toDigits 10 s.digits
    let scale := s.exponent + ds.length
    if s.digits = 0 ∨ (-5 < scale ∧ scale ≤ 16) then
      match s.positions with
      | (whole, "") => signText negative ++ whole ++ ".0"
      | (whole, part) => signText negative ++ whole ++ "." ++ part
    else
      match ds with
      | [d] => signText negative ++ s!"{d}e{scale - 1}"
      | ds =>
        signText negative ++ String.ofList (ds.take 1) ++ "." ++ String.ofList (ds.drop 1) ++
          s!"e{scale - 1}"
  | _ => "null"

/-- A text in a document.  The texts of reports hold nothing that needs an escape. -/
def quoted (s : String) : String := "\"" ++ s ++ "\""

/-- The lines of items one after another, the last line of each item but the last
followed by a comma. -/
def separated : List (List String) → List String
  | [] => []
  | [item] => item
  | item :: rest => item.dropLast ++ item.getLast?.toList.map (· ++ ",") ++ separated rest

/-- Lines of items between two brackets, indented. -/
def enclosed (opening closing : String) (items : List (List String)) : List String :=
  opening :: (separated items).map ("  " ++ ·) ++ [closing]

/-- A field of a document. -/
def jsonField (name value : String) : List String := [quoted name ++ ": " ++ value]

/-- The lines of an entry in a document. -/
def Entry.document (e : Entry) : List String :=
  enclosed "\x7b" "\x7d" [
    jsonField "kind" (quoted e.kind.name),
    jsonField "iterations" (toString e.iterations),
    jsonField "calls" (toString e.calls.toInt),
    jsonField "depth" (toString e.depth),
    jsonField "avg_ms" (amount e.times.average),
    jsonField "min_ms" (amount e.times.least),
    jsonField "max_ms" (amount e.times.greatest),
    jsonField "ns_per_call" (amount e.perCall),
    jsonField "returns_caught" (toString e.caught)]

/-- The document of a report. -/
def Report.document (r : Report) : String :=
  let entries :=
    match enclosed (quoted "benchmarks" ++ ": [") "]" (r.entries.map Entry.document) with
    | [opening, closing] => [opening ++ closing]
    | ls => ls
  "\n".intercalate (enclosed "\x7b" "\x7d" [
    jsonField "timestamp" (quoted r.timestamp.text),
    jsonField "procedural_version" (quoted version),
    entries])

end Throughput
end Imperative
