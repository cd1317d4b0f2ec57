import Imperative.Exit

/-!
# Command line options

What a measurement is to do, as read from a command line.

Words are read from left to right, and the first one that is wrong, or that asks for
help, ends the reading.  An option is named in full after two dashes or by its letter
after one; its value follows in the same word, after an equals sign or directly after the
letter, or is the next word, unless that begins with a dash.  Only the kind may be given
more than once.  Two dashes alone end the options, and nothing may follow them, because
there are no operands.
-/

namespace Imperative
namespace Throughput

/-- What a measurement is to do. -/
structure Options where
  /-- The kinds to measure, in the order given; all of them if none is given. -/
  kinds : List Kind := []
  /-- Measured runs for each kind. -/
  iterations : UInt32 := 10
  /-- Runs before the measured ones. -/
  warmup : UInt32 := 2
  /-- Calls in each run. -/
  calls : Int64 := 10000
  /-- Blocks around each return. -/
  depth : UInt64 := 3
  /-- Where to save the report. -/
  output : Option String := none
  /-- Whether to list the kinds instead of measuring. -/
  list : Bool := false
deriving DecidableEq, Repr, Inhabited

/-- The kinds without repetitions, each at its first place; all kinds if there are none. -/
def Options.selected (o : Options) : List Kind :=
  if o.kinds.isEmpty then Kind.all
  else o.kinds.foldl (fun ks k => if k ∈ ks then ks else ks ++ [k]) []

/-! ## Numbers -/

/-- A number in decimal digits, of which there is at least one. -/
def digits? (s : List Char) : Option Nat :=
  if s.isEmpty || !s.all Char.isDigit then none
  else some (s.foldl (fun n c => 10 * n + (c.toNat - '0'.toNat)) 0)

/-- A number in decimal digits after an optional plus sign. -/
def unsigned? : List Char → Option Nat
  | '+' :: s => digits? s
  | s => digits? s

/-- An integer in decimal digits after an optional sign. -/
def signed? : List Char → Option Int
  | '-' :: s => (digits? s).map fun n => -(n : Int)
  | s => (unsigned? s).map Int.ofNat

/-- An integer within bounds, the lower one included and the upper one not. -/
def within? (low high : Int) (n : Int) : Option Int :=
  if low ≤ n ∧ n < high then some n else none

/-! ## Options with a value -/

/-- The options that take a value. -/
inductive Setting where
  | kind
  | iterations
  | warmup
  | calls
  | depth
  | output
deriving DecidableEq, Repr, Inhabited

namespace Setting

/-- All of them. -/
def all : List Setting := [kind, iterations, warmup, calls, depth, output]

/-- The full name. -/
def name : Setting → String
  | kind => "kind"
  | iterations => "iterations"
  | warmup => "warmup"
  | calls => "calls"
  | depth => "depth"
  | output => "output"

/-- The letter, for those that have one. -/
def letter? : Setting → Option Char
  | kind => some 'k'
  | iterations => some 'n'
  | warmup => some 'w'
  | output => some 'o'
  | _ => none

/-- Whether it may be given more than once. -/
def repeatable (s : Setting) : Bool := s = kind

/-- Sets an option to a value, unless the value is not one for it. -/
def store (s : Setting) (value : String) (o : Options) : Option Options :=
  match s with
  | kind => (Kind.ofName? value).map fun k => { o with kinds := o.kinds ++ [k] }
  | iterations =>
    ((signed? value.toList).bind (within? 0 UInt32.size)).map fun n =>
      { o with iterations := UInt32.ofNat n.toNat }
  | warmup =>
    ((signed? value.toList).bind (within? 0 UInt32.size)).map fun n =>
      { o with warmup := UInt32.ofNat n.toNat }
  | calls =>
    ((signed? value.toList).bind
        (within? Int64.minValue.toInt (Int64.maxValue.toInt + 1))).map fun n =>
      { o with calls := Int64.ofInt n }
  | depth =>
    ((unsigned? value.toList).map Int.ofNat |>.bind (within? 0 UInt64.size)).map fun n =>
      { o with depth := UInt64.ofNat n.toNat }
  | output => if value.isEmpty then none else some { o with output := some value }

end Setting

/-! ## Reading -/

/-- Why a command line is not read to its end. -/
inductive Refusal where
  | help
  | unexpected (word : String)
  | missing (s : Setting)
  | invalid (s : Setting) (value : String)
  | repeated (name : String)
deriving DecidableEq, Repr, Inhabited

/-- What there is to say about a refusal. -/
def Refusal.message : Refusal → String
  | .help => "options: --kind KIND --iterations N --warmup N --calls N --depth N --output PATH --list"
  | .unexpected word => s!"unexpected argument '{word}'"
  | .missing s => s!"a value is required for '--{s.name}'"
  | .invalid s value => s!"invalid value '{value}' for '--{s.name}'"
  | .repeated name => s!"the argument '--{name}' cannot be used multiple times"

/-- What a word on a command line is.  The value, where there is one, is in the same
word. -/
inductive Word where
  | long (name : String) (value : Option String)
  | short (letter : Char) (value : Option String)
  /-- Two dashes alone. -/
  | divider
  | operand
deriving DecidableEq, Repr, Inhabited

/-- Splits a name from the value behind the first equals sign. -/
def splitValue (s : List Char) : String × Option String :=
  match s.dropWhile (· ≠ '=') with
  | [] => (String.ofList s, none)
  | _ :: value => (String.ofList (s.takeWhile (· ≠ '=')), some (String.ofList value))

/-- Reads a word. -/
def Word.ofString (s : String) : Word :=
  match s.toList with
  | ['-', '-'] => .divider
  | '-' :: '-' :: rest =>
    match splitValue rest with
    | (name, value) => .long name value
  | ['-'] => .operand
  | ['-', letter] => .short letter none
  | '-' :: letter :: '=' :: value => .short letter (some (String.ofList value))
  | '-' :: letter :: value => .short letter (some (String.ofList value))
  | _ => .operand

/-- Whether a word can be the value of the option before it. -/
def isValue (s : String) : Bool := Word.ofString s = .operand

/-- A command line read in part: the options so far, and the settings given so far. -/
structure Progress where
  options : Options := {}
  given : List Setting := []
deriving Inhabited

namespace Progress

/-- Takes note of a setting and its value. -/
def set (p : Progress) (s : Setting) (value : String) : Except Refusal Progress :=
  if s ∈ p.given && !s.repeatable then .error (.repeated s.name)
  else
    match s.store value p.options with
    | some o => .ok ⟨o, s :: p.given⟩
    | none => .error (.invalid s value)

/-- Takes note of the wish for a list. -/
def setList (p : Progress) : Except Refusal Progress :=
  if p.options.list then .error (.repeated "list")
  else .ok { p with options := { p.options with list := true } }

end Progress

/-- What a word asks for. -/
inductive Directive where
  | set (s : Setting) (value : Option String)
  | list
  | help
  | divider
  | unknown
deriving DecidableEq, Repr, Inhabited

/-- What a word asks for.  The two options without a value accept none. -/
def Directive.ofWord : Word → Directive
  | .long "list" none => list
  | .long "help" none => help
  | .long name value => ((Setting.all.find? (·.name = name)).map (set · value)).getD unknown
  | .short 'h' _ => help
  | .short letter value =>
    ((Setting.all.find? (·.letter? = some letter)).map (set · value)).getD unknown
  | .divider => divider
  | .operand => unknown

/-- Reads the words of a command line, after what has been read already. -/
def Options.readFrom (p : Progress) : List String → Except Refusal Options
  | [] => .ok p.options
  | word :: rest =>
    match Directive.ofWord (Word.ofString word) with
    | .set s (some value) => do readFrom (← p.set s value) rest
    | .set s none =>
      match rest with
      | value :: rest =>
        if isValue value then do readFrom (← p.set s value) rest
        else .error (.missing s)
      | [] => .error (.missing s)
    | .list => do readFrom (← p.setList) rest
    | .help => .error .help
    | .divider =>
      match rest with
      | [] => .ok p.options
      | operand :: _ => .error (.unexpected operand)
    | .unknown => .error (.unexpected word)

/-- Reads a command line. -/
def Options.read (words : List String) : Except Refusal Options := readFrom {} words

end Throughput
end Imperative
