import Imperative.Action
import Imperative.Heap.Equality

/-!
# Operations on values

What the operators and the builtins do with operands that have been evaluated.  An
operation that does not fit its operands fails and changes nothing: each one looks at its
operands first, and stores an object or extends a list only as its last step.

Integers are 64 bits wide and wrap around; the one partial operation on them is division
by zero.  As soon as one operand is a float, an operation on numbers is an operation on
floats.
-/

namespace Imperative

/-! ## Arithmetic -/

/-- An operator on integers.  Division truncates toward zero. -/
def ArithOp.onInts (op : ArithOp) (p q : Int64) : Except Fault Int64 :=
  match op with
  | .add => .ok (p + q)
  | .sub => .ok (p - q)
  | .mul => .ok (p * q)
  | .div => if q = 0 then .error .divisionByZero else .ok (p / q)

/-- An operator on floats. -/
def ArithOp.onFloats (op : ArithOp) (p q : Float) : Float :=
  match op with
  | .add => p + q
  | .sub => p - q
  | .mul => p * q
  | .div => p / q

/-- Joins two objects end to end, if they are both strings or both lists. -/
def Object.join? : Object → Object → Option Object
  | .string s, .string t => some (.string (s ++ t))
  | .list xs, .list ys => some (.list (xs ++ ys))
  | _, _ => none

/-- The order in which two floats stand; a NaN stands in none. -/
def floatOrder (p q : Float) : Option Ordering :=
  if p < q then some .lt
  else if p == q then some .eq
  else if q < p then some .gt
  else none

namespace Value

/-- Complains about the operands of an arithmetical operator. -/
def refuseArithmetic {α : Type} (op : ArithOp) (x y : Value) : Eval α :=
  Eval.mismatch fun h => .arithmetic op (h.shape x) (h.shape y)

/-- Addition of two handles: the objects are joined into a new one. -/
def join (p q : Handle) : Eval Value := do
  let a ← Eval.fetch p
  let b ← Eval.fetch q
  match a.join? b with
  | some o => Eval.alloc o
  | none => refuseArithmetic .add (.ref p) (.ref q)

/-- An arithmetical operator. -/
def arithmetic (op : ArithOp) (x y : Value) : Eval Value :=
  match x, y with
  | .int p, .int q => Eval.read fun _ => (op.onInts p q).map .int
  | .ref p, .ref q => if op = .add then join p q else refuseArithmetic op x y
  | x, y =>
    match x.asFloat?, y.asFloat? with
    | some p, some q => pure (.float (op.onFloats p q))
    | _, _ => refuseArithmetic op x y

/-- The negative of a number. -/
def negate (x : Value) : Eval Value :=
  match x with
  | .int n => pure (.int (-n))
  | .float r => pure (.float (-r))
  | x => Eval.mismatch fun h => .negation (h.shape x)

/-! ## Comparison -/

/-- How two numbers compare: `none` if they are not both numbers, and `some none` if one
is a NaN. -/
def order? (x y : Value) : Option (Option Ordering) :=
  match x, y with
  | .int p, .int q => some (some (compare p.toInt q.toInt))
  | x, y =>
    match x.asFloat?, y.asFloat? with
    | some p, some q => some (floatOrder p q)
    | _, _ => none

/-- An order comparison of numbers.  Nothing is less than a NaN, nor greater, nor equal
to it. -/
def compared (op : CompareOp) (x y : Value) : Eval Value :=
  match order? x y with
  | some o => pure (.bool (o.any op.accepts))
  | none => Eval.mismatch fun h => .comparison op (h.shape x) (h.shape y)

/-- Equality of content. -/
def equal (x y : Value) : Eval Bool := Eval.observe fun h => h.equal? x y

/-! ## Truth values -/

/-- The truth value that a value is; any other value is a mismatch, described from its
shape. -/
def truth (describe : Shape → Mismatch) (x : Value) : Eval Bool :=
  match x with
  | .bool b => pure b
  | x => Eval.mismatch fun h => describe (h.shape x)

/-! ## Strings and lists -/

/-- A position as an offset from the front; a negative one is none. -/
def offset? (position : Int64) : Option Nat :=
  if position < 0 then none else some position.toInt.toNat

/-- The item of a list at a position, or the character of a string, as a new string.
Positions count characters, not bytes. -/
def index (base : Value) (position : Int64) : Eval Value :=
  match base with
  | .ref r => do
    match ← Eval.fetch r with
    | .list items =>
      match (offset? position).bind (items[·]?) with
      | some v => pure v
      | none => throw (.indexOutOfBounds position items.size)
    | .string s =>
      match (offset? position).bind (s.toList[·]?) with
      | some c => Eval.alloc (.string c.toString)
      | none => throw (.indexOutOfBounds position s.length)
    | .function _ => throw (.typeMismatch (.indexed .function))
  | base => throw (.typeMismatch (.indexed base.shape))

/-- The position that a value denotes. -/
def position (x : Value) : Eval Int64 :=
  match x with
  | .int n => pure n
  | x => Eval.mismatch fun h => .position (h.shape x)

/-- The length of a string or of a list. -/
def length (x : Value) : Eval Value :=
  match x with
  | .ref r => do
    match ← Eval.fetch r with
    | .string s => pure (.int (Int64.ofNat s.length))
    | .list items => pure (.int (Int64.ofNat items.size))
    | .function _ => throw (.typeMismatch (.measured .function))
  | x => throw (.typeMismatch (.measured x.shape))

/-- Adds an item at the end of a list, in place. -/
def push (target item : Value) : Eval Value :=
  match target with
  | .ref r => do
    match ← Eval.fetch r with
    | .list _ => Eval.change fun m => (.unit, { m with heap := m.heap.append r item })
    | o => throw (.typeMismatch (.extended o.shape))
  | x => throw (.typeMismatch (.extended x.shape))

end Value

/-! ## Builtins -/

/-- The builtin functions. -/
inductive Builtin where
  | len
  | push
deriving DecidableEq, Repr, Inhabited

namespace Builtin

/-- The name by which a builtin is called. -/
def name : Builtin → String
  | len => "len"
  | push => "push"

/-- The builtin of a given name, if there is one. -/
def ofName? (s : String) : Option Builtin :=
  if s = "len" then some len else if s = "push" then some push else none

/-- How many operands a builtin takes. -/
def arity : Builtin → Nat
  | len => 1
  | push => 2

/-- Applies a builtin. -/
def apply (b : Builtin) (args : List Value) : Eval Value :=
  match b, args with
  | len, [x] => x.length
  | push, [target, item] => target.push item
  | b, args => throw (.arityMismatch b.name b.arity args.length)

end Builtin

end Imperative
