import Imperative.Program

/-!
# Values and objects

A value is what a variable holds, what an expression yields and what a call passes
along.  Numbers, truth values and unit are values in themselves.  Everything else is an
*object* kept in a store (`Imperative.Heap`), and the value is only a *handle*: two
values that hold the same handle share the object, and a change made through one is
seen through the other.

Equality comes in two strengths.  `==` on values is the shallow one, which compares
handles as numbers; the deep one needs the store and lives beside it.  Both compare
floats by their arithmetical equality, so a NaN differs from itself and the two zeros
are equal; this is why neither type has a lawful `==`.
-/

namespace Imperative

/-- The name of an object: its position in the order of creation, counting from zero. -/
structure Handle where
  index : Nat
deriving DecidableEq, Repr, Inhabited

/-- A handle is written with a leading number sign. -/
def Handle.text (h : Handle) : String := s!"#{h.index}"

/-- Values. -/
inductive Value where
  | ref (h : Handle)
  | int (n : Int64)
  | float (x : Float)
  | bool (b : Bool)
  | unit
deriving BEq, Repr, Inhabited

/-- Objects.  A function object names a function; which body the name stands for is
looked up at each call. -/
inductive Object where
  | string (s : String)
  | list (items : Array Value)
  | function (name : String)
deriving BEq, Repr, Inhabited

/-! ## Shapes

What a complaint says about a value is its shape: the type of the object behind a
handle if there is one, and otherwise the type of the value itself. -/

/-- The words that describe a value or an object in messages. -/
inductive Shape where
  | reference
  | int
  | float
  | bool
  | unit
  | string
  | list
  | function
deriving DecidableEq, Repr, Inhabited

/-- The word itself. -/
def Shape.name : Shape → String
  | .reference => "reference"
  | .int => "int"
  | .float => "float"
  | .bool => "bool"
  | .unit => "unit"
  | .string => "string"
  | .list => "list"
  | .function => "function"

/-- The shape of a value on its own, without looking behind a handle. -/
def Value.shape : Value → Shape
  | .ref _ => .reference
  | .int _ => .int
  | .float _ => .float
  | .bool _ => .bool
  | .unit => .unit

/-- The shape of an object. -/
def Object.shape : Object → Shape
  | .string _ => .string
  | .list _ => .list
  | .function _ => .function

namespace Value

/-- The number a value denotes in mixed arithmetic: a float is itself and an integer is
rounded to the nearest float. -/
def asFloat? : Value → Option Float
  | .int n => some n.toFloat
  | .float x => some x
  | _ => none

/-- Whether an annotation admits a value that is not a handle. -/
def fits : Value → Ty → Bool
  | .int _, .int => true
  | .float _, .float => true
  | .bool _, .bool => true
  | .unit, .unit => true
  | _, _ => false

end Value

/-- Whether an annotation admits the handles of an object. -/
def Object.fits : Object → Ty → Bool
  | .string _, .string => true
  | .list _, .list => true
  | .function _, .function => true
  | _, _ => false

/-- Adds an item at the end of an object, if the object is a list. -/
def Object.append (item : Value) : Object → Object
  | .list items => .list (items.push item)
  | o => o

end Imperative
