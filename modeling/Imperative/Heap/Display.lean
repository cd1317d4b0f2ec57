import Imperative.Heap
import Imperative.Decimal

/-!
# The text of a value

A value is shown by its content: a string as it is, without quotes, a list as its items
between brackets, a function by name, and a handle that names no object as dangling.

As with equality, a list that contains itself has no text, and showing a value carries a
budget of handles to descend through.  One more than the number of objects is always
enough when the text exists: a longer descent passes through some handle twice.
-/

namespace Imperative
namespace Heap

/-- The items of a list, each with its text, between brackets and separated by commas. -/
def bracketed (items : List String) : String :=
  "[" ++ ", ".intercalate items ++ "]"

/-- The text of a value, descending through at most `budget` handles. -/
def showWithin? (h : Heap) : Nat → Value → Option String
  | 0, _ => none
  | budget + 1, v =>
    match v with
    | .int n => some (toString n.toInt)
    | .float x => some (floatText x)
    | .bool b => some (if b then "true" else "false")
    | .unit => some "<unit>"
    | .ref r =>
      match h.get? r with
      | some (.string s) => some s
      | some (.list items) => (items.toList.mapM (h.showWithin? budget)).map bracketed
      | some (.function name) => some s!"<fun {name}>"
      | none => some s!"<dangling {r.text}>"

/-- The text of a value; `none` if it would never end. -/
def show? (h : Heap) (v : Value) : Option String := h.showWithin? (h.size + 2) v

end Heap
end Imperative
