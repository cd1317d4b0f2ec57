/-!
# Programs

Programs of a small imperative language, as trees.  There is no concrete grammar: a
program is built directly from the constructors below, and what it means is the
business of `Imperative.Execution`.

Two decisions keep the trees small.  Operators that share an evaluation rule share a
constructor and differ in an operator argument (`ArithOp`, `CompareOp`, `LogicOp`),
because their rules, and the texts of their complaints, are stated once for the whole
family.  And a body is a plain list of statements everywhere it occurs: in a function,
in a branch, in a loop, in a block, in a handler.
-/

namespace Imperative

/-! ## Annotations -/

/-- The types a variable, a parameter or a result can be annotated with.  They are
checked when a value arrives, never ahead of time. -/
inductive Ty where
  | int
  | float
  | bool
  | string
  | list
  | function
  | unit
deriving DecidableEq, Repr, Inhabited

/-- The name of a type as messages spell it. -/
def Ty.name : Ty → String
  | .int => "Int"
  | .float => "Float"
  | .bool => "Bool"
  | .string => "String"
  | .list => "List"
  | .function => "Function"
  | .unit => "Unit"

/-! ## Operators -/

/-- The four arithmetical operators.  Only `add` also joins strings and lists. -/
inductive ArithOp where
  | add
  | sub
  | mul
  | div
deriving DecidableEq, Repr, Inhabited

/-- The verb a complaint about an operator uses. -/
def ArithOp.verb : ArithOp → String
  | .add => "add"
  | .sub => "subtract"
  | .mul => "multiply"
  | .div => "divide"

/-- The order comparisons, defined on numbers alone. -/
inductive CompareOp where
  | lt
  | le
  | gt
  | ge
deriving DecidableEq, Repr, Inhabited

/-- The sign of a comparison. -/
def CompareOp.sign : CompareOp → String
  | .lt => "<"
  | .le => "<="
  | .gt => ">"
  | .ge => ">="

/-- Whether a comparison accepts the order in which two numbers stand. -/
def CompareOp.accepts : CompareOp → Ordering → Bool
  | .lt, o => o == .lt
  | .le, o => o != .gt
  | .gt, o => o == .gt
  | .ge, o => o != .lt

/-- The two connectives that may leave their second operand unevaluated. -/
inductive LogicOp where
  | and
  | or
deriving DecidableEq, Repr, Inhabited

/-- The sign of a connective. -/
def LogicOp.sign : LogicOp → String
  | .and => "&&"
  | .or => "||"

/-- The first operand that settles a connective by itself. -/
def LogicOp.decisive : LogicOp → Bool
  | .and => false
  | .or => true

/-! ## Expressions and statements -/

/-- Expressions. -/
inductive Expr where
  | int (n : Int64)
  | float (x : Float)
  | text (s : String)
  | bool (b : Bool)
  /-- A variable, or else the declared function of that name as a value. -/
  | ident (name : String)
  | arith (op : ArithOp) (a b : Expr)
  | neg (e : Expr)
  | eq (a b : Expr)
  | ne (a b : Expr)
  | compare (op : CompareOp) (a b : Expr)
  | logic (op : LogicOp) (a b : Expr)
  | not (e : Expr)
  /-- A call by name: of a builtin, of a declared function, or through a variable
  that holds a function. -/
  | call (name : String) (args : List Expr)
  | list (elements : List Expr)
  | index (base position : Expr)
deriving Inhabited

/-- Statements. -/
inductive Stmt where
  /-- Binds a name in the scope at hand, replacing what the scope held under it. -/
  | declare (name : String) (ty : Option Ty) (value : Expr)
  /-- Gives a new value to a name that the scope at hand itself binds. -/
  | assign (name : String) (value : Expr)
  /-- Leaves the function with a value, or with unit. -/
  | ret (value : Option Expr)
  | cond (test : Expr) (yes no : List Stmt)
  | whileDo (test : Expr) (body : List Stmt)
  /-- Runs the body for each integer from `start` up to, and without, `stop`. -/
  | forRange (name : String) (start stop : Expr) (body : List Stmt)
  /-- Leaves the innermost loop. -/
  | breakLoop
  /-- Goes on to the next turn of the innermost loop. -/
  | continueLoop
  /-- Statements grouped together.  A block opens no scope. -/
  | block (body : List Stmt)
  /-- Runs the body; if it fails, the handler runs with the name bound to the text of
  the fault. -/
  | guarded (body : List Stmt) (name : String) (handler : List Stmt)
  /-- Fails with the text of a value. -/
  | raise (value : Expr)
  | expr (value : Expr)
deriving Inhabited

/-- The body inside `depth` nested blocks: the body itself at depth zero, otherwise a
single statement. -/
def Stmt.nested : Nat → List Stmt → List Stmt
  | 0, body => body
  | depth + 1, body => [.block (nested depth body)]

/-! ## Functions and programs -/

/-- A parameter, possibly annotated. -/
structure Param where
  name : String
  ty : Option Ty := none
deriving DecidableEq, Repr, Inhabited

/-- A function.  `result` annotates the value of a call, however the body ended. -/
structure Function where
  name : String
  params : List Param
  result : Option Ty := none
  body : List Stmt
deriving Inhabited

/-- A top-level item: a function to declare or a statement to run. -/
inductive Item where
  | function (f : Function)
  | statement (s : Stmt)
deriving Inhabited

/-- A program.  Its functions are declared before the first statement runs, wherever
they stand among the items. -/
structure Program where
  items : List Item
deriving Inhabited

namespace Program

/-- The functions of a program, in the order in which they are declared. -/
def functions (p : Program) : List Function :=
  p.items.filterMap fun
    | .function f => some f
    | .statement _ => none

/-- The statements of a program, in the order in which they run. -/
def statements (p : Program) : List Stmt :=
  p.items.filterMap fun
    | .function _ => none
    | .statement s => some s

@[simp] theorem functions_nil : (Program.mk []).functions = [] := rfl

@[simp] theorem statements_nil : (Program.mk []).statements = [] := rfl

@[simp] theorem functions_append (p q : List Item) :
    (Program.mk (p ++ q)).functions = (Program.mk p).functions ++ (Program.mk q).functions := by
  simp [functions]

@[simp] theorem statements_append (p q : List Item) :
    (Program.mk (p ++ q)).statements = (Program.mk p).statements ++ (Program.mk q).statements := by
  simp [statements]

end Program

end Imperative
