import Imperative.Session

/-!
# Normal code

Code can be written with more structure than it makes use of.  A block in a list of statements
opens no scope, so its statements may as well stand in the list themselves, and what comes after
a return, a break, a continue or a throw in a list is never reached.  Code is in *normal form* if
no list in it holds such a block or such a rest.

`Stmt.normAll` brings a list into normal form, and `norm` everything that lists occur in:
statements, functions, programs, the functions that an interpreter knows.  A block without
statements stays, because it has a value and the value of a list is that of its last statement.
`Stmt.allNormal_normAll` says that the result is in normal form, and `Stmt.normAll_of_allNormal`
that this is all that happens: what is in normal form is left as it is.

What normal forms are good for is `Imperative.Proofs.Normalization`.
-/

namespace Imperative

/-! ## Lists of statements -/

namespace Stmt

/-- Whether a statement leaves the list it stands in, whatever its operand does. -/
def leaves : Stmt → Bool
  | .ret _ => true
  | .breakLoop => true
  | .continueLoop => true
  | .raise _ => true
  | _ => false

/-- What can be reached of a list: the statements up to the first one that leaves it. -/
def reached : List Stmt → List Stmt
  | [] => []
  | s :: rest => if s.leaves then [s] else s :: reached rest

/-- The statements to put in the place of a statement: those of a block, unless it has none. -/
def spliced : Stmt → List Stmt
  | .block (s :: rest) => s :: rest
  | s => [s]

/-- Whether a statement is a block that can be spliced. -/
def isSplice : Stmt → Bool
  | .block (_ :: _) => true
  | _ => false

theorem spliced_of_not_isSplice {s : Stmt} (h : s.isSplice = false) : s.spliced = [s] := by
  cases s with
  | block body =>
    cases body with
    | nil => rfl
    | cons s rest => cases h
  | _ => rfl

/-! ## Normalisation -/

mutual

/-- Normalises every list inside a statement.  The statement itself stays what it is. -/
def norm : Stmt → Stmt
  | .cond test yes no => .cond test (normAll yes) (normAll no)
  | .whileDo test body => .whileDo test (normAll body)
  | .forRange name start stop body => .forRange name start stop (normAll body)
  | .block body => .block (normAll body)
  | .guarded body name handler => .guarded (normAll body) name (normAll handler)
  | s => s

/-- Normalises a list: the statements in it first, then the list itself. -/
def normAll : List Stmt → List Stmt
  | [] => []
  | s :: rest => reached (s.norm.spliced ++ normAll rest)

end

mutual

/-- Whether every list inside a statement is in normal form. -/
def isNormal : Stmt → Bool
  | .cond _ yes no => allNormal yes && allNormal no
  | .whileDo _ body => allNormal body
  | .forRange _ _ _ body => allNormal body
  | .block body => allNormal body
  | .guarded body _ handler => allNormal body && allNormal handler
  | _ => true

/-- Whether a list is in normal form: there is no block to splice in it, and nothing after a
statement that leaves it. -/
def allNormal : List Stmt → Bool
  | [] => true
  | s :: rest => s.isNormal && !s.isSplice && (!s.leaves || rest.isEmpty) && allNormal rest

end

theorem allNormal_cons {s : Stmt} {rest : List Stmt} :
    allNormal (s :: rest) = true ↔
      s.isNormal = true ∧ s.isSplice = false ∧ (s.leaves = true → rest = []) ∧
        allNormal rest = true := by
  cases hleaves : s.leaves <;> simp [allNormal, hleaves, and_assoc]

/-- What stands in a list in normal form. -/
theorem of_mem_allNormal {body : List Stmt} (h : allNormal body = true) :
    ∀ s ∈ body, s.isNormal = true ∧ s.isSplice = false := by
  induction body with
  | nil => exact nofun
  | cons s rest ih =>
    obtain ⟨hs, hsplice, -, hrest⟩ := allNormal_cons.mp h
    intro t ht
    rcases List.mem_cons.mp ht with rfl | ht
    · exact ⟨hs, hsplice⟩
    · exact ih hrest t ht

/-- What is reached of a list that has nothing to splice is in normal form. -/
theorem allNormal_reached {body : List Stmt}
    (h : ∀ s ∈ body, s.isNormal = true ∧ s.isSplice = false) :
    allNormal (reached body) = true := by
  induction body with
  | nil => rfl
  | cons s rest ih =>
    obtain ⟨hs, hsplice⟩ := h s List.mem_cons_self
    rw [reached]
    split
    · exact allNormal_cons.mpr ⟨hs, hsplice, fun _ => rfl, rfl⟩
    · next hleaves =>
      exact allNormal_cons.mpr ⟨hs, hsplice, (absurd · hleaves),
        ih fun t ht => h t (List.mem_cons_of_mem s ht)⟩

theorem reached_of_allNormal {body : List Stmt} (h : allNormal body = true) :
    reached body = body := by
  induction body with
  | nil => rfl
  | cons s rest ih =>
    obtain ⟨-, -, hleaves, hrest⟩ := allNormal_cons.mp h
    rw [reached]
    split
    · next hs => rw [hleaves hs]
    · rw [ih hrest]

/-- Splicing a normal statement yields normal statements, and no block to splice. -/
theorem of_mem_spliced {s : Stmt} (h : s.isNormal = true) :
    ∀ t ∈ s.spliced, t.isNormal = true ∧ t.isSplice = false := by
  cases hsplice : s.isSplice with
  | false =>
    intro t ht
    rw [spliced_of_not_isSplice hsplice, List.mem_singleton] at ht
    rw [ht]
    exact ⟨h, hsplice⟩
  | true =>
    cases s with
    | block body =>
      cases body with
      | nil => cases hsplice
      | cons t rest => exact of_mem_allNormal (by rwa [isNormal] at h)
    | _ => cases hsplice

mutual

theorem isNormal_norm (s : Stmt) : s.norm.isNormal = true := by
  cases s with
  | cond test yes no => simp only [norm, isNormal, allNormal_normAll, Bool.and_self]
  | whileDo test body => simp only [norm, isNormal, allNormal_normAll]
  | forRange name start stop body => simp only [norm, isNormal, allNormal_normAll]
  | block body => simp only [norm, isNormal, allNormal_normAll]
  | guarded body name handler => simp only [norm, isNormal, allNormal_normAll, Bool.and_self]
  | _ => rfl

/-- **Normalisation arrives at normal form.** -/
theorem allNormal_normAll (body : List Stmt) : allNormal (normAll body) = true := by
  cases body with
  | nil => rfl
  | cons s rest =>
    rw [normAll]
    refine allNormal_reached fun t ht => ?_
    rcases List.mem_append.mp ht with ht | ht
    · exact of_mem_spliced (isNormal_norm s) t ht
    · exact of_mem_allNormal (allNormal_normAll rest) t ht

end

mutual

theorem norm_of_isNormal (s : Stmt) (h : s.isNormal = true) : s.norm = s := by
  cases s with
  | cond test yes no =>
    obtain ⟨hyes, hno⟩ := Bool.and_eq_true_iff.mp (by rwa [isNormal] at h)
    rw [norm, normAll_of_allNormal yes hyes, normAll_of_allNormal no hno]
  | whileDo test body => rw [norm, normAll_of_allNormal body (by rwa [isNormal] at h)]
  | forRange name start stop body =>
    rw [norm, normAll_of_allNormal body (by rwa [isNormal] at h)]
  | block body => rw [norm, normAll_of_allNormal body (by rwa [isNormal] at h)]
  | guarded body name handler =>
    obtain ⟨hbody, hhandler⟩ := Bool.and_eq_true_iff.mp (by rwa [isNormal] at h)
    rw [norm, normAll_of_allNormal body hbody, normAll_of_allNormal handler hhandler]
  | _ => rfl

/-- **Normalisation leaves normal form alone.** -/
theorem normAll_of_allNormal (body : List Stmt) (h : allNormal body = true) :
    normAll body = body := by
  cases body with
  | nil => rfl
  | cons s rest =>
    obtain ⟨hs, hsplice, -, hrest⟩ := allNormal_cons.mp h
    rw [normAll, norm_of_isNormal s hs, spliced_of_not_isSplice hsplice,
      normAll_of_allNormal rest hrest, List.singleton_append, reached_of_allNormal h]

end

/-! ## Nesting -/

theorem normAll_ne_nil {body : List Stmt} (h : body ≠ []) : normAll body ≠ [] := by
  cases body with
  | nil => exact absurd rfl h
  | cons s rest =>
    have hspliced : s.norm.spliced ≠ [] := by
      unfold spliced
      split <;> exact List.cons_ne_nil _ _
    rw [normAll]
    cases hs : s.norm.spliced with
    | nil => exact absurd hs hspliced
    | cons t ts =>
      rw [List.cons_append, reached]
      split <;> exact List.cons_ne_nil _ _

/-- A body that is not empty has the normal form of the blocks around it, however many there
are. -/
theorem normAll_nested (depth : Nat) {body : List Stmt} (h : body ≠ []) :
    normAll (nested depth body) = normAll body := by
  induction depth with
  | zero => rfl
  | succ depth ih =>
    have hne : normAll body ≠ [] := normAll_ne_nil h
    rw [nested, normAll, norm, ih, normAll, List.append_nil]
    cases hbody : normAll body with
    | nil => exact absurd hbody hne
    | cons s rest => rw [spliced, ← hbody, reached_of_allNormal (allNormal_normAll body)]

end Stmt

/-! ## Functions, programs and interpreters -/

/-- A function with its body in normal form. -/
def Function.norm (f : Function) : Function := { f with body := Stmt.normAll f.body }

/-- An item with everything inside it in normal form. -/
def Item.norm : Item → Item
  | .function f => .function f.norm
  | .statement s => .statement s.norm

/-- A program with its functions, and everything inside its statements, in normal form. -/
def Program.norm (p : Program) : Program := ⟨p.items.map Item.norm⟩

/-- The same context, with all functions in normal form. -/
def Context.norm (ctx : Context) : Context :=
  { ctx with functions := ctx.functions.map fun _ => Function.norm }

/-- The same interpreter, with all functions in normal form. -/
def Interpreter.norm (i : Interpreter) : Interpreter :=
  { i with functions := i.functions.map fun _ => Function.norm }

@[simp] theorem Program.functions_norm (p : Program) :
    p.norm.functions = p.functions.map Function.norm := by
  obtain ⟨items⟩ := p
  induction items with
  | nil => rfl
  | cons item items ih => cases item <;> simp_all [Program.norm, Program.functions, Item.norm]

@[simp] theorem Program.statements_norm (p : Program) :
    p.norm.statements = p.statements.map Stmt.norm := by
  obtain ⟨items⟩ := p
  induction items with
  | nil => rfl
  | cons item items ih => cases item <;> simp_all [Program.norm, Program.statements, Item.norm]

@[simp] theorem Context.getElem?_functions_norm (ctx : Context) (name : String) :
    ctx.norm.functions[name]? = ctx.functions[name]?.map Function.norm :=
  Std.ExtTreeMap.getElem?_map

@[simp] theorem Context.contains_functions_norm (ctx : Context) (name : String) :
    ctx.norm.functions.contains name = ctx.functions.contains name :=
  Std.ExtTreeMap.contains_map

/-- A function may be normalised before it is declared or afterwards. -/
theorem Interpreter.norm_declare (i : Interpreter) (f : Function) :
    (i.declare f).norm = i.norm.declare f.norm := by
  have hfunctions : (i.functions.insert f.name f).map (fun _ => Function.norm) =
      (i.functions.map fun _ => Function.norm).insert f.name f.norm := by
    refine Std.ExtTreeMap.ext_getElem? fun name => ?_
    simp only [Std.ExtTreeMap.getElem?_map, Std.ExtTreeMap.getElem?_insert]
    split <;> rfl
  simp only [norm, declare, hfunctions]
  rfl

theorem Interpreter.norm_declareAll (i : Interpreter) (fs : List Function) :
    (i.declareAll fs).norm = i.norm.declareAll (fs.map Function.norm) := by
  induction fs generalizing i with
  | nil => rfl
  | cons f fs ih =>
    rw [List.map_cons, declareAll, List.foldl_cons, declareAll, List.foldl_cons, ← norm_declare]
    exact ih (i.declare f)

end Imperative
