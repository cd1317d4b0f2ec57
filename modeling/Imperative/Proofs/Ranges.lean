import Imperative.Proofs.Endings

/-!
# Loops over a range, turn by turn

A loop over a range is executed as a recursion on the number of turns that its bounds leave, and it
computes the integer of each turn from the integer of the turn before.  What it means is simpler to
say with the number of the turn: turn `k` is for the integer `start + k`, as long as that is below
`stop`.  `Loop.Iterates` says it in this way, with one constructor for each way a turn can go, and
the execution of the loop is shown to be the same (`Loop.iterates_iff`).

The recursion has no use for a number that does not exist.  A loop that raises an index and a counter
of turns, as words of 64 bits, has to be asked what happens when one of them is at its largest value.
`Loop.inWords` is that loop, with any answer; it is the same loop again, whatever the answer
(`Loop.inWords_eq_range`), so the question never arises, not even for the widest of all ranges.
-/

namespace Imperative

open Imperative.Action

namespace Loop

/-! ## What a turn does -/

section Iteration

variable {limits : Limits} {name : String} {body : Exec Value} {start stop : Int64}

/-- The turn after `k` turns starts.  There is an integer left for it, the limit admits it, and the
name is bound to that integer, whatever it was bound to. -/
inductive Starts (limits : Limits) (name : String) (start stop : Int64) (k : Nat) :
    Activation → Activation → Prop
  | bound {i : Int64} {scope : Scope} {m : Machine} (hi : i.toInt = start.toInt + k)
      (hleft : i.toInt < stop.toInt) (hadmitted : limits.turns ≠ some k) :
      Starts limits name start stop k ⟨scope, m⟩
        ⟨scope.define name { value := .int i, ty := some .int }, m⟩

/-- How a loop over a range ends if it has taken `k` turns.  It ends without another turn if no
integer is left, or if the limit does not admit the turn.  A turn that is completed or continued is
followed by the next one, a break ends the loop, and a return or a failure ends it and goes on. -/
inductive Iterates (limits : Limits) (name : String) (body : Exec Value) (start stop : Int64) :
    Nat → Activation → Except Exit Value → Activation → Prop
  | done {k : Nat} {a : Activation} (hnone : stop.toInt ≤ start.toInt + k) :
      Iterates limits name body start stop k a (.ok .unit) a
  | refused {k : Nat} {a : Activation} (hleft : start.toInt + k < stop.toInt)
      (hlimit : limits.turns = some k) :
      Iterates limits name body start stop k a (.error (.failed (.loopLimitExceeded k))) a
  | completed {k : Nat} {a b c d : Activation} {v : Value} {r : Except Exit Value}
      (hstarts : Starts limits name start stop k a b) (hturn : body b = some (.ok v, c))
      (hrest : Iterates limits name body start stop (k + 1) c r d) :
      Iterates limits name body start stop k a r d
  | continued {k : Nat} {a b c d : Activation} {r : Except Exit Value}
      (hstarts : Starts limits name start stop k a b)
      (hturn : body b = some (.error .continued, c))
      (hrest : Iterates limits name body start stop (k + 1) c r d) :
      Iterates limits name body start stop k a r d
  | broke {k : Nat} {a b c : Activation} (hstarts : Starts limits name start stop k a b)
      (hturn : body b = some (.error .broke, c)) :
      Iterates limits name body start stop k a (.ok .unit) c
  | returned {k : Nat} {a b c : Activation} {s : Signal}
      (hstarts : Starts limits name start stop k a b)
      (hturn : body b = some (.error (.returned s), c)) :
      Iterates limits name body start stop k a (.error (.returned s)) c
  | failed {k : Nat} {a b c : Activation} {f : Fault}
      (hstarts : Starts limits name start stop k a b)
      (hturn : body b = some (.error (.failed f), c)) :
      Iterates limits name body start stop k a (.error (.failed f)) c

theorem Starts.unique {k : Nat} {a b b' : Activation} (h : Starts limits name start stop k a b)
    (h' : Starts limits name start stop k a b') : b = b' := by
  cases h with
  | bound hi hleft hadmitted =>
    cases h' with
    | bound hi' hleft' hadmitted' =>
      have heq := Int64.toInt_inj.mp (hi.trans hi'.symm)
      rw [heq]

theorem Starts.lt {k : Nat} {a b : Activation} (h : Starts limits name start stop k a b) :
    start.toInt + k < stop.toInt := by
  cases h with
  | bound hi hleft hadmitted => rwa [hi] at hleft

theorem Starts.admitted {k : Nat} {a b : Activation} (h : Starts limits name start stop k a b) :
    limits.turns ≠ some k := by
  cases h with
  | bound hi hleft hadmitted => exact hadmitted

/-- What becomes of the loop when the turn after `k` turns has ended. -/
def After (limits : Limits) (name : String) (body : Exec Value) (start stop : Int64) (k : Nat)
    (turn : Except Exit Value) (c : Activation) (r : Except Exit Value) (d : Activation) : Prop :=
  match turn with
  | .ok _ | .error .continued => Iterates limits name body start stop (k + 1) c r d
  | .error .broke => r = .ok .unit ∧ d = c
  | .error e => r = .error e ∧ d = c

theorem iterates_of_le {k : Nat} {a b : Activation} {r : Except Exit Value}
    (h : stop.toInt ≤ start.toInt + k) :
    Iterates limits name body start stop k a r b ↔ r = .ok .unit ∧ b = a := by
  constructor
  · intro hloop
    cases hloop with
    | done _ => exact ⟨rfl, rfl⟩
    | refused hleft _ => omega
    | completed hstarts _ _ | continued hstarts _ _ | broke hstarts _ | returned hstarts _
    | failed hstarts _ =>
      have hlt := hstarts.lt
      omega
  · rintro ⟨rfl, rfl⟩
    exact .done h

theorem iterates_of_limit {k : Nat} {a b : Activation} {r : Except Exit Value}
    (h : start.toInt + k < stop.toInt) (hlimit : limits.turns = some k) :
    Iterates limits name body start stop k a r b ↔
      r = .error (.failed (.loopLimitExceeded k)) ∧ b = a := by
  constructor
  · intro hloop
    cases hloop with
    | done hnone => omega
    | refused _ _ => exact ⟨rfl, rfl⟩
    | completed hstarts _ _ | continued hstarts _ _ | broke hstarts _ | returned hstarts _
    | failed hstarts _ => exact absurd hlimit hstarts.admitted
  · rintro ⟨rfl, rfl⟩
    exact .refused h hlimit

/-- The loop ends only if its turns do. -/
theorem not_iterates_of_unfinished {k : Nat} {a b d : Activation} {r : Except Exit Value}
    (h : Starts limits name start stop k a b) (hturn : body b = none) :
    ¬ Iterates limits name body start stop k a r d := by
  intro hloop
  cases hloop with
  | done hnone =>
    have hlt := h.lt
    omega
  | refused _ hlimit => exact absurd hlimit h.admitted
  | completed hstarts hbody _ | continued hstarts hbody _ | broke hstarts hbody
  | returned hstarts hbody | failed hstarts hbody =>
    cases h.unique hstarts
    rw [hturn] at hbody
    cases hbody

theorem iterates_of_starts {k : Nat} {a b c d : Activation} {turn r : Except Exit Value}
    (h : Starts limits name start stop k a b) (hturn : body b = some (turn, c)) :
    Iterates limits name body start stop k a r d ↔
      After limits name body start stop k turn c r d := by
  constructor
  · intro hloop
    cases hloop with
    | done hnone =>
      have hlt := h.lt
      omega
    | refused _ hlimit => exact absurd hlimit h.admitted
    | completed hstarts hbody hrest | continued hstarts hbody hrest =>
      cases h.unique hstarts
      cases hturn.symm.trans hbody
      exact hrest
    | broke hstarts hbody | returned hstarts hbody | failed hstarts hbody =>
      cases h.unique hstarts
      cases hturn.symm.trans hbody
      exact ⟨rfl, rfl⟩
  · intro hafter
    cases turn with
    | ok v => exact .completed h hturn hafter
    | error e =>
      cases e with
      | continued => exact .continued h hturn hafter
      | broke =>
        obtain ⟨rfl, rfl⟩ := hafter
        exact .broke h hturn
      | returned s =>
        obtain ⟨rfl, rfl⟩ := hafter
        exact .returned h hturn
      | failed f =>
        obtain ⟨rfl, rfl⟩ := hafter
        exact .failed h hturn

/-- The limit leaves room for every turn that the bounds leave. -/
def Ample (limits : Limits) (start stop : Int64) : Prop :=
  ∀ k : Nat, start.toInt + k < stop.toInt → limits.turns ≠ some k

theorem ample_of_le {n : Nat} (hlimit : limits.turns = some n)
    (hn : stop.toInt - start.toInt ≤ n) : Ample limits start stop := by
  intro k hk heq
  rw [hlimit] at heq
  cases heq
  omega

theorem ample_of_none (hlimit : limits.turns = none) (start stop : Int64) :
    Ample limits start stop := by
  intro k _
  rw [hlimit]
  exact Option.some_ne_none k ∘ Eq.symm

theorem Starts.under {limits' : Limits} (hample : Ample limits' start stop) {k : Nat}
    {a b : Activation} (h : Starts limits name start stop k a b) :
    Starts limits' name start stop k a b := by
  have hadmitted := hample k h.lt
  cases h with
  | bound hi hleft _ => exact .bound hi hleft hadmitted

/-- Limits that leave room for every turn make no difference. -/
theorem Iterates.under {limits' : Limits} (hample : Ample limits start stop)
    (hample' : Ample limits' start stop) {k : Nat} {a b : Activation} {r : Except Exit Value}
    (h : Iterates limits name body start stop k a r b) :
    Iterates limits' name body start stop k a r b := by
  induction h with
  | done hnone => exact .done hnone
  | refused hleft hlimit => exact absurd hlimit (hample _ hleft)
  | completed hstarts hturn _ ih => exact .completed (hstarts.under hample') hturn ih
  | continued hstarts hturn _ ih => exact .continued (hstarts.under hample') hturn ih
  | broke hstarts hturn => exact .broke (hstarts.under hample') hturn
  | returned hstarts hturn => exact .returned (hstarts.under hample') hturn
  | failed hstarts hturn => exact .failed (hstarts.under hample') hturn

end Iteration

/-! ## The recursion -/

section Recursion

variable {limits : Limits} {name : String} {body : Exec Value} {start stop : Int64}

theorem turns_eq_zero {i : Int64} : turns i stop = 0 ↔ stop.toInt ≤ i.toInt := by
  unfold turns
  omega

theorem turns_eq_succ {i : Int64} {left : Nat} :
    turns i stop = left + 1 ↔ i.toInt + (left + 1) = stop.toInt := by
  unfold turns
  omega

/-- The integer after one that is below another integer is the one that comes next. -/
theorem toInt_add_one {i : Int64} (h : i.toInt < stop.toInt) : (i + 1).toInt = i.toInt + 1 := by
  have hlow := i.le_toInt
  have hhigh := stop.toInt_lt
  have hone : (1 : Int64).toInt = 1 := rfl
  rw [Int64.toInt_add, hone, Int.bmod_eq_of_le] <;> omega

/-- The recursion at a turn that the limit admits. -/
theorem range_succ_of_ok {left k : Nat} {i : Int64} {a : Activation}
    (h : limits.admitTurn k = .ok ()) :
    (range limits name (Exec.turn body) (left + 1) k i >>= fun _ => pure Value.unit) a =
      match body ⟨a.scope.define name { value := .int i, ty := some .int }, a.machine⟩ with
      | none => none
      | some (.ok _, c) | some (.error .continued, c) =>
        (range limits name (Exec.turn body) left (k + 1) (i + 1) >>= fun _ => pure Value.unit) c
      | some (.error .broke, c) => some (.ok .unit, c)
      | some (.error e, c) => some (.error e, c) := by
  have hdefine : (do
      Exec.require (limits.admitTurn k)
      Exec.define name { value := .int i, ty := some .int }) a =
        some (.ok (), ⟨a.scope.define name { value := .int i, ty := some .int }, a.machine⟩) := by
    rw [h]
    rfl
  rw [range, ← bind_assoc, bind_assoc, bind_apply, hdefine]
  simp only [bind_apply, Exec.turn]
  cases body ⟨a.scope.define name { value := .int i, ty := some .int }, a.machine⟩ with
  | none => rfl
  | some p =>
    obtain ⟨turn, c⟩ := p
    cases turn with
    | ok v => rfl
    | error e => cases e <;> rfl

/-- **The recursion takes the turns one by one.** -/
theorem iterates_iff {left k : Nat} {i : Int64} {a b : Activation} {r : Except Exit Value}
    (hi : i.toInt = start.toInt + k) (hleft : turns i stop = left)
    (hk : ∀ n, limits.turns = some n → k ≤ n) :
    (range limits name (Exec.turn body) left k i >>= fun _ => pure .unit) a = some (r, b) ↔
      Iterates limits name body start stop k a r b := by
  induction left generalizing k i a with
  | zero =>
    have hnone := turns_eq_zero.mp hleft
    rw [iterates_of_le (hi ▸ hnone), range, pure_bind, pure_apply]
    simp [eq_comm]
  | succ left ih =>
    have hstop := turns_eq_succ.mp hleft
    have hlt : i.toInt < stop.toInt := by omega
    by_cases hlimit : limits.turns = some k
    · rw [iterates_of_limit (by omega) hlimit, range, Limits.admitTurn_of_eq hlimit, bind_assoc,
        bind_apply]
      simp [Exec.require, eq_comm]
    · have hadmitted : limits.admitTurn k = .ok () := Limits.admitTurn_of_ne hk hlimit
      have hstarts : Starts limits name start stop k a
          ⟨a.scope.define name { value := .int i, ty := some .int }, a.machine⟩ :=
        .bound hi hlt hlimit
      have hnext : (i + 1).toInt = start.toInt + (k + 1 : Nat) := by
        rw [toInt_add_one hlt, hi]
        omega
      have hrest : turns (i + 1) stop = left := by
        unfold turns
        omega
      have hk' : ∀ n, limits.turns = some n → k + 1 ≤ n := by
        intro n hn
        have hle := hk n hn
        have hne : k ≠ n := fun heq => hlimit (heq ▸ hn)
        omega
      rw [range_succ_of_ok hadmitted]
      cases hturn : body ⟨a.scope.define name { value := .int i, ty := some .int }, a.machine⟩ with
      | none => exact iff_of_false nofun (not_iterates_of_unfinished hstarts hturn)
      | some p =>
        obtain ⟨turn, c⟩ := p
        rw [iterates_of_starts hstarts hturn]
        cases turn with
        | ok v => exact ih hnext hrest hk'
        | error e =>
          cases e with
          | continued => exact ih hnext hrest hk'
          | broke | returned _ | failed _ => simp [After, eq_comm]

end Recursion

/-! ## The recursion in words -/

section Words

variable {limits : Limits} {name : String}

/-- The loop as it is executed with words of 64 bits.  The index is compared with the bound, the
counter of turns is raised, and after the turn the index is raised.  `overflow` is what happens if
the word that comes next does not stand for the number that comes next. -/
def inWords (overflow : Exec Unit) (limits : Limits) (name : String) (turn : Exec Bool)
    (stop : Int64) : Nat → UInt64 → Int64 → Exec Unit
  | 0, _, _ => Exec.unfinished
  | tests + 1, taken, i =>
    if i < stop then
      if (taken + 1).toNat = taken.toNat + 1 then do
        Exec.require (limits.admitTurn taken.toNat)
        Exec.define name { value := .int i, ty := some .int }
        if ← turn then
          if (i + 1).toInt = i.toInt + 1 then
            inWords overflow limits name turn stop tests (taken + 1) (i + 1)
          else overflow
        else pure ()
      else overflow
    else pure ()

/-- There are fewer integers between two words than a counter of turns can count. -/
theorem turns_lt (start stop : Int64) : turns start stop < UInt64.size := by
  have hlow := start.le_toInt
  have hhigh := stop.toInt_lt
  unfold turns UInt64.size
  omega

/-- **Neither the index nor the counter overflows.** -/
theorem inWords_eq_range (overflow : Exec Unit) (turn : Exec Bool) {stop : Int64} {left tests : Nat}
    {taken : UInt64} {i : Int64} (hleft : turns i stop = left)
    (htaken : taken.toNat + left < UInt64.size) (htests : left < tests) :
    inWords overflow limits name turn stop tests taken i =
      range limits name turn left taken.toNat i := by
  induction left generalizing tests taken i with
  | zero =>
    obtain ⟨tests, rfl⟩ := Nat.exists_eq_succ_of_ne_zero (Nat.ne_of_gt htests)
    have hstop : ¬ i < stop := by
      rw [Int64.lt_iff_toInt_lt, Int.not_lt]
      exact turns_eq_zero.mp hleft
    rw [inWords, if_neg hstop, range]
  | succ left ih =>
    obtain ⟨tests, rfl⟩ := Nat.exists_eq_succ_of_ne_zero (Nat.ne_zero_of_lt htests)
    have hsum := turns_eq_succ.mp hleft
    have hlt : i.toInt < stop.toInt := by omega
    have hstop : i < stop := Int64.lt_iff_toInt_lt.mpr hlt
    have hindex : (i + 1).toInt = i.toInt + 1 := toInt_add_one hlt
    have hcount : (taken + 1).toNat = taken.toNat + 1 := by
      rw [UInt64.toNat_add]
      exact Nat.mod_eq_of_lt (show taken.toNat + 1 < UInt64.size by omega)
    have hrest : turns (i + 1) stop = left := by
      unfold turns
      omega
    have hnext : inWords overflow limits name turn stop tests (taken + 1) (i + 1) =
        range limits name turn left (taken + 1).toNat (i + 1) :=
      ih hrest (by omega) (by omega)
    rw [inWords, if_pos hstop, if_pos hcount, range]
    simp only [if_pos hindex, hnext, hcount]

end Words

end Loop

/-! ## Loops over a range -/

section Statements

variable {ctx : Context} {fuel : Nat} {name : String} {start stop : Expr} {body : List Stmt}
  {a : Activation} {i j : Int64} {m m' : Machine}

/-- What is left of a loop over a range once its bounds are known. -/
theorem run_forRange
    (hstart : start.run ctx fuel a.scope a.machine.enterLoop = some (.ok (.int i), m))
    (hstop : stop.run ctx fuel a.scope m = some (.ok (.int j), m')) :
    (Stmt.forRange name start stop body).run ctx fuel a =
      ((Loop.range ctx.limits name (Exec.turn (Stmt.execAll ctx (ctx.calls fuel) fuel .unit body))
          (Loop.turns i j) 0 i >>= fun _ => pure .unit) ⟨a.scope, m'⟩).map
        fun (r, c) => (r, ⟨c.scope, c.machine.leaveLoop r⟩) := by
  have hbounds : Exec.eval (fun scope => do
      let x ← start.eval ctx (ctx.calls fuel) scope
      let y ← stop.eval ctx (ctx.calls fuel) scope
      Loop.bounds x y) ⟨a.scope, a.machine.enterLoop⟩ = some (.ok (i, j), ⟨a.scope, m'⟩) :=
    Exec.eval_eq_ok.mpr ⟨bind_eq_ok.mpr ⟨.int i, m, hstart, bind_eq_ok.mpr ⟨.int j, m', hstop, rfl⟩⟩,
      rfl⟩
  rw [Stmt.run, Stmt.exec, Exec.inLoop, bind_apply, hbounds]
  dsimp only
  cases (Loop.range ctx.limits name (Exec.turn (Stmt.execAll ctx (ctx.calls fuel) fuel .unit body))
    (Loop.turns i j) 0 i >>= fun _ => pure Value.unit) ⟨a.scope, m'⟩ <;> rfl

theorem run_forRange_iff {r : Except Exit Value} {b : Activation}
    (hstart : start.run ctx fuel a.scope a.machine.enterLoop = some (.ok (.int i), m))
    (hstop : stop.run ctx fuel a.scope m = some (.ok (.int j), m')) :
    (Stmt.forRange name start stop body).run ctx fuel a = some (r, b) ↔
      ∃ c, Loop.Iterates ctx.limits name (Stmt.execAll ctx (ctx.calls fuel) fuel .unit body) i j 0
          ⟨a.scope, m'⟩ r c ∧ b = ⟨c.scope, c.machine.leaveLoop r⟩ := by
  have hzero : i.toInt = i.toInt + (0 : Nat) := (Int.add_zero _).symm
  rw [run_forRange hstart hstop, Option.map_eq_some_iff]
  constructor
  · rintro ⟨⟨r', c⟩, hloop, heq⟩
    cases heq
    exact ⟨c, (Loop.iterates_iff hzero rfl fun _ _ => Nat.zero_le _).mp hloop, rfl⟩
  · rintro ⟨c, hloop, rfl⟩
    exact ⟨(r, c), (Loop.iterates_iff hzero rfl fun _ _ => Nat.zero_le _).mpr hloop, rfl⟩

end Statements

/-- **A loop over a range is its turns.**  If the bounds of a loop are evaluated, the first one before
the second, to the integers `i` and `j`, then the loop ends exactly as its turns do: turn `k` is for
the integer `i + k`, to which the name is bound anew, for `k = 0, 1, 2, …` as long as `i + k < j`; a
body that is completed or continued is followed by the next turn, and one that ends otherwise by
none.  If turns are limited to `n`, turn `n` is refused before the name is bound for it; no turn before
it is, so a limit that is not exceeded makes no difference.  If `i` is not below `j`, nothing is bound.

In words of 64 bits, neither the index nor the counter of turns overflows: what would happen then
has no influence on how the loop ends. -/
theorem range_turn_by_turn {ctx : Context} {fuel : Nat} {name : String} {start stop : Expr}
    {body : List Stmt} {a : Activation} {i j : Int64} {m m' : Machine}
    (hstart : start.run ctx fuel a.scope a.machine.enterLoop = some (.ok (.int i), m))
    (hstop : stop.run ctx fuel a.scope m = some (.ok (.int j), m')) :
    (∀ (r : Except Exit Value) (b : Activation),
      (Stmt.forRange name start stop body).run ctx fuel a = some (r, b) ↔
        ∃ c, Loop.Iterates ctx.limits name (Stmt.execAll ctx (ctx.calls fuel) fuel .unit body) i j 0
            ⟨a.scope, m'⟩ r c ∧ b = ⟨c.scope, c.machine.leaveLoop r⟩) ∧
    (∀ (n : Nat) (c d : Activation) (r : Except Exit Value), ctx.limits.turns = some n →
      i.toInt + n < j.toInt →
        (Loop.Iterates ctx.limits name (Stmt.execAll ctx (ctx.calls fuel) fuel .unit body) i j n
          c r d ↔ r = .error (.failed (.loopLimitExceeded n)) ∧ d = c)) ∧
    (∀ (n : Nat) (c d : Activation) (r : Except Exit Value), ctx.limits.turns = some n →
      j.toInt - i.toInt ≤ n →
        (Loop.Iterates ctx.limits name (Stmt.execAll ctx (ctx.calls fuel) fuel .unit body) i j 0
            c r d ↔
          Loop.Iterates { ctx.limits with turns := none } name
            (Stmt.execAll ctx (ctx.calls fuel) fuel .unit body) i j 0 c r d)) ∧
    (j.toInt ≤ i.toInt → (Stmt.forRange name start stop body).run ctx fuel a =
      some (.ok .unit, ⟨a.scope, m'.leaveLoop (.ok .unit : Except Exit Value)⟩)) ∧
    (∀ (overflow : Exec Unit) (tests : Nat), Loop.turns i j < tests →
      (Stmt.forRange name start stop body).run ctx fuel a =
        ((Loop.inWords overflow ctx.limits name
            (Exec.turn (Stmt.execAll ctx (ctx.calls fuel) fuel .unit body)) j tests 0 i >>=
              fun _ => pure .unit) ⟨a.scope, m'⟩).map
          fun (r, c) => (r, ⟨c.scope, c.machine.leaveLoop r⟩)) := by
  refine ⟨?turns, ?limit, ?ample, ?empty, ?words⟩
  case turns =>
    intro r b
    exact run_forRange_iff hstart hstop
  case limit =>
    intro n c d r hlimit hleft
    exact Loop.iterates_of_limit hleft hlimit
  case ample =>
    intro n c d r hlimit hn
    have hample := Loop.ample_of_le hlimit hn
    have hunlimited : Loop.Ample { ctx.limits with turns := none } i j :=
      Loop.ample_of_none rfl i j
    exact ⟨.under hample hunlimited, .under hunlimited hample⟩
  case empty =>
    intro hle
    have hnone : j.toInt ≤ i.toInt + (0 : Nat) := by
      rw [Int.natCast_zero, Int.add_zero]
      exact hle
    exact (run_forRange_iff hstart hstop).mpr ⟨_, .done hnone, rfl⟩
  case words =>
    intro overflow tests htests
    have hcount : (0 : UInt64).toNat + Loop.turns i j < UInt64.size := by
      have hlt := Loop.turns_lt i j
      rw [UInt64.toNat_zero, Nat.zero_add]
      exact hlt
    rw [run_forRange hstart hstop, Loop.inWords_eq_range overflow _ rfl hcount htests,
      UInt64.toNat_zero]

/-- A body that binds the name of its loop to something else, and then continues. -/
def rebinding : List Stmt :=
  [.cond (.compare .lt (.ident "i") (.int 0)) [.assign "i" (.int 7)] [], .continueLoop, .breakLoop]

/-- The widest of all ranges, under a limit of two turns: there are two, although the name is bound
to another integer after each, and the third one is refused. -/
theorem range_turn_by_turn_rebinding :
    ∃ b c, (Stmt.forRange "i" (.int Int64.minValue) (.int Int64.maxValue) rebinding).run
        ⟨{ turns := some 2 }, ∅⟩ 1 ⟨.root, {}⟩ =
          some (.error (.failed (.loopLimitExceeded 2)), b) ∧
      b.scope.own["i"]? = some { value := .int 7, ty := some .int } ∧
      Loop.Iterates { turns := some 2 } "i"
        (Stmt.execAll ⟨{ turns := some 2 }, ∅⟩ (Context.calls ⟨{ turns := some 2 }, ∅⟩ 1) 1 .unit
          rebinding) Int64.minValue Int64.maxValue 0 ⟨.root, Machine.enterLoop {}⟩
        (.error (.failed (.loopLimitExceeded 2))) c ∧
      b.scope = c.scope := by
  obtain ⟨b, hrun, hname⟩ :
      ∃ b, (Stmt.forRange "i" (.int Int64.minValue) (.int Int64.maxValue) rebinding).run
        ⟨{ turns := some 2 }, ∅⟩ 1 ⟨.root, {}⟩ =
          some (.error (.failed (.loopLimitExceeded 2)), b) ∧
        b.scope.own["i"]? = some { value := .int 7, ty := some .int } := ⟨_, rfl, rfl⟩
  obtain ⟨c, hloop, hb⟩ := ((range_turn_by_turn rfl rfl).1 _ b).mp hrun
  exact ⟨b, c, hrun, hname, hloop, by rw [hb]⟩

end Imperative
