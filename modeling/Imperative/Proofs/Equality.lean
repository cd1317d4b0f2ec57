import Imperative.Proofs.Cycles

/-!
# The laws of equality

Equality in content is decided by a shortcut, if two handles are the same, and by looking at the
objects otherwise, and the two ways do not agree on everything: a list with a NaN in it is equal to
itself, because it is one object, and differs from every copy of it.  All the same, equality is
symmetric and transitive on all values, and only a NaN by itself is not equal to itself
(`equality_lawful`).

What is equal without descending is the same, floats apart (`Value.beq_iff`, `Object.beq_iff`).  Two
floats are equal if there is no difference in what is compared of them, which is nothing of a NaN
and all of any other float but the sign of a zero (`float_beq_iff`).  From there on nothing is used
of floats but that their equality is symmetric and transitive, and that a float is equal to itself
unless it is a NaN.
-/

namespace Imperative

open Float.Model (UnpackedFloat)

/-! ## Equality of floats -/

/-- What is compared of a float. -/
def compared : UnpackedFloat → Option UnpackedFloat
  | .notANumber => none
  | .zero _ => some (.zero .positive)
  | x => some x

theorem compare_eq_some_eq (a b : UnpackedFloat) :
    a.compare b = some .eq ↔ compared a = compared b ∧ compared a ≠ none := by
  have hparts (m n : Nat) (e f : Int) :
      (compare e f).then (compare m n) = .eq ↔ m = n ∧ e = f := by
    rw [Ordering.then_eq_eq, Std.compare_eq_iff_eq, Std.compare_eq_iff_eq, and_comm]
  constructor
  · intro h
    rcases a with (_ | _) | _ | _ | ⟨_ | _, m, e, _⟩ <;>
      rcases b with (_ | _) | _ | _ | ⟨_ | _, n, f, _⟩ <;> try cases h
    any_goals exact ⟨rfl, nofun⟩
    -- What is left are two finite floats, both below zero or both above.
    · obtain ⟨rfl, rfl⟩ := (hparts m n e f).mp (Ordering.swap_eq_eq.mp (Option.some.inj h))
      exact ⟨rfl, nofun⟩
    · obtain ⟨rfl, rfl⟩ := (hparts m n e f).mp (Option.some.inj h)
      exact ⟨rfl, nofun⟩
  · rintro ⟨h, hnone⟩
    rcases a with (_ | _) | _ | _ | ⟨_ | _, m, e, _⟩ <;>
      rcases b with (_ | _) | _ | _ | ⟨_ | _, n, f, _⟩ <;> try cases h
    any_goals rfl
    · exact absurd rfl hnone
    · exact congrArg some (Ordering.swap_eq_eq.mpr ((hparts m m e e).mpr ⟨rfl, rfl⟩))
    · exact congrArg some ((hparts m m e e).mpr ⟨rfl, rfl⟩)

theorem float_beq_iff {x y : Float} :
    (x == y) = true ↔ compared x.toModel.unpack = compared y.toModel.unpack ∧
      compared x.toModel.unpack ≠ none :=
  (beq_iff_eq (α := Option Ordering)).trans (compare_eq_some_eq _ _)

theorem float_beq_symm {x y : Float} (hxy : (x == y) = true) : (y == x) = true := by
  rw [float_beq_iff] at hxy ⊢
  exact ⟨hxy.1.symm, hxy.1 ▸ hxy.2⟩

theorem float_beq_trans {x y z : Float} (hxy : (x == y) = true) (hyz : (y == z) = true) :
    (x == z) = true := by
  rw [float_beq_iff] at hxy hyz ⊢
  exact ⟨hxy.1.trans hyz.1, hxy.2⟩

theorem float_beq_self_iff {x : Float} : (x == x) = true ↔ x.isNaN = false := by
  have hnan (a : UnpackedFloat) : compared a ≠ none ↔ a.isNaN = false := by
    cases a with
    | notANumber => exact iff_of_false (· rfl) nofun
    | _ => exact iff_of_true nofun rfl
  rw [float_beq_iff]
  exact (and_iff_right rfl).trans (hnan _)

/-! ## Equality without descending -/

namespace Value

theorem beq_iff {a b : Value} :
    (a == b) = true ↔
      (∃ x y, a = .float x ∧ b = .float y ∧ (x == y) = true) ∨ (∀ x, a ≠ .float x) ∧ a = b := by
  cases a <;> cases b <;> simp [BEq.beq, instBEqValue.beq]

instance : PartialEquivBEq Value where
  symm {a b} hab := by
    obtain ⟨x, y, rfl, rfl, hxy⟩ | ⟨-, rfl⟩ := beq_iff.mp hab
    · exact beq_iff.mpr (.inl ⟨y, x, rfl, rfl, float_beq_symm hxy⟩)
    · exact hab
  trans {a b c} hab hbc := by
    obtain ⟨x, y, rfl, rfl, hxy⟩ | ⟨-, rfl⟩ := beq_iff.mp hab
    · obtain ⟨y', z, hy, rfl, hyz⟩ | ⟨hfloat, -⟩ := beq_iff.mp hbc
      · cases hy
        exact beq_iff.mpr (.inl ⟨x, z, rfl, rfl, float_beq_trans hxy hyz⟩)
      · exact absurd rfl (hfloat y)
    · exact hbc

theorem beq_self_iff {v : Value} : (v == v) = true ↔ ∀ x, v = .float x → x.isNaN = false := by
  cases v with
  | float x =>
    refine float_beq_self_iff.trans ⟨fun h y hy => ?_, fun h => h x rfl⟩
    cases hy
    exact h
  | _ => simp [beq_iff]

theorem refs_or (a b : Value) :
    (∃ x y, a = .ref x ∧ b = .ref y) ∨ ∀ x y, a = .ref x → b ≠ .ref y := by
  by_cases hrefs : ∃ x y, a = .ref x ∧ b = .ref y
  · exact .inl hrefs
  · exact .inr fun x y ha hb => hrefs ⟨x, y, ha, hb⟩

end Value

/-- Two objects are equal without descending if they are the same, unless both are lists. -/
theorem Object.beq_iff {p q : Object} (hlists : ∀ xs ys, p = .list xs → q ≠ .list ys) :
    (p == q) = true ↔ p = q := by
  cases p <;> cases q <;> simp_all [BEq.beq, instBEqObject.beq]

/-! ## Equality in content -/

namespace Heap

variable {h : Heap} {n : Nat}

theorem allPairs_comm {test : Value → Value → Option Bool} {xs ys : List Value}
    (htest : ∀ x y, test x y = test y x) : allPairs test xs ys = allPairs test ys xs := by
  induction xs generalizing ys with
  | nil => cases ys <;> rfl
  | cons x xs ih =>
    cases ys with
    | nil => rfl
    | cons y ys => rw [allPairs, allPairs, htest x y, ih]

theorem allPairs_cons_iff {test : Value → Value → Option Bool} {x y : Value} {xs ys : List Value} :
    allPairs test (x :: xs) (y :: ys) = some true ↔
      test x y = some true ∧ allPairs test xs ys = some true := by
  rw [allPairs]
  cases test x y with
  | none => simp
  | some p => cases p <;> simp

theorem allPairs_trans {test : Value → Value → Option Bool} {xs ys zs : List Value}
    (htest : ∀ x y z, test x y = some true → test y z = some true → test x z = some true)
    (hlength : xs.length = ys.length) (hxy : allPairs test xs ys = some true)
    (hyz : allPairs test ys zs = some true) : allPairs test xs zs = some true := by
  induction xs generalizing ys zs with
  | nil => rw [allPairs]
  | cons x xs ih =>
    cases zs with
    | nil => rfl
    | cons z zs =>
      cases ys with
      | nil => cases hlength
      | cons y ys =>
        obtain ⟨hx, hxs⟩ := allPairs_cons_iff.mp hxy
        obtain ⟨hy, hys⟩ := allPairs_cons_iff.mp hyz
        refine allPairs_cons_iff.mpr ⟨htest x y z hx hy, ih ?_ hxs hys⟩
        exact Nat.succ.inj hlength

theorem lists_or (h : Heap) (x y : Handle) :
    (∃ xs ys, h.get? x = some (.list xs) ∧ h.get? y = some (.list ys)) ∨
      ∀ xs ys, h.get? x = some (.list xs) → h.get? y ≠ some (.list ys) := by
  by_cases hlists : ∃ xs ys, h.get? x = some (.list xs) ∧ h.get? y = some (.list ys)
  · exact .inl hlists
  · exact .inr fun xs ys hx hy => hlists ⟨xs, ys, hx, hy⟩

/-- Two values that are not both handles are compared as they are. -/
theorem equalWithin_of_not_ref {a b : Value} (hab : ∀ x y, a = .ref x → b ≠ .ref y) :
    h.equalWithin? (n + 1) a b = some (a == b) := by
  cases a with
  | ref x =>
    cases b with
    | ref y => exact absurd rfl (hab x y rfl)
    | _ => rfl
  | _ => rfl

theorem equalWithin_self (x : Handle) : h.equalWithin? (n + 1) (.ref x) (.ref x) = some true :=
  if_pos rfl

section Handles

variable {x y : Handle} (hxy : x ≠ y)

include hxy

theorem equalWithin_lists {xs ys : Array Value} (hx : h.get? x = some (.list xs))
    (hy : h.get? y = some (.list ys)) :
    h.equalWithin? (n + 1) (.ref x) (.ref y) =
      if xs.size = ys.size then allPairs (h.equalWithin? n) xs.toList ys.toList
      else some false := by
  simp only [equalWithin?, if_neg hxy, hx, hy]

theorem equalWithin_objects {p q : Object} (hx : h.get? x = some p) (hy : h.get? y = some q)
    (hlists : ∀ xs ys, p = .list xs → q ≠ .list ys) :
    h.equalWithin? (n + 1) (.ref x) (.ref y) = some (p == q) := by
  cases p with
  | list xs =>
    cases q with
    | list ys => exact absurd rfl (hlists xs ys rfl)
    | _ => simp only [equalWithin?, if_neg hxy, hx, hy]
  | _ => simp only [equalWithin?, if_neg hxy, hx, hy]

/-- Different handles that are not both handles of lists are equal if they name the same thing. -/
theorem equalWithin_others
    (hlists : ∀ xs ys, h.get? x = some (.list xs) → h.get? y ≠ some (.list ys)) :
    ∃ p, h.equalWithin? (n + 1) (.ref x) (.ref y) = some p ∧
      (p = true ↔ ∃ o, h.get? x = some o ∧ h.get? y = some o) := by
  by_cases hlive : ∃ p q, h.get? x = some p ∧ h.get? y = some q
  · obtain ⟨p, q, hp, hq⟩ := hlive
    have hpq : ∀ xs ys, p = .list xs → q ≠ .list ys := by
      rintro xs ys rfl rfl
      exact hlists xs ys hp hq
    refine ⟨p == q, equalWithin_objects hxy hp hq hpq, (Object.beq_iff hpq).trans ⟨?_, ?_⟩⟩
    · rintro rfl
      exact ⟨p, hp, hq⟩
    · rintro ⟨o, hpo, hqo⟩
      exact Option.some_inj.mp (hp.symm.trans (hpo.trans (hqo.symm.trans hq)))
  · refine ⟨false, ?_, iff_of_false nofun fun ⟨o, ho, ho'⟩ => hlive ⟨o, o, ho, ho'⟩⟩
    simp only [equalWithin?, if_neg hxy]
    split
    · next hp hq => exact absurd ⟨_, _, hp, hq⟩ hlive
    · next hp hq => exact absurd ⟨_, _, hp, hq⟩ hlive
    · rfl

end Handles

theorem equalWithin_comm (a b : Value) : h.equalWithin? n a b = h.equalWithin? n b a := by
  induction n generalizing a b with
  | zero => rfl
  | succ n ih =>
    obtain ⟨x, y, rfl, rfl⟩ | hrefs := a.refs_or b
    · by_cases hxy : x = y
      · rw [hxy]
      obtain ⟨xs, ys, hx, hy⟩ | hlists := h.lists_or x y
      · rw [equalWithin_lists hxy hx hy, equalWithin_lists (Ne.symm hxy) hy hx, allPairs_comm ih]
        simp only [eq_comm (a := xs.size)]
      · obtain ⟨p, hp, hpiff⟩ := equalWithin_others (n := n) hxy hlists
        obtain ⟨q, hq, hqiff⟩ :=
          equalWithin_others (n := n) (Ne.symm hxy) fun ys xs hy hx => hlists xs ys hx hy
        rw [hp, hq, Bool.eq_iff_iff.mpr (hpiff.trans (Iff.trans ?_ hqiff.symm))]
        exact exists_congr fun o => and_comm
    · rw [equalWithin_of_not_ref hrefs, equalWithin_of_not_ref fun y x hy hx => hrefs x y hx hy]
      exact congrArg some BEq.comm

/-- The ways in which two handles can be equal in content. -/
theorem equalWithin_ref_iff {x y : Handle} :
    h.equalWithin? (n + 1) (.ref x) (.ref y) = some true ↔
      x = y ∨
      (∃ xs ys, h.get? x = some (.list xs) ∧ h.get? y = some (.list ys) ∧ xs.size = ys.size ∧
        allPairs (h.equalWithin? n) xs.toList ys.toList = some true) ∨
      ∃ o, (∀ items, o ≠ .list items) ∧ h.get? x = some o ∧ h.get? y = some o := by
  by_cases hxy : x = y
  · rw [hxy]
    exact iff_of_true (equalWithin_self y) (.inl rfl)
  obtain ⟨xs, ys, hx, hy⟩ | hlists := h.lists_or x y
  · rw [equalWithin_lists hxy hx hy]
    constructor
    · intro heq
      split at heq
      · next hsize => exact .inr (.inl ⟨xs, ys, hx, hy, hsize, heq⟩)
      · cases heq
    · rintro (heq | ⟨xs', ys', hx', hy', hsize, hpairs⟩ | ⟨o, ho, hx', -⟩)
      · exact absurd heq hxy
      · cases hx.symm.trans hx'
        cases hy.symm.trans hy'
        rw [if_pos hsize, hpairs]
      · cases hx.symm.trans hx'
        exact absurd rfl (ho xs)
  · obtain ⟨p, hp, hpiff⟩ := equalWithin_others (n := n) hxy hlists
    rw [hp, Option.some_inj, hpiff]
    constructor
    · rintro ⟨o, hx, hy⟩
      refine .inr (.inr ⟨o, ?_, hx, hy⟩)
      rintro items rfl
      exact hlists items items hx hy
    · rintro (heq | ⟨xs, ys, hx, hy, -⟩ | ⟨o, -, hx, hy⟩)
      · exact absurd heq hxy
      · exact absurd hy (hlists xs ys hx)
      · exact ⟨o, hx, hy⟩

/-- What a handle is equal to is a handle. -/
theorem equalWithin_isRef {a b : Value} (hab : h.equalWithin? (n + 1) a b = some true) :
    (∃ x, a = .ref x) ↔ ∃ y, b = .ref y := by
  obtain ⟨x, y, rfl, rfl⟩ | hrefs := a.refs_or b
  · exact iff_of_true ⟨x, rfl⟩ ⟨y, rfl⟩
  · rw [equalWithin_of_not_ref hrefs, Option.some_inj] at hab
    obtain ⟨x, y, rfl, rfl, -⟩ | ⟨-, rfl⟩ := Value.beq_iff.mp hab
    · exact iff_of_false nofun nofun
    · rfl

theorem equalWithin_trans {a b c : Value} (hab : h.equalWithin? n a b = some true)
    (hbc : h.equalWithin? n b c = some true) : h.equalWithin? n a c = some true := by
  induction n generalizing a b c with
  | zero => cases hab
  | succ n ih =>
    by_cases hb : ∃ y, b = .ref y
    · obtain ⟨x, rfl⟩ := (equalWithin_isRef hab).mpr hb
      obtain ⟨z, rfl⟩ := (equalWithin_isRef hbc).mp hb
      obtain ⟨y, rfl⟩ := hb
      -- A handle that occurs twice makes one of the two given equalities the wanted one.
      obtain rfl | hxy := equalWithin_ref_iff.mp hab
      · exact hbc
      obtain rfl | hyz := equalWithin_ref_iff.mp hbc
      · exact hab
      refine equalWithin_ref_iff.mpr (.inr ?_)
      obtain ⟨xs, ys, hx, hy, hsize, hpairs⟩ | ⟨o, ho, hx, hy⟩ := hxy
      · obtain ⟨ys', zs, hy', hz, hsize', hpairs'⟩ | ⟨o', ho', hy', -⟩ := hyz
        · cases hy.symm.trans hy'
          exact .inl ⟨xs, zs, hx, hz, hsize.trans hsize', allPairs_trans (fun _ _ _ => ih) hsize
            hpairs hpairs'⟩
        · cases hy.symm.trans hy'
          exact absurd rfl (ho' ys)
      · obtain ⟨ys, zs, hy', -⟩ | ⟨o', ho', hy', hz⟩ := hyz
        · cases hy.symm.trans hy'
          exact absurd rfl (ho ys)
        · cases hy.symm.trans hy'
          exact .inr ⟨o, ho, hx, hz⟩
    · have ha : ¬ ∃ x, a = .ref x := fun ha => hb ((equalWithin_isRef hab).mp ha)
      rw [equalWithin_of_not_ref fun x _ hx => absurd ⟨x, hx⟩ ha] at hab
      rw [equalWithin_of_not_ref fun y _ hy => absurd ⟨y, hy⟩ hb] at hbc
      rw [equalWithin_of_not_ref fun x _ hx => absurd ⟨x, hx⟩ ha]
      exact congrArg some (BEq.trans (Option.some_inj.mp hab) (Option.some_inj.mp hbc))

/-- A value is equal to itself, unless it is a NaN: a list with a NaN in it is. -/
theorem equalWithin_self_iff {v : Value} :
    h.equalWithin? (n + 1) v v = some true ↔ ∀ x, v = .float x → x.isNaN = false := by
  by_cases hv : ∃ x, v = .ref x
  · obtain ⟨x, rfl⟩ := hv
    exact iff_of_true (equalWithin_self x) nofun
  · rw [equalWithin_of_not_ref fun x _ hx => absurd ⟨x, hx⟩ hv, Option.some_inj]
    exact Value.beq_self_iff

end Heap

/-- **The laws of equality.**  On a heap without cycles the comparison of any two values has an
answer, the same in both directions; what is equal to something is equal to whatever that is equal
to; and every value is equal to itself but a NaN. -/
theorem equality_lawful (h : Heap) (hac : h.Acyclic) :
    (∀ a b, ∃ p, h.equal? a b = some p ∧ h.equal? b a = some p) ∧
    (∀ a b c, h.equal? a b = some true → h.equal? b c = some true → h.equal? a c = some true) ∧
    ∀ v, h.equal? v v = some true ↔ ∀ x, v = .float x → x.isNaN = false := by
  refine ⟨fun a b => ?_, fun a b c => Heap.equalWithin_trans, fun v => Heap.equalWithin_self_iff⟩
  obtain ⟨p, hp⟩ := Option.ne_none_iff_exists'.mp (hac.equal_ne_none a b)
  exact ⟨p, hp, (Heap.equalWithin_comm b a).trans hp⟩

/-- A list with a NaN in it and a copy of the list, between them two lists that both hold the first
one and a handle without an object. -/
def nanLists : Heap := ⟨#[
  .list #[.float (0.0 / 0.0)],
  .list #[.ref ⟨0⟩, .ref ⟨7⟩],
  .list #[.ref ⟨0⟩, .ref ⟨7⟩],
  .list #[.float (0.0 / 0.0)]]⟩

theorem acyclic_nanLists : nanLists.Acyclic := by
  suffices hrank : nanLists.Ranked fun r => if r.index = 1 ∨ r.index = 2 then 1 else 0 from
    hrank.acyclic
  rintro ⟨i⟩ items q hr hq
  match i with
  | 0 | 3 =>
    cases hr
    simp at hq
  | 1 | 2 =>
    cases hr
    have hitem : q = ⟨0⟩ ∨ q = ⟨7⟩ := by simpa using hq
    obtain rfl | rfl := hitem <;> decide
  | i + 4 => simp [Heap.get?, nanLists] at hr

/-- The two lists in the middle are equal, since they share the NaN.  The copy is not equal to what
it is a copy of, and each of the two is equal to itself. -/
theorem equality_lawful_nanLists :
    nanLists.Acyclic ∧ nanLists.equal? (.ref ⟨1⟩) (.ref ⟨2⟩) = some true ∧
      nanLists.equal? (.ref ⟨2⟩) (.ref ⟨1⟩) = some true ∧
      nanLists.equal? (.ref ⟨0⟩) (.ref ⟨3⟩) = some false ∧
      nanLists.equal? (.ref ⟨0⟩) (.ref ⟨0⟩) = some true := by
  obtain ⟨hcomm, -, hself⟩ := equality_lawful nanLists acyclic_nanLists
  have hshared : nanLists.equal? (.ref ⟨1⟩) (.ref ⟨2⟩) = some true := by decide +kernel
  have hcopy : nanLists.equal? (.ref ⟨0⟩) (.ref ⟨3⟩) = some false := by decide +kernel
  obtain ⟨p, hp, hback⟩ := hcomm (.ref ⟨1⟩) (.ref ⟨2⟩)
  obtain rfl : true = p := Option.some_inj.mp (hshared.symm.trans hp)
  exact ⟨acyclic_nanLists, hshared, hback, hcopy, (hself (.ref ⟨0⟩)).mpr nofun⟩

end Imperative
