import Imperative.Heap.Display
import Imperative.Heap.Equality
import Mathlib.Data.Finset.Card
import Mathlib.Logic.Relation

/-!
# Heaps without cycles

The text of a value and the comparison of two values descend through handles into lists, and only a
list that comes to contain itself could make them descend without end.  A heap is *acyclic* if there
is no such list (`Heap.Acyclic`).

A descent needs something that gets smaller, and what gets smaller in an acyclic heap is the number
of objects that a handle leads to (`Heap.height`).  All that the descents use of it is that it ranks
the handles in a list below the handle of the list (`Heap.Ranked`), and that no rank is larger than
the number of objects, so that the budgets of the two questions are large enough
(`Heap.Acyclic.show_ne_none`, `Heap.Acyclic.equal_ne_none`).
-/

namespace Imperative
namespace Heap

/-- The one value is the handle of a list, and the other one is an item of the list. -/
def HasItem (h : Heap) (v w : Value) : Prop :=
  ∃ r items, v = .ref r ∧ h.get? r = some (.list items) ∧ w ∈ items

/-- What a value comes to, going from lists to their items. -/
def Reaches (h : Heap) : Value → Value → Prop := Relation.ReflTransGen h.HasItem

/-- No list contains itself, neither as an item nor further down. -/
def Acyclic (h : Heap) : Prop := ∀ v, ¬ Relation.TransGen h.HasItem v v

/-- Every handle in a list ranks below the handle of the list. -/
def Ranked (h : Heap) (rank : Handle → Nat) : Prop :=
  ∀ r items q, h.get? r = some (.list items) → .ref q ∈ items → rank q < rank r

variable {h : Heap}

theorem hasItem_of_mem {r : Handle} {items : Array Value} (hr : h.get? r = some (.list items))
    {v : Value} (hv : v ∈ items.toList) : h.HasItem (.ref r) v :=
  ⟨r, items, rfl, hr, Array.mem_toList_iff.mp hv⟩

/-- A heap that is ranked is acyclic. -/
theorem Ranked.acyclic {rank : Handle → Nat} (hrank : h.Ranked rank) : h.Acyclic := by
  intro v hv
  have hlt {v w : Value} (hvw : Relation.TransGen h.HasItem v w) :
      ∀ q, w = .ref q → ∃ r, v = .ref r ∧ rank q < rank r := by
    induction hvw with
    | single hitem =>
      rintro q rfl
      obtain ⟨r, items, rfl, hr, hq⟩ := hitem
      exact ⟨r, rfl, hrank r items q hr hq⟩
    | tail _ hitem ih =>
      rintro q rfl
      obtain ⟨p, items, rfl, hp, hq⟩ := hitem
      obtain ⟨r, rfl, hpr⟩ := ih p rfl
      exact ⟨r, rfl, (hrank p items q hp hq).trans hpr⟩
  obtain ⟨w, ⟨r, items, rfl, -, -⟩, -⟩ := Relation.TransGen.head'_iff.mp hv
  obtain ⟨q, hq, hself⟩ := hlt hv r rfl
  cases hq
  exact Nat.lt_irrefl _ hself

/-! ## Heights -/

open Classical in
/-- The objects that a handle leads to, by their positions. -/
noncomputable def below (h : Heap) (r : Handle) : Finset Nat :=
  (Finset.range h.size).filter fun i => Relation.TransGen h.HasItem (.ref r) (.ref ⟨i⟩)

/-- The number of objects that are seen from a handle, its own included; none from a handle without
an object. -/
noncomputable def height (h : Heap) (r : Handle) : Nat :=
  match h.get? r with
  | none => 0
  | some _ => (h.below r).card + 1

theorem mem_below {r : Handle} {i : Nat} :
    i ∈ h.below r ↔ i < h.size ∧ Relation.TransGen h.HasItem (.ref r) (.ref ⟨i⟩) := by
  simp [below]

theorem lt_size_of_get? {r : Handle} {o : Object} (hr : h.get? r = some o) : r.index < h.size := by
  refine Nat.lt_of_not_le fun hle => ?_
  rw [(h.get?_eq_none_iff r).mpr hle] at hr
  cases hr

theorem Acyclic.height_le (hac : h.Acyclic) (r : Handle) : h.height r ≤ h.size := by
  unfold height
  split
  · exact Nat.zero_le _
  · next o hr =>
    have hsub : h.below r ⊂ Finset.range h.size := by
      refine (Finset.ssubset_iff_of_subset fun i hi => ?_).mpr ⟨r.index, ?_, ?_⟩
      · exact Finset.mem_range.mpr (mem_below.mp hi).1
      · exact Finset.mem_range.mpr (lt_size_of_get? hr)
      · exact fun hself => hac _ (mem_below.mp hself).2
    have hlt := Finset.card_lt_card hsub
    rwa [Finset.card_range] at hlt

theorem Acyclic.ranked (hac : h.Acyclic) : h.Ranked h.height := by
  intro r items q hr hq
  have hitem : h.HasItem (.ref r) (.ref q) := ⟨r, items, rfl, hr, hq⟩
  simp only [height, hr]
  split
  · exact Nat.succ_pos _
  · next o hq' =>
    have hsub : h.below q ⊂ h.below r := by
      refine (Finset.ssubset_iff_of_subset fun i hi => ?_).mpr ⟨q.index, ?_, ?_⟩
      · obtain ⟨hi, hpath⟩ := mem_below.mp hi
        exact mem_below.mpr ⟨hi, .head hitem hpath⟩
      · exact mem_below.mpr ⟨lt_size_of_get? hq', .single hitem⟩
      · exact fun hself => hac _ (mem_below.mp hself).2
    exact Nat.succ_lt_succ (Finset.card_lt_card hsub)

/-! ## Descents -/

theorem mapM_ne_none {α β : Type} {f : α → Option β} {xs : List α} (h : ∀ x ∈ xs, f x ≠ none) :
    xs.mapM f ≠ none := by
  induction xs with
  | nil => simp
  | cons x xs ih =>
    obtain ⟨y, hy⟩ := Option.ne_none_iff_exists'.mp (h x List.mem_cons_self)
    obtain ⟨ys, hys⟩ := Option.ne_none_iff_exists'.mp
      (ih fun z hz => h z (List.mem_cons_of_mem x hz))
    simp [List.mapM_cons, hy, hys]

theorem allPairs_ne_none {test : Value → Value → Option Bool} {xs ys : List Value}
    (h : ∀ x ∈ xs, ∀ y, test x y ≠ none) : allPairs test xs ys ≠ none := by
  induction xs generalizing ys with
  | nil => simp [allPairs]
  | cons x xs ih =>
    cases ys with
    | nil => simp [allPairs]
    | cons y ys =>
      obtain ⟨p, hp⟩ := Option.ne_none_iff_exists'.mp (h x List.mem_cons_self y)
      have hrest : allPairs test xs ys ≠ none := ih fun z hz => h z (List.mem_cons_of_mem x hz)
      cases p <;> simp [allPairs, hp, hrest]

section Descents

variable {rank : Handle → Nat}

/-- A descent from a handle of a rank below `n` passes through at most `n` handles. -/
theorem Ranked.showWithin_ne_none (hrank : h.Ranked rank) {n : Nat} {v : Value}
    (hv : ∀ r, v = .ref r → rank r < n) : h.showWithin? (n + 1) v ≠ none := by
  induction n generalizing v with
  | zero =>
    cases v with
    | ref r => exact absurd (hv r rfl) (Nat.not_lt_zero _)
    | _ => simp [showWithin?]
  | succ n ih =>
    cases v with
    | ref r =>
      rw [showWithin?]
      cases hr : h.get? r with
      | none => simp
      | some o =>
        cases o with
        | list items =>
          have hitems : items.toList.mapM (h.showWithin? (n + 1)) ≠ none := by
            refine mapM_ne_none fun w hw => ih ?_
            rintro q rfl
            exact Nat.lt_of_lt_of_le (hrank r items q hr (Array.mem_toList_iff.mp hw))
              (Nat.le_of_lt_succ (hv r rfl))
          simp [hitems]
        | _ => simp
    | _ => simp [showWithin?]

/-- It is enough that one of two values goes down. -/
theorem Ranked.equalWithin_ne_none (hrank : h.Ranked rank) {n : Nat} {v : Value}
    (hv : ∀ r, v = .ref r → rank r < n) (w : Value) : h.equalWithin? (n + 1) v w ≠ none := by
  induction n generalizing v w with
  | zero =>
    cases v with
    | ref r => exact absurd (hv r rfl) (Nat.not_lt_zero _)
    | _ => simp [equalWithin?]
  | succ n ih =>
    cases v with
    | ref r =>
      cases w with
      | ref q =>
        simp only [equalWithin?]
        split
        · exact Option.some_ne_none _
        · split
          · next items _ hr _ =>
            split
            · refine allPairs_ne_none fun x hx y => ih ?_ y
              rintro p rfl
              exact Nat.lt_of_lt_of_le (hrank r items p hr (Array.mem_toList_iff.mp hx))
                (Nat.le_of_lt_succ (hv r rfl))
            · exact Option.some_ne_none _
          · exact Option.some_ne_none _
          · exact Option.some_ne_none _
      | _ => simp [equalWithin?]
    | _ => simp [equalWithin?]

/-- **In an acyclic heap every value has a text.** -/
theorem Acyclic.show_ne_none (hac : h.Acyclic) (v : Value) : h.show? v ≠ none :=
  hac.ranked.showWithin_ne_none fun r _ => Nat.lt_succ_of_le (hac.height_le r)

/-- **In an acyclic heap any two values can be compared.** -/
theorem Acyclic.equal_ne_none (hac : h.Acyclic) (v w : Value) : h.equal? v w ≠ none := by
  refine hac.ranked.equalWithin_ne_none (fun r _ => Nat.lt_succ_of_le ?_) w
  exact (hac.height_le r).trans (Nat.le_mul_self h.size)

end Descents

end Heap
end Imperative
