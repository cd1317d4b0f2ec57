import Imperative.Proofs.Cycles
import Imperative.Proofs.Liveness

/-!
# Layered heaps

In a *layered* heap every handle in a list is smaller than the handle of that list (`Heap.Layered`).
So the handles rank the heap, there are no cycles in it, every value has a text and any two values
can be compared (`Heap.Layered.observable`).

An object that is stored last can only name objects from before, so storing objects keeps a heap
layered.  It also keeps the answers to all questions about live values: a heap with more objects at
its end (`Heap.Extended`) shows them as they were, as lists of the same items with the same texts
(`Heap.Layered.preserved`).
-/

namespace Imperative

/-! ## Smaller handles -/

/-- A value is no handle, or one that is smaller than a bound. -/
def Value.Below (n : Nat) (v : Value) : Prop := ∀ r, v = .ref r → r.index < n

/-- Every handle in a list is smaller than the handle of the list. -/
def Heap.Layered (h : Heap) : Prop :=
  ∀ (r : Handle) (items : Array Value), h.get? r = some (.list items) →
    ∀ v ∈ items, v.Below r.index

namespace Heap

/-- Every value can be shown, and any two values can be compared in content. -/
structure Observable (h : Heap) : Prop where
  text : ∀ v, h.show? v ≠ none
  equal : ∀ v w, h.equal? v w ≠ none

/-- The handles themselves rank a layered heap. -/
theorem Layered.ranked {h : Heap} (hl : h.Layered) : h.Ranked Handle.index :=
  fun r items q hr hq => hl r items hr (.ref q) hq q rfl

theorem Acyclic.observable {h : Heap} (hac : h.Acyclic) : h.Observable :=
  ⟨hac.show_ne_none, hac.equal_ne_none⟩

/-- **In a layered heap every value has a text, and any two values can be compared.** -/
theorem Layered.observable {h : Heap} (hl : h.Layered) : h.Observable := hl.ranked.acyclic.observable

/-- An object that names only objects from before is in no one's way. -/
theorem Layered.alloc {h : Heap} (hl : h.Layered) {o : Object} (ho : o.Live h) :
    (h.alloc o).Layered := by
  intro r items hr v hv
  rw [get?_alloc] at hr
  split at hr
  · next hnext =>
    cases hr
    rw [hnext]
    exact ho items rfl v hv
  · exact hl r items hr v hv

theorem layered_empty : Layered {} := by
  intro r items hr
  rw [get?_empty] at hr
  cases hr

/-! ## More objects -/

/-- One heap has the objects of another one, as they are there, and perhaps more after them. -/
def Extended (h h' : Heap) : Prop := h.objects.toList <+: h'.objects.toList

/-- Nothing is to be told of the live values of a heap that was not the same before. -/
structure Preserved (h h' : Heap) : Prop where
  extended : h.Extended h'
  text : ∀ v, v.Live h → h'.show? v = h.show? v
  shape : ∀ v, v.Live h → h'.shape v = h.shape v
  check : ∀ v, v.Live h → ∀ t, h'.check v t = h.check v t
  equal : ∀ v w, v.Live h → w.Live h → h'.equal? v w = h.equal? v w

namespace Extended

variable {h h' : Heap}

theorem refl (h : Heap) : h.Extended h := List.prefix_refl _

theorem trans {h₁ h₂ h₃ : Heap} (h₁₂ : h₁.Extended h₂) (h₂₃ : h₂.Extended h₃) :
    h₁.Extended h₃ :=
  List.IsPrefix.trans h₁₂ h₂₃

theorem alloc (h : Heap) (o : Object) : h.Extended (h.alloc o) := by
  rw [Extended, Heap.alloc, Array.toList_push]
  exact List.prefix_append _ _

theorem size_le (he : h.Extended h') : h.size ≤ h'.size := List.IsPrefix.length_le he

theorem get?_of_some (he : h.Extended h') {r : Handle} {o : Object} (ho : h.get? r = some o) :
    h'.get? r = some o := by
  rw [get?, ← Array.getElem?_toList] at ho ⊢
  obtain ⟨hr, rfl⟩ := List.getElem?_eq_some_iff.mp ho
  exact List.prefix_iff_getElem?.mp he r.index hr

/-- A live handle names the same object ever after. -/
theorem get?_eq (he : h.Extended h') {r : Handle} (hr : r.Live h) : h'.get? r = h.get? r := by
  obtain ⟨o, ho⟩ := Option.ne_none_iff_exists'.mp hr.get?_ne_none
  rw [ho, he.get?_of_some ho]

end Extended

/-! ## The same questions, with more objects -/

theorem mapM_of_some {α β : Type} {f g : α → Option β} {xs : List α} {ys : List β}
    (hfg : ∀ x ∈ xs, ∀ y, f x = some y → g x = some y) (h : xs.mapM f = some ys) :
    xs.mapM g = some ys := by
  induction xs generalizing ys with
  | nil => simpa using h
  | cons x xs ih =>
    rw [List.mapM_cons] at h ⊢
    obtain ⟨y, hy, hrest⟩ := Option.bind_eq_some_iff.mp h
    obtain ⟨zs, hzs, hys⟩ := Option.bind_eq_some_iff.mp hrest
    rw [hfg x List.mem_cons_self y hy, ih (fun z hz => hfg z (List.mem_cons_of_mem x hz)) hzs]
    exact hys

theorem allPairs_of_some {test test' : Value → Value → Option Bool} {xs ys : List Value}
    {p : Bool} (htest : ∀ x ∈ xs, ∀ y ∈ ys, ∀ q, test x y = some q → test' x y = some q)
    (h : allPairs test xs ys = some p) : allPairs test' xs ys = some p := by
  induction xs generalizing ys with
  | nil => simpa [allPairs] using h
  | cons x xs ih =>
    cases ys with
    | nil => simpa [allPairs] using h
    | cons y ys =>
      cases hxy : test x y with
      | none => simp [allPairs, hxy] at h
      | some q =>
        have hxy' := htest x List.mem_cons_self y List.mem_cons_self q hxy
        cases q with
        | false => simpa [allPairs, hxy, hxy'] using h
        | true =>
          simp only [allPairs, hxy] at h
          simp only [allPairs, hxy']
          exact ih (fun z hz w hw => htest z (List.mem_cons_of_mem x hz) w
            (List.mem_cons_of_mem y hw)) h

section Answers

variable {h h' : Heap}

/-- An answer does not change with more objects and a larger budget.  A descent from a live value
only comes to live values, and so not to the new objects. -/
theorem Extended.showWithin (he : h.Extended h') (hlive : ∀ r o, h.get? r = some o → o.Live h)
    {n n' : Nat} (hle : n ≤ n') {v : Value} (hv : v.Live h) {text : String}
    (htext : h.showWithin? n v = some text) : h'.showWithin? n' v = some text := by
  induction n generalizing n' v text with
  | zero => cases htext
  | succ n ih =>
    cases n' with
    | zero => exact absurd hle (Nat.not_succ_le_zero n)
    | succ n' =>
      cases v with
      | ref r =>
        rw [showWithin?] at htext ⊢
        rw [he.get?_eq (hv r rfl)]
        cases hr : h.get? r with
        | none => exact absurd hr (hv r rfl).get?_ne_none
        | some o =>
          rw [hr] at htext
          cases o with
          | list items =>
            obtain ⟨texts, htexts, rfl⟩ := Option.map_eq_some_iff.mp htext
            have hmore : items.toList.mapM (h'.showWithin? n') = some texts := by
              refine mapM_of_some (fun x hx y => ih (Nat.le_of_succ_le_succ hle) ?_) htexts
              exact hlive r _ hr items rfl x (Array.mem_toList_iff.mp hx)
            simp only [hmore, Option.map_some]
          | _ => exact htext
      | _ => exact htext

/-- The same of a comparison, which descends on both sides at once. -/
theorem Extended.equalWithin (he : h.Extended h') (hlive : ∀ r o, h.get? r = some o → o.Live h)
    {n n' : Nat} (hle : n ≤ n') {v w : Value} (hv : v.Live h) (hw : w.Live h) {p : Bool}
    (hp : h.equalWithin? n v w = some p) : h'.equalWithin? n' v w = some p := by
  induction n generalizing n' v w p with
  | zero => cases hp
  | succ n ih =>
    cases n' with
    | zero => exact absurd hle (Nat.not_succ_le_zero n)
    | succ n' =>
      cases v with
      | ref r =>
        cases w with
        | ref q =>
          simp only [equalWithin?] at hp ⊢
          rw [he.get?_eq (hv r rfl), he.get?_eq (hw q rfl)]
          split at hp
          · next heq => rwa [if_pos heq]
          · next hne =>
            rw [if_neg hne]
            split at hp
            · next xs ys hxs hys =>
              split at hp
              · next hsize =>
                rw [if_pos hsize]
                refine allPairs_of_some (fun x hx y hy _ => ?_) hp
                refine ih (Nat.le_of_succ_le_succ hle) ?_ ?_
                · exact hlive r _ hxs xs rfl x (Array.mem_toList_iff.mp hx)
                · exact hlive q _ hys ys rfl y (Array.mem_toList_iff.mp hy)
              · next hsize => rwa [if_neg hsize]
            · exact hp
            · exact hp
        | _ => exact hp
      | _ => exact hp

/-- **What is live in a layered heap is preserved by more objects.** -/
theorem Layered.preserved (hl : h.Layered) (hlive : ∀ r o, h.get? r = some o → o.Live h)
    (he : h.Extended h') : h.Preserved h' where
  extended := he
  text v hv := by
    obtain ⟨text, htext⟩ := Option.ne_none_iff_exists'.mp (hl.observable.text v)
    have hle : h.size + 2 ≤ h'.size + 2 := Nat.add_le_add_right he.size_le 2
    rw [htext]
    exact he.showWithin hlive hle hv htext
  shape v hv := by
    cases v with
    | ref r => simp only [Heap.shape, he.get?_eq (hv r rfl)]
    | _ => rfl
  check v hv t := by
    cases v with
    | ref r => simp only [Heap.check, admits, fetch, Heap.shape, he.get?_eq (hv r rfl)]
    | _ => rfl
  equal v w hv hw := by
    obtain ⟨p, hp⟩ := Option.ne_none_iff_exists'.mp (hl.observable.equal v w)
    have hle : h.pairBudget ≤ h'.pairBudget :=
      Nat.add_le_add_right (Nat.mul_le_mul he.size_le he.size_le) 2
    rw [hp]
    exact he.equalWithin hlive hle hv hw hp

end Answers

end Heap

end Imperative
