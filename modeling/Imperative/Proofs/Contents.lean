import Imperative.Proofs.Equality

/-!
# Contents

What a value holds, whichever objects it holds it in, is a *tree*: the handles are gone, and in the
place of each is the string, the name or the items that it leads to (`Tree`, `Heap.tree?`).  Two
values that share a list and two values with a copy each have the same trees.

Text and equality depend on the tree alone.  The text of a value is the text of its tree
(`Heap.showWithin_eq_text`), and two values are equal if their trees are alike, which is the same up
to the equality of floats (`Heap.equalWithin_eq_alike`).  The shortcut through a shared handle, which
compares no trees, gives the same answer because a tree is like itself, and that takes the one
hypothesis of substance: no NaN may be reached (`Heap.Selfsame`).  The other hypothesis is that
there is a tree, so that no handle without an object may be reached (`Heap.Closed`).

Values that are equal need not have the same text, since the two zeros are equal.  Without floats
they do, and that is proved on the heap and not on trees, so that it holds of dangling handles as
well (`Heap.showWithin_congr`).
-/

namespace Imperative

/-- A value with the handles followed to the end. -/
inductive Tree where
  | int (n : Int64)
  | float (x : Float)
  | bool (b : Bool)
  | unit
  | string (s : String)
  | list (items : List Tree)
  | function (name : String)

namespace Tree

mutual

/-- The text of a tree. -/
def text : Tree → String
  | .int n => toString n.toInt
  | .float x => floatText x
  | .bool b => if b then "true" else "false"
  | .unit => "<unit>"
  | .string s => s
  | .list items => Heap.bracketed (texts items)
  | .function name => s!"<fun {name}>"

def texts : List Tree → List String
  | [] => []
  | t :: ts => t.text :: texts ts

end

mutual

/-- Whether two trees are the same, floats being compared as numbers are. -/
def alike : Tree → Tree → Bool
  | .int m, .int n => m == n
  | .float x, .float y => x == y
  | .bool b, .bool c => b == c
  | .unit, .unit => true
  | .string s, .string t => s == t
  | .list ss, .list ts => allAlike ss ts
  | .function f, .function g => f == g
  | _, _ => false

def allAlike : List Tree → List Tree → Bool
  | [], [] => true
  | s :: ss, t :: ts => s.alike t && allAlike ss ts
  | _, _ => false

end

theorem length_eq_of_allAlike {ss ts : List Tree} (h : allAlike ss ts = true) :
    ss.length = ts.length := by
  induction ss generalizing ts with
  | nil =>
    cases ts with
    | nil => rfl
    | cons t ts => cases h
  | cons s ss ih =>
    cases ts with
    | nil => cases h
    | cons t ts => exact congrArg Nat.succ (ih (Bool.and_eq_true_iff.mp h).2)

end Tree

namespace Heap

/-! ## The tree of a value -/

/-- The tree of a value, descending through at most `budget` handles. -/
def treeWithin? (h : Heap) : Nat → Value → Option Tree
  | 0, _ => none
  | budget + 1, v =>
    match v with
    | .int n => some (.int n)
    | .float x => some (.float x)
    | .bool b => some (.bool b)
    | .unit => some .unit
    | .ref r =>
      match h.get? r with
      | some (.string s) => some (.string s)
      | some (.list items) => (items.toList.mapM (h.treeWithin? budget)).map .list
      | some (.function name) => some (.function name)
      | none => none

/-- The tree of a value; `none` if a handle without an object is reached, or if the tree would be
infinite. -/
def tree? (h : Heap) (v : Value) : Option Tree := h.treeWithin? (h.size + 2) v

/-- No handle without an object is reached from the value. -/
def Closed (h : Heap) (v : Value) : Prop := ∀ r, h.Reaches v (.ref r) → h.get? r ≠ none

/-- No float that differs from itself is reached from the value. -/
def Selfsame (h : Heap) (v : Value) : Prop := ∀ x, h.Reaches v (.float x) → (x == x) = true

/-- No float at all is reached from the value. -/
def FloatFree (h : Heap) (v : Value) : Prop := ∀ x, ¬ h.Reaches v (.float x)

variable {h : Heap} {n m : Nat}

section Items

variable {r : Handle} {items : Array Value} (hr : h.get? r = some (.list items))
  {v : Value} (hv : v ∈ items.toList)

include hr hv

theorem reaches_of_mem {w : Value} (hw : h.Reaches v w) : h.Reaches (.ref r) w :=
  .head (hasItem_of_mem hr hv) hw

theorem Closed.item (hclosed : h.Closed (.ref r)) : h.Closed v :=
  fun q hq => hclosed q (reaches_of_mem hr hv hq)

theorem Selfsame.item (hself : h.Selfsame (.ref r)) : h.Selfsame v :=
  fun x hx => hself x (reaches_of_mem hr hv hx)

theorem FloatFree.item (hfree : h.FloatFree (.ref r)) : h.FloatFree v :=
  fun x hx => hfree x (reaches_of_mem hr hv hx)

end Items

/-! ## Text -/

theorem mapM_text {show? : Value → Option String} {tree? : Value → Option Tree} {vs : List Value}
    (h : ∀ v ∈ vs, show? v = (tree? v).map Tree.text) :
    vs.mapM show? = (vs.mapM tree?).map Tree.texts := by
  induction vs with
  | nil => rfl
  | cons v vs ih =>
    rw [List.mapM_cons, List.mapM_cons, h v List.mem_cons_self,
      ih fun w hw => h w (List.mem_cons_of_mem v hw)]
    cases tree? v with
    | none => rfl
    | some t => cases vs.mapM tree? <;> rfl

theorem showWithin_eq_text {v : Value} (hclosed : h.Closed v) :
    h.showWithin? n v = (h.treeWithin? n v).map Tree.text := by
  induction n generalizing v with
  | zero => rfl
  | succ n ih =>
    cases v with
    | ref r =>
      rw [showWithin?, treeWithin?]
      cases hr : h.get? r with
      | none => exact absurd hr (hclosed r .refl)
      | some o =>
        cases o with
        | list items =>
          have hitems := mapM_text fun v hv => ih (hclosed.item hr hv)
          simp only [hitems, Option.map_map]
          rfl
        | _ => rfl
    | _ => rfl

/-- In an acyclic heap a closed value has a tree. -/
theorem Acyclic.exists_tree (hac : h.Acyclic) {v : Value} (hclosed : h.Closed v) :
    ∃ t, h.tree? v = some t ∧ h.show? v = some t.text := by
  obtain ⟨text, htext⟩ := Option.ne_none_iff_exists'.mp (hac.show_ne_none v)
  obtain ⟨t, ht, rfl⟩ :=
    Option.map_eq_some_iff.mp ((showWithin_eq_text hclosed).symm.trans htext)
  exact ⟨t, ht, htext⟩

/-! ## Equality -/

/-- A tree is what one look through the handle says, and the trees of the items. -/
theorem treeWithin_ref_iff {r : Handle} {t : Tree} :
    h.treeWithin? (n + 1) (.ref r) = some t ↔
      (∃ s, h.get? r = some (.string s) ∧ t = .string s) ∨
      (∃ items ts, h.get? r = some (.list items) ∧
        items.toList.mapM (h.treeWithin? n) = some ts ∧ t = .list ts) ∨
      ∃ name, h.get? r = some (.function name) ∧ t = .function name := by
  rw [treeWithin?]
  cases h.get? r with
  | none => simp
  | some o => cases o <;> simp [eq_comm]

theorem mapM_eq_some_iff {α β : Type} {f : α → Option β} {xs : List α} {ys : List β} :
    xs.mapM f = some ys ↔ List.Forall₂ (fun x y => f x = some y) xs ys := by
  induction xs generalizing ys with
  | nil => simp [eq_comm]
  | cons x xs ih =>
    rw [List.forall₂_cons_left_iff, List.mapM_cons]
    simp only [← ih]
    cases f x with
    | none => simp
    | some y => cases xs.mapM f <;> simp [eq_comm]

theorem allAlike_self {f : Value → Option Tree} {vs : List Value} {ts : List Tree}
    (hf : ∀ v ∈ vs, ∀ t, f v = some t → t.alike t = true)
    (h : List.Forall₂ (fun v t => f v = some t) vs ts) : Tree.allAlike ts ts = true := by
  induction h with
  | nil => rfl
  | @cons v t vs ts ht _ ih =>
    have hhead := hf v List.mem_cons_self t ht
    have htail := ih fun w hw => hf w (List.mem_cons_of_mem v hw)
    exact Bool.and_eq_true_iff.mpr ⟨hhead, htail⟩

/-- A tree without a NaN is like itself. -/
theorem alike_self {v : Value} (hself : h.Selfsame v) {t : Tree}
    (ht : h.treeWithin? n v = some t) : t.alike t = true := by
  induction n generalizing v t with
  | zero => cases ht
  | succ n ih =>
    cases v with
    | ref r =>
      obtain ⟨s, -, rfl⟩ | ⟨items, ts, hr, hts, rfl⟩ | ⟨name, -, rfl⟩ := treeWithin_ref_iff.mp ht
      · exact BEq.rfl
      · exact allAlike_self (fun v hv t ht => ih (hself.item hr hv) ht) (mapM_eq_some_iff.mp hts)
      · exact BEq.rfl
    | float x => cases ht; exact hself x .refl
    | unit => cases ht; rfl
    | _ => cases ht; exact BEq.rfl

theorem allPairs_eq_allAlike {test : Value → Value → Option Bool} {f : Value → Option Tree}
    {vs ws : List Value} {ss ts : List Tree} {p : Bool}
    (htest : ∀ v ∈ vs, ∀ w s t p, f v = some s → f w = some t → test v w = some p → p = s.alike t)
    (hlength : vs.length = ws.length) (hss : List.Forall₂ (fun v s => f v = some s) vs ss)
    (hts : List.Forall₂ (fun w t => f w = some t) ws ts) (hp : allPairs test vs ws = some p) :
    p = Tree.allAlike ss ts := by
  induction hss generalizing ws ts with
  | nil =>
    cases hts with
    | nil => cases hp; rfl
    | cons _ _ => cases hlength
  | @cons v s vs ss hs _ ih =>
    cases hts with
    | nil => cases hlength
    | @cons w t ws ts ht hts =>
      have hhead := fun q => htest v List.mem_cons_self w s t q hs ht
      have htail := ih (fun v' hv => htest v' (List.mem_cons_of_mem v hv)) (Nat.succ.inj hlength) hts
      rw [allPairs] at hp
      rw [Tree.allAlike]
      cases hq : test v w with
      | none => rw [hq] at hp; cases hp
      | some q =>
        rw [← hhead q hq]
        rw [hq] at hp
        cases q with
        | true => exact htail hp
        | false => cases hp; rfl

/-- What two values that are not both handles are equal in is what their trees are alike in. -/
theorem beq_eq_alike {a b : Value} (hrefs : ∀ x y, a = .ref x → b ≠ .ref y) {s t : Tree}
    (hs : h.treeWithin? m a = some s) (ht : h.treeWithin? m b = some t) : (a == b) = s.alike t := by
  cases m with
  | zero => cases hs
  | succ m =>
    cases a with
    | ref x =>
      obtain ⟨_, -, rfl⟩ | ⟨_, _, -, -, rfl⟩ | ⟨_, -, rfl⟩ := treeWithin_ref_iff.mp hs
      all_goals cases b with
      | ref y => exact absurd rfl (hrefs x y rfl)
      | _ => cases ht; rfl
    | _ =>
      cases hs
      cases b with
      | ref y =>
        obtain ⟨_, -, rfl⟩ | ⟨_, _, -, -, rfl⟩ | ⟨_, -, rfl⟩ := treeWithin_ref_iff.mp ht <;> rfl
      | _ => cases ht; rfl

/-- **Equality is likeness of trees**, at any budgets with which there is an answer. -/
theorem equalWithin_eq_alike {a b : Value} (hself : h.Selfsame a) {s t : Tree} {p : Bool}
    (hs : h.treeWithin? m a = some s) (ht : h.treeWithin? m b = some t)
    (hp : h.equalWithin? n a b = some p) : p = s.alike t := by
  induction n generalizing m a b s t p with
  | zero => cases hp
  | succ n ih =>
    obtain ⟨x, y, rfl, rfl⟩ | hrefs := a.refs_or b
    case inr =>
      rw [equalWithin_of_not_ref hrefs] at hp
      rw [← beq_eq_alike hrefs hs ht, Option.some_inj.mp hp]
    by_cases hxy : x = y
    · -- The shortcut: both trees are the same tree.
      subst hxy
      rw [equalWithin_self] at hp
      cases hp
      cases hs.symm.trans ht
      exact (alike_self hself hs).symm
    cases m with
    | zero => cases hs
    | succ m =>
      obtain ⟨c, hx, rfl⟩ | ⟨xs, ss, hx, hss, rfl⟩ | ⟨f, hx, rfl⟩ := treeWithin_ref_iff.mp hs
      all_goals
        obtain ⟨d, hy, rfl⟩ | ⟨ys, ts, hy, hts, rfl⟩ | ⟨g, hy, rfl⟩ := treeWithin_ref_iff.mp ht
      case inr.inl.inr.inl =>
        rw [equalWithin_lists hxy hx hy] at hp
        have hss := mapM_eq_some_iff.mp hss
        have hts := mapM_eq_some_iff.mp hts
        split at hp
        · next hsize =>
          exact allPairs_eq_allAlike (fun v hv w s t p => ih (hself.item hx hv)) hsize hss hts hp
        · next hsize =>
          cases hp
          refine (Bool.eq_false_iff.mpr fun halike => hsize ?_).symm
          have hlength := Tree.length_eq_of_allAlike halike
          exact hss.length_eq.trans (hlength.trans hts.length_eq.symm)
      all_goals
        rw [equalWithin_objects hxy hx hy nofun] at hp
        cases hp
        rfl

/-! ## Without floats -/

theorem mapM_eq_of_allPairs {α : Type} {f : Value → Option α} {test : Value → Value → Option Bool}
    {vs ws : List Value} (htest : ∀ v ∈ vs, ∀ w, test v w = some true → f v = f w)
    (hlength : vs.length = ws.length) (hpairs : allPairs test vs ws = some true) :
    vs.mapM f = ws.mapM f := by
  induction vs generalizing ws with
  | nil =>
    cases ws with
    | nil => rfl
    | cons w ws => cases hlength
  | cons v vs ih =>
    cases ws with
    | nil => cases hlength
    | cons w ws =>
      obtain ⟨hhead, htail⟩ := allPairs_cons_iff.mp hpairs
      have hrest := ih (fun v' hv => htest v' (List.mem_cons_of_mem v hv)) (Nat.succ.inj hlength)
        htail
      rw [List.mapM_cons, List.mapM_cons, htest v List.mem_cons_self w hhead, hrest]

/-- The ways in which two values can be equal if there are no floats: they are the same, or they are
handles of lists that are equal item by item, or of the same thing. -/
theorem equalWithin_cases {a b : Value} (hfree : h.FloatFree a)
    (hab : h.equalWithin? (n + 1) a b = some true) :
    a = b ∨ ∃ x y, a = .ref x ∧ b = .ref y ∧
      ((∃ xs ys, h.get? x = some (.list xs) ∧ h.get? y = some (.list ys) ∧ xs.size = ys.size ∧
        allPairs (h.equalWithin? n) xs.toList ys.toList = some true) ∨
      ∃ o, h.get? x = some o ∧ h.get? y = some o) := by
  obtain ⟨x, y, rfl, rfl⟩ | hrefs := a.refs_or b
  · obtain rfl | hlists | ⟨o, -, hx, hy⟩ := equalWithin_ref_iff.mp hab
    · exact .inl rfl
    · exact .inr ⟨x, y, rfl, rfl, .inl hlists⟩
    · exact .inr ⟨x, y, rfl, rfl, .inr ⟨o, hx, hy⟩⟩
  · rw [equalWithin_of_not_ref hrefs, Option.some_inj] at hab
    obtain ⟨x, -, rfl, -⟩ | ⟨-, rfl⟩ := Value.beq_iff.mp hab
    · exact absurd .refl (hfree x)
    · exact .inl rfl

theorem showWithin_congr {a b : Value} (hfree : h.FloatFree a)
    (hab : h.equalWithin? n a b = some true) (m : Nat) : h.showWithin? m a = h.showWithin? m b := by
  induction n generalizing a b m with
  | zero => cases hab
  | succ n ih =>
    cases m with
    | zero => rfl
    | succ m =>
      obtain rfl | ⟨x, y, rfl, rfl, ⟨xs, ys, hx, hy, hsize, hpairs⟩ | ⟨o, hx, hy⟩⟩ :=
        equalWithin_cases hfree hab
      · rfl
      · have hitems : xs.toList.mapM (h.showWithin? m) = ys.toList.mapM (h.showWithin? m) :=
          mapM_eq_of_allPairs (fun v hv w hvw => ih (hfree.item hx hv) hvw m) hsize hpairs
        simp only [showWithin?, hx, hy, hitems]
      · rw [showWithin?, showWithin?, hx, hy]
        cases o <;> rfl

theorem shape_congr {a b : Value} (hfree : h.FloatFree a)
    (hab : h.equalWithin? (n + 1) a b = some true) :
    h.shape a = h.shape b ∧ a.shape = b.shape := by
  obtain rfl | ⟨x, y, rfl, rfl, ⟨xs, ys, hx, hy, -⟩ | ⟨o, hx, hy⟩⟩ := equalWithin_cases hfree hab
  · exact ⟨rfl, rfl⟩
  · refine ⟨?_, rfl⟩
    rw [shape, shape, hx, hy]
    rfl
  · refine ⟨?_, rfl⟩
    rw [shape, shape, hx, hy]

end Heap

/-- **Contents decide equality and text.**  On a heap without cycles, two values from which every
handle is good and no NaN is reached have trees, and they are equal exactly if the trees are alike;
whoever takes the shortcut through a shared handle finds the same, since the tree of a value is like
itself.  The text of a value is the text of its tree.  Where no float is reached, values that are
equal have the same text and the same shape. -/
theorem contents_decide (h : Heap) (hac : h.Acyclic) :
    (∀ a b, h.Closed a → h.Closed b → h.Selfsame a → h.Selfsame b →
      ∃ s t, h.tree? a = some s ∧ h.tree? b = some t ∧ h.equal? a b = some (s.alike t)) ∧
    (∀ v, h.Closed v → h.Selfsame v →
      ∃ t, h.tree? v = some t ∧ t.alike t = true ∧ h.equal? v v = some true) ∧
    (∀ v, h.Closed v → ∃ t, h.tree? v = some t ∧ h.show? v = some t.text) ∧
    ∀ a b, h.FloatFree a → h.equal? a b = some true →
      (∃ text, h.show? a = some text ∧ h.show? b = some text) ∧
        h.shape a = h.shape b ∧ a.shape = b.shape := by
  have hequal (a b : Value) (ha : h.Closed a) (hb : h.Closed b) (hself : h.Selfsame a) :
      ∃ s t, h.tree? a = some s ∧ h.tree? b = some t ∧ h.equal? a b = some (s.alike t) := by
    obtain ⟨s, hs, -⟩ := hac.exists_tree ha
    obtain ⟨t, ht, -⟩ := hac.exists_tree hb
    obtain ⟨p, hp⟩ := Option.ne_none_iff_exists'.mp (hac.equal_ne_none a b)
    refine ⟨s, t, hs, ht, ?_⟩
    rw [hp, Heap.equalWithin_eq_alike hself hs ht hp]
  refine ⟨fun a b ha hb hself _ => hequal a b ha hb hself, fun v hv hself => ?_,
    fun v => hac.exists_tree, fun a b hfree hab => ⟨?_, Heap.shape_congr hfree hab⟩⟩
  · obtain ⟨t, ht, -⟩ := hac.exists_tree hv
    have halike := Heap.alike_self hself ht
    obtain ⟨s, t', hs, ht', heq⟩ := hequal v v hv hv hself
    cases ht.symm.trans hs
    cases ht.symm.trans ht'
    exact ⟨t, ht, halike, heq.trans (congrArg some halike)⟩
  · obtain ⟨text, htext⟩ := Option.ne_none_iff_exists'.mp (hac.show_ne_none a)
    exact ⟨text, htext, (Heap.showWithin_congr hfree hab _).symm.trans htext⟩

/-- A list and its copy, a list that holds the first one twice and one that holds both, and two
strings. -/
def sharedAndCopied : Heap := ⟨#[
  .list #[.float 1.5],
  .list #[.float 1.5],
  .list #[.ref ⟨0⟩, .ref ⟨0⟩],
  .list #[.ref ⟨0⟩, .ref ⟨1⟩],
  .string "a",
  .string "a"]⟩

theorem item_sharedAndCopied {r : Handle} {items : Array Value}
    (hr : sharedAndCopied.get? r = some (.list items)) {v : Value} (hv : v ∈ items) :
    v = .float 1.5 ∨ (1 < r.index ∧ (v = .ref ⟨0⟩ ∨ v = .ref ⟨1⟩)) := by
  obtain ⟨i⟩ := r
  match i with
  | 0 | 1 =>
    cases hr
    exact .inl (by simpa using hv)
  | 2 =>
    cases hr
    have hitem : v = .ref ⟨0⟩ := by simpa using hv
    exact .inr ⟨by decide, .inl hitem⟩
  | 3 =>
    cases hr
    have hitem : v = .ref ⟨0⟩ ∨ v = .ref ⟨1⟩ := by simpa using hv
    exact .inr ⟨by decide, hitem⟩
  | 4 | 5 => cases hr
  | i + 6 => simp [Heap.get?, sharedAndCopied] at hr

theorem acyclic_sharedAndCopied : sharedAndCopied.Acyclic := by
  suffices hrank : sharedAndCopied.Ranked fun r => if 1 < r.index then 1 else 0 from hrank.acyclic
  intro r items q hr hq
  obtain hfloat | ⟨hlt, hq⟩ := item_sharedAndCopied hr hq
  · cases hfloat
  · simp only [if_pos hlt]
    obtain hq | hq := hq <;> cases hq <;> decide

/-- Nothing but a good handle and a number is reached from a good handle. -/
theorem reaches_sharedAndCopied {r : Handle} (hr : r.index < 6) {v : Value}
    (hv : sharedAndCopied.Reaches (.ref r) v) :
    v = .float 1.5 ∨ ∃ q, v = .ref q ∧ q.index < 6 := by
  obtain rfl | ⟨_, -, p, items, -, hp, hmem⟩ := Relation.ReflTransGen.cases_tail hv
  · exact .inr ⟨r, rfl, hr⟩
  · obtain rfl | ⟨-, rfl | rfl⟩ := item_sharedAndCopied hp hmem
    · exact .inl rfl
    · exact .inr ⟨⟨0⟩, rfl, by decide⟩
    · exact .inr ⟨⟨1⟩, rfl, by decide⟩

theorem closed_sharedAndCopied {r : Handle} (hr : r.index < 6) :
    sharedAndCopied.Closed (.ref r) := by
  intro q hq hnone
  obtain hfloat | ⟨q', hq', hlt⟩ := reaches_sharedAndCopied hr hq
  · cases hfloat
  · cases hq'
    exact Nat.not_le_of_lt hlt ((sharedAndCopied.get?_eq_none_iff q).mp hnone)

theorem selfsame_sharedAndCopied {r : Handle} (hr : r.index < 6) :
    sharedAndCopied.Selfsame (.ref r) := by
  intro x hx
  obtain hfloat | ⟨q, hq, -⟩ := reaches_sharedAndCopied hr hx
  · cases hfloat
    decide +kernel
  · cases hq

/-- The lists that hold a list twice and together with its copy have trees that are alike.  The
strings are equal and have the same text. -/
theorem contents_decide_sharedAndCopied :
    (∃ s t, sharedAndCopied.tree? (.ref ⟨2⟩) = some s ∧ sharedAndCopied.tree? (.ref ⟨3⟩) = some t ∧
      s.alike t = true) ∧
    (∃ t, sharedAndCopied.tree? (.ref ⟨2⟩) = some t ∧
      sharedAndCopied.show? (.ref ⟨2⟩) = some t.text) ∧
    ∃ text, sharedAndCopied.show? (.ref ⟨4⟩) = some text ∧
      sharedAndCopied.show? (.ref ⟨5⟩) = some text := by
  obtain ⟨hequal, -, htext, hsame⟩ := contents_decide sharedAndCopied acyclic_sharedAndCopied
  have hlists : sharedAndCopied.equal? (.ref ⟨2⟩) (.ref ⟨3⟩) = some true := by decide +kernel
  have hstrings : sharedAndCopied.equal? (.ref ⟨4⟩) (.ref ⟨5⟩) = some true := by decide +kernel
  have htwo : (⟨2⟩ : Handle).index < 6 := by decide
  have hthree : (⟨3⟩ : Handle).index < 6 := by decide
  obtain ⟨s, t, hs, ht, halike⟩ := hequal _ _ (closed_sharedAndCopied htwo)
    (closed_sharedAndCopied hthree) (selfsame_sharedAndCopied htwo)
    (selfsame_sharedAndCopied hthree)
  have hfree : sharedAndCopied.FloatFree (.ref ⟨4⟩) := by
    intro x hx
    obtain heq | ⟨v, ⟨r, items, hr, hitems, -⟩, -⟩ := Relation.ReflTransGen.cases_head hx
    · cases heq
    · cases hr
      cases hitems
  exact ⟨⟨s, t, hs, ht, Option.some_inj.mp (halike.symm.trans hlists)⟩,
    htext _ (closed_sharedAndCopied htwo), (hsame _ _ hfree hstrings).1⟩

end Imperative
