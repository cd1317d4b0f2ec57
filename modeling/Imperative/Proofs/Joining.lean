import Imperative.Operation
import Mathlib.Algebra.Group.Nat.Defs

/-!
# Lengths, positions and joining

A string is a sequence of characters and a list a sequence of values, and three operations depend
on it: one tells how long the sequence is, one picks out what stands at a position, and one puts
two sequences end to end.  All three agree on what the sequence is, `Object.pieces?`: its length is
the length that is told (`Object.measures`), its positions are those that can be picked out
(`Object.holds`, `Object.exceeded`), and joining is appending (`Object.pieces_join`).  Characters
are not bytes, and a position is not an offset into an encoding.

What stands at a position of a joined object is then a fact about lists.  A piece of a list is a
value and is yielded as it is; a piece of a string is a character, of which a new string is made
each time (`Piece.value`).
-/

namespace Imperative

open Imperative.Action

/-! ## Sequences -/

/-- What a string or a list is made of. -/
inductive Piece where
  | item (v : Value)
  | character (c : Char)

/-- A piece as a value.  There are no values for characters, so a character becomes a new string. -/
def Piece.value : Piece → Eval Value
  | .item v => pure v
  | .character c => Eval.alloc (.string c.toString)

theorem Piece.eq_of_value_character {c d : Char} {m : Machine}
    (h : (Piece.character c).value m = (Piece.character d).value m) : c = d := by
  have hheap : m.heap.alloc (.string c.toString) = m.heap.alloc (.string d.toString) :=
    congrArg (fun x => (x.map fun y => y.2.heap).getD {}) h
  have hget := congrArg (fun h' : Heap => h'.get? m.heap.next) hheap
  simp only [Heap.get?_alloc, if_pos] at hget
  have htext := congrArg String.toList (Object.string.inj (Option.some.inj hget))
  rw [Char.toString, Char.toString, String.toList_singleton, String.toList_singleton] at htext
  exact (List.cons.inj htext).1

namespace Object

/-- The pieces of a string or of a list, in order. -/
def pieces? : Object → Option (List Piece)
  | .string s => some (s.toList.map .character)
  | .list items => some (items.toList.map .item)
  | .function _ => none

/-- Wherever the object is, its length is `n`. -/
def Measures (o : Object) (n : Int64) : Prop :=
  ∀ (r : Handle) (m : Machine), m.heap.get? r = some o →
    (Value.ref r).length m = some (.ok (.int n), m)

/-- Wherever the object is, the piece stands at the position `i`. -/
def Holds (o : Object) (i : Int64) (piece : Piece) : Prop :=
  ∀ (r : Handle) (m : Machine), m.heap.get? r = some o → (Value.ref r).index i m = piece.value m

/-- Wherever the object is, the position `i` is out of its bounds, and the length that is reported
is `n`. -/
def Exceeded (o : Object) (i : Int64) (n : Nat) : Prop :=
  ∀ (r : Handle) (m : Machine), m.heap.get? r = some o →
    (Value.ref r).index i m = some (.error (.indexOutOfBounds i n), m)

variable {o : Object} {ps : List Piece}

theorem measures (h : o.pieces? = some ps) : o.Measures (.ofNat ps.length) := by
  intro r m hr
  rw [Value.length, bind_apply, Eval.fetch, Eval.read, Heap.fetch_eq_ok_iff.mpr hr]
  cases o with
  | string s =>
    cases h
    rw [List.length_map, String.length_toList]
    rfl
  | list items =>
    cases h
    rw [List.length_map, Array.length_toList]
    rfl
  | function name => cases h

/-- A position counts pieces, whatever is made of them. -/
theorem offset_bind_map {α β : Type} (i : Int64) (f : α → β) (xs : List α) :
    ((Value.offset? i).bind fun k => (xs.map f)[k]?) =
      ((Value.offset? i).bind fun k => xs[k]?).map f := by
  cases Value.offset? i with
  | none => rfl
  | some k => exact List.getElem?_map

theorem index_of_pieces (h : o.pieces? = some ps) {r : Handle} {m : Machine}
    (hr : m.heap.get? r = some o) (i : Int64) :
    (Value.ref r).index i m =
      match (Value.offset? i).bind fun k => ps[k]? with
      | some piece => piece.value m
      | none => some (.error (.indexOutOfBounds i ps.length), m) := by
  rw [Value.index, bind_apply, Eval.fetch, Eval.read, Heap.fetch_eq_ok_iff.mpr hr]
  cases o with
  | string s =>
    cases h
    rw [offset_bind_map, List.length_map, String.length_toList]
    dsimp only
    cases (Value.offset? i).bind fun k => s.toList[k]? <;> rfl
  | list items =>
    cases h
    rw [offset_bind_map, List.length_map, Array.length_toList]
    dsimp only
    simp only [← Array.getElem?_toList]
    cases (Value.offset? i).bind fun k => items.toList[k]? <;> rfl
  | function name => cases h

theorem holds (h : o.pieces? = some ps) {i : Int64} (hi : 0 ≤ i) {piece : Piece}
    (hpiece : ps[i.toInt.toNat]? = some piece) : o.Holds i piece := by
  intro r m hr
  have hoffset : Value.offset? i = some i.toInt.toNat := if_neg (Int64.not_lt.mpr hi)
  rw [index_of_pieces h hr, hoffset, Option.bind_some, hpiece]

/-- Behind another sequence, positions are counted from where that one ends. -/
theorem holds_sub {qs : List Piece} (h : o.pieces? = some qs) (hps : ps.length < 2 ^ 63)
    {i : Int64} (hi : .ofNat ps.length ≤ i) {piece : Piece}
    (hpiece : (ps ++ qs)[i.toInt.toNat]? = some piece) : o.Holds (i - .ofNat ps.length) piece := by
  have hlength : (Int64.ofNat ps.length).toInt = ps.length := Int64.toInt_ofNat_of_lt hps
  have hsub : (i - Int64.ofNat ps.length).toInt = i.toInt - ps.length := by
    rw [Int64.toInt_sub_of_le _ _ (Int64.zero_le_ofNat_of_lt hps) hi, hlength]
  rw [Int64.le_iff_toInt_le, hlength] at hi
  rw [List.getElem?_append_right (by omega)] at hpiece
  refine holds h ?_ ?_
  · rw [Int64.le_iff_toInt_le, hsub, Int64.toInt_zero]
    omega
  · rw [hsub, Int.toNat_sub']
    exact hpiece

theorem exceeded (h : o.pieces? = some ps) {i : Int64} (hi : 0 ≤ i → ps.length ≤ i.toInt.toNat) :
    o.Exceeded i ps.length := by
  intro r m hr
  rw [index_of_pieces h hr, Value.offset?]
  by_cases hneg : i < 0
  · rw [if_pos hneg, Option.bind_none]
  · rw [if_neg hneg, Option.bind_some, List.getElem?_eq_none (hi (Int64.not_lt.mp hneg))]

/-- Lists are made of items and strings of characters. -/
theorem shape_of_mem_pieces (h : o.pieces? = some ps) {piece : Piece} (hmem : piece ∈ ps) :
    (o.shape = .list ∧ ∃ v, piece = .item v) ∨ (o.shape = .string ∧ ∃ c, piece = .character c) := by
  cases o with
  | string s =>
    cases h
    obtain ⟨c, -, rfl⟩ := List.mem_map.mp hmem
    exact .inr ⟨rfl, c, rfl⟩
  | list items =>
    cases h
    obtain ⟨v, -, rfl⟩ := List.mem_map.mp hmem
    exact .inl ⟨rfl, v, rfl⟩
  | function name => cases h

/-- Two strings or two lists can be joined, and the pieces of the one come behind those of the
other. -/
theorem pieces_join {o o' : Object} {ps qs : List Piece} (hshape : o.shape = o'.shape)
    (h : o.pieces? = some ps) (h' : o'.pieces? = some qs) :
    ∃ c, o.join? o' = some c ∧ c.shape = o.shape ∧ c.pieces? = some (ps ++ qs) := by
  cases o with
  | string s =>
    cases o' with
    | string t =>
      cases h
      cases h'
      refine ⟨.string (s ++ t), rfl, rfl, ?_⟩
      rw [pieces?, String.toList_append, List.map_append]
    | _ => cases hshape
  | list xs =>
    cases o' with
    | list ys =>
      cases h
      cases h'
      refine ⟨.list (xs ++ ys), rfl, rfl, ?_⟩
      rw [pieces?, Array.toList_append, List.map_append]
    | _ => cases hshape
  | function name => cases h

end Object

/-- Adding two handles stores the joined object. -/
theorem Value.join_of_some {p q : Handle} {o o' c : Object} {m : Machine}
    (hp : m.heap.get? p = some o) (hq : m.heap.get? q = some o') (hc : o.join? o' = some c) :
    (Value.ref p).arithmetic .add (.ref q) m = some (.ok (.ref m.heap.next), (m.alloc c).2) := by
  rw [arithmetic, if_pos rfl, join, bind_apply, Eval.fetch, Eval.read,
    Heap.fetch_eq_ok_iff.mpr hp]
  dsimp only
  rw [bind_apply, Eval.fetch, Eval.read, Heap.fetch_eq_ok_iff.mpr hq]
  dsimp only
  rw [hc]
  rfl

/-- **Lengths, positions and joining agree.**  Let two handles, which may be the same, lead to two
strings or to two lists, with no more pieces together than an integer can count.  Adding the
handles yields a handle that has led nowhere before; it leads to a new object, and every other
handle leads where it did.  Wherever the three objects are, then and later, as long as they stay
what they are: the length of the new one is the sum of the lengths `a` and `b` of the two, and the
sum does not wrap around.  The positions in the new one are those from zero up to its length, and
at any other one an access fails and reports the position and that length.  What stands at a
position is what stands there in the first object, or, from `a` onwards, what stands in the second
object `a` positions before: the same value if they are lists, and a new string of the same one
character if they are strings. -/
theorem joining_appends {m : Machine} {p q : Handle} {o o' : Object} {ps qs : List Piece}
    (hp : m.heap.get? p = some o) (hq : m.heap.get? q = some o') (hshape : o.shape = o'.shape)
    (hps : o.pieces? = some ps) (hqs : o'.pieces? = some qs)
    (hfits : ps.length + qs.length < 2 ^ 63) :
    ∃ (c : Object) (r : Handle) (m' : Machine) (a b : Int64),
      (Value.ref p).arithmetic .add (.ref q) m = some (.ok (.ref r), m') ∧
      m.heap.get? r = none ∧ m'.heap.get? r = some c ∧
      (∀ s, s ≠ r → m'.heap.get? s = m.heap.get? s) ∧ m' = { m with heap := m'.heap } ∧
      o.Measures a ∧ o'.Measures b ∧ c.Measures (a + b) ∧
      0 ≤ a ∧ 0 ≤ b ∧ (a + b).toInt = a.toInt + b.toInt ∧
      (∀ i, ¬ (0 ≤ i ∧ i < a + b) → c.Exceeded i (a + b).toInt.toNat) ∧
      ∀ i, 0 ≤ i → i < a + b → ∃ piece,
        c.Holds i piece ∧ (i < a → o.Holds i piece) ∧ (a ≤ i → o'.Holds (i - a) piece) ∧
        ((o.shape = .list ∧ ∃ v, piece = .item v) ∨
          (o.shape = .string ∧ ∃ ch, piece = .character ch)) := by
  obtain ⟨c, hc, hcshape, hcpieces⟩ := Object.pieces_join hshape hps hqs
  have hlength : (ps ++ qs).length = ps.length + qs.length := List.length_append
  have ha : (Int64.ofNat ps.length).toInt = ps.length := Int64.toInt_ofNat_of_lt (by omega)
  have hb : (Int64.ofNat qs.length).toInt = qs.length := Int64.toInt_ofNat_of_lt (by omega)
  have hanonneg : 0 ≤ Int64.ofNat ps.length := Int64.zero_le_ofNat_of_lt (by omega)
  have hbnonneg : 0 ≤ Int64.ofNat qs.length := Int64.zero_le_ofNat_of_lt (by omega)
  have hsum : Int64.ofNat ps.length + Int64.ofNat qs.length = Int64.ofNat (ps ++ qs).length := by
    rw [hlength, Int64.ofNat_add]
  have hab : (Int64.ofNat (ps ++ qs).length).toInt = (ps.length + qs.length : Nat) := by
    rw [hlength]
    exact Int64.toInt_ofNat_of_lt (by omega)
  refine ⟨c, m.heap.next, (m.alloc c).2, .ofNat ps.length, .ofNat qs.length,
    Value.join_of_some hp hq hc, m.heap.get?_next, ?_, ?_, rfl, Object.measures hps,
    Object.measures hqs, ?_, hanonneg, hbnonneg, ?_, ?exceeded, ?held⟩
  · exact (m.heap.get?_alloc c _).trans (if_pos rfl)
  · intro s hs
    exact (m.heap.get?_alloc c s).trans (if_neg hs)
  · rw [hsum]
    exact Object.measures hcpieces
  · rw [hsum, hab, ha, hb, Int.natCast_add]
  case exceeded =>
    intro i hi
    rw [hsum] at hi ⊢
    rw [hab, Int.toNat_natCast, ← hlength]
    refine Object.exceeded hcpieces fun hpos => ?_
    have hbeyond := Int64.not_lt.mp fun hlt => hi ⟨hpos, hlt⟩
    rw [Int64.le_iff_toInt_le, hab] at hbeyond
    omega
  case held =>
    intro i hi hlt
    have hinonneg : 0 ≤ i.toInt := Int64.le_iff_toInt_le.mp hi
    rw [hsum, Int64.lt_iff_toInt_lt, hab] at hlt
    have hk : i.toInt.toNat < (ps ++ qs).length := by omega
    have hpiece : (ps ++ qs)[i.toInt.toNat]? = some (ps ++ qs)[i.toInt.toNat] :=
      List.getElem?_eq_getElem hk
    refine ⟨(ps ++ qs)[i.toInt.toNat], Object.holds hcpieces hi hpiece, fun hfirst => ?_,
      fun hsecond => ?_, ?_⟩
    · rw [Int64.lt_iff_toInt_lt, ha] at hfirst
      rw [List.getElem?_append_left (by omega)] at hpiece
      exact Object.holds hps hi hpiece
    · exact Object.holds_sub hqs (by omega) hsecond hpiece
    · rw [← hcshape]
      exact Object.shape_of_mem_pieces hcpieces (List.getElem_mem hk)

/-- A machine with a string of two characters, which are no bytes. -/
def accented : Machine := { heap := ⟨#[.string "é😀"]⟩ }

/-- A string joined to itself. -/
theorem joining_appends_accented :
    ∃ (c : Object) (r : Handle) (m' : Machine),
      (Value.ref ⟨0⟩).arithmetic .add (.ref ⟨0⟩) accented = some (.ok (.ref r), m') ∧
      m'.heap.get? r = some c ∧ m'.heap.get? ⟨0⟩ = some (.string "é😀") ∧
      c.Measures 4 ∧ c.Exceeded (-1) 4 ∧ c.Exceeded 4 4 ∧ c.Holds 3 (.character '😀') := by
  have hfirst : accented.heap.get? ⟨0⟩ = some (.string "é😀") := rfl
  have hpieces : (Object.string "é😀").pieces? = some [.character 'é', .character '😀'] := rfl
  obtain ⟨c, r, m', a, b, hadd, hfresh, hr, hkeeps, -, hoa, hob, hc, -, -, -, hexceeded, hholds⟩ :=
    joining_appends hfirst hfirst rfl hpieces hpieces (by decide)
  have hlength : (Value.ref ⟨0⟩).length accented = some (.ok (.int 2), accented) := rfl
  obtain rfl : a = 2 := by
    rw [hoa ⟨0⟩ accented hfirst] at hlength
    cases hlength
    rfl
  obtain rfl : b = 2 := by
    rw [hob ⟨0⟩ accented hfirst] at hlength
    cases hlength
    rfl
  obtain ⟨piece, hpiece, -, hsecond, ⟨hlist, -⟩ | ⟨-, ch, rfl⟩⟩ := hholds 3 (by decide) (by decide)
  · cases hlist
  · have hindex := hsecond (by decide) ⟨0⟩ accented hfirst
    obtain rfl : '😀' = ch := Piece.eq_of_value_character hindex
    have hkept : m'.heap.get? ⟨0⟩ = some (.string "é😀") := by
      refine (hkeeps ⟨0⟩ ?_).trans hfirst
      rintro rfl
      cases hfirst.symm.trans hfresh
    exact ⟨c, r, m', hadd, hr, hkept, hc, hexceeded (-1) (by decide), hexceeded 4 (by decide),
      hpiece⟩

end Imperative
