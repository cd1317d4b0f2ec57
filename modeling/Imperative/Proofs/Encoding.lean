import Mathlib.Algebra.Group.Nat.Defs
import Mathlib.Tactic.SplitIfs

/-!
# The order of encoded texts

Texts are compared character by character, and characters by their code points.  Encoded texts can
also be compared byte by byte, and it comes to the same (`bytes_lt_bytes`): the encoding of
characters, from one to four bytes long, was chosen so that it would.

A code point is written in digits to base 64, the most significant one first and each in a byte of
its own (`CodePoint.continuation`), except that the first byte also tells how many there are
(`CodePoint.lead`).  More bytes mean a greater first byte, and among encodings of one length the
digits decide, as they do with any numerals of one length.  So two different characters differ
within the shorter of their encodings, and what follows them in a text is not looked at
(`encodeChar_lt`).
-/

namespace Imperative

/-! ## Digits -/

namespace CodePoint

/-- How many bytes follow the first one. -/
def width (v : Nat) : Nat :=
  if v ≤ 0x7f then 0 else if v ≤ 0x7ff then 1 else if v ≤ 0xffff then 2 else 3

/-- What is added to a first byte to tell how many others follow it. -/
def mark : Nat → Nat
  | 0 => 0
  | 1 => 0xc0
  | 2 => 0xe0
  | _ => 0xf0

/-- The first byte if `k` others follow it: the digits in front of theirs, and the mark. -/
def lead (v k : Nat) : Nat := v / 64 ^ k + mark k

/-- The last `k` digits to base 64, each in a byte that is marked as no first one. -/
def continuation (v : Nat) : Nat → List UInt8
  | 0 => []
  | k + 1 => .ofNat (v / 64 ^ k % 64 + 0x80) :: continuation v k

variable {v w : Nat}

/-- Numerals of one length are ordered as the numbers are. -/
theorem continuation_lt {k : Nat} (h : v % 64 ^ k < w % 64 ^ k) (r r' : List UInt8) :
    continuation v k ++ r < continuation w k ++ r' := by
  induction k with
  | zero => omega
  | succ k ih =>
    rw [continuation, continuation, List.cons_append, List.cons_append, List.cons_lt_cons_iff]
    have hsplit : ∀ u, u % 64 ^ (k + 1) = u % 64 ^ k + 64 ^ k * (u / 64 ^ k % 64) := fun u => by
      rw [Nat.pow_succ, Nat.mod_mul]
    rw [hsplit v, hsplit w] at h
    have hv : v / 64 ^ k % 64 < 64 := Nat.mod_lt _ (by decide)
    have hw : w / 64 ^ k % 64 < 64 := Nat.mod_lt _ (by decide)
    rcases Nat.lt_trichotomy (v / 64 ^ k % 64) (w / 64 ^ k % 64) with hlt | heq | hgt
    · refine .inl ((UInt8.ofNat_lt_iff_lt ?_ ?_).mpr (by omega)) <;>
        simp only [UInt8.size] <;> omega
    · rw [heq] at h ⊢
      exact .inr ⟨rfl, ih (Nat.lt_of_add_lt_add_right h)⟩
    · -- A greater digit outweighs all that follow it.
      have hmod : w % 64 ^ k < 64 ^ k := Nat.mod_lt _ (Nat.pow_pos (by decide))
      have hstep : 64 ^ k * (w / 64 ^ k % 64) + 64 ^ k ≤ 64 ^ k * (v / 64 ^ k % 64) :=
        Nat.mul_le_mul_left (64 ^ k) hgt
      omega

theorem lead_lt_size (hv : v < 0x110000) : lead v (width v) < UInt8.size := by
  unfold lead width
  simp only [UInt8.size]
  split_ifs <;> simp only [mark, Nat.reducePow] <;> omega

/-- A longer encoding has a greater first byte. -/
theorem lead_lt_of_width_ne (h : v < w) (hw : w < 0x110000) (hne : width v ≠ width w) :
    lead v (width v) < lead w (width w) := by
  unfold lead
  unfold width at *
  split_ifs at * <;> simp only [mark, Nat.reducePow] <;> omega

end CodePoint

/-! ## Characters -/

open CodePoint

theorem toNat_lt_size (c : Char) : c.toNat < 0x110000 := by
  rcases c.valid with h | ⟨-, h⟩ <;> simp only [Char.toNat] <;> omega

theorem encodeChar_eq (c : Char) :
    String.utf8EncodeChar c =
      .ofNat (lead c.toNat (width c.toNat)) :: continuation c.toNat (width c.toNat) := by
  have hc := toNat_lt_size c
  change c.val.toNat < 0x110000 at hc
  unfold String.utf8EncodeChar lead width
  simp only [Char.toNat]
  -- The digits of a first byte are all that is left of the code point.
  split_ifs <;> simp only [continuation, mark, Nat.reducePow, Nat.div_one, Nat.add_zero]
  · rw [Nat.mod_eq_of_lt (show c.val.toNat / 64 < 32 by omega)]
  · rw [Nat.mod_eq_of_lt (show c.val.toNat / 4096 < 16 by omega)]
  · rw [Nat.mod_eq_of_lt (show c.val.toNat / 262144 < 8 by omega)]

/-- The smaller character comes first, whatever follows. -/
theorem encodeChar_lt {c d : Char} (h : c < d) (r r' : List UInt8) :
    String.utf8EncodeChar c ++ r < String.utf8EncodeChar d ++ r' := by
  have hlt : c.toNat < d.toNat := h
  have hc := toNat_lt_size c
  have hd := toNat_lt_size d
  rw [encodeChar_eq, encodeChar_eq, List.cons_append, List.cons_append, List.cons_lt_cons_iff,
    UInt8.ofNat_lt_iff_lt (lead_lt_size hc) (lead_lt_size hd)]
  by_cases hwidth : width c.toNat = width d.toNat
  · rw [hwidth]
    have hle : c.toNat / 64 ^ width d.toNat ≤ d.toNat / 64 ^ width d.toNat :=
      Nat.div_le_div_right (Nat.le_of_lt hlt)
    rcases Nat.lt_or_eq_of_le hle with hdiv | hdiv
    · exact .inl (Nat.add_lt_add_right hdiv _)
    · refine .inr ⟨by rw [lead, lead, hdiv], continuation_lt ?_ r r'⟩
      have hsplitc := Nat.div_add_mod c.toNat (64 ^ width d.toNat)
      have hsplitd := Nat.div_add_mod d.toNat (64 ^ width d.toNat)
      rw [hdiv] at hsplitc
      omega
  · exact .inl (lead_lt_of_width_ne hlt hd hwidth)

/-! ## Texts -/

/-- The bytes that encode a text. -/
def bytes (s : String) : List UInt8 := s.toUTF8.data.toList

theorem bytes_eq (s : String) : bytes s = s.toList.flatMap String.utf8EncodeChar := by
  conv =>
    lhs
    rw [← String.ofList_toList (s := s)]
  rw [bytes, String.toUTF8_eq_toByteArray]
  exact List.toList_data_toByteArray

/-- **The order of texts is the order of their bytes.** -/
theorem bytes_lt_bytes {s t : String} (h : s < t) : bytes s < bytes t := by
  rw [bytes_eq, bytes_eq]
  have hlex : List.Lex (· < ·) s.toList t.toList := h
  generalize s.toList = cs, t.toList = ds at hlex
  induction hlex with
  | @nil d ds =>
    rw [List.flatMap_nil, List.flatMap_cons, encodeChar_eq, List.cons_append]
    exact List.nil_lt_cons _ _
  | @rel c cs d ds hcd =>
    rw [List.flatMap_cons, List.flatMap_cons]
    exact encodeChar_lt hcd _ _
  | @cons c cs ds _ ih =>
    rw [List.flatMap_cons, List.flatMap_cons]
    exact List.append_left_lt ih

end Imperative
