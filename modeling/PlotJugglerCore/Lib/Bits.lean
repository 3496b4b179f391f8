import Mathlib.Data.List.GetD
import Mathlib.Tactic.Common

/-!
# Bits packed into bytes

Bit `i` of a byte string is bit `i % 8` of byte `i / 8`. Setting and clearing one bit changes that
bit and no other, and a byte string packed from a list of booleans reads back that list: these are
the facts behind validity bitmaps and packed boolean columns.
-/

namespace Bits

/-- `1u << k` in a byte. -/
def mask (k : ℕ) : UInt8 := ⟨BitVec.twoPow 8 k⟩

/-- Bit `i`; everything behind the end is clear. -/
def get (bs : List UInt8) (i : ℕ) : Bool := (bs.getD (i / 8) 0).toBitVec.getLsbD (i % 8)

/-- `bytes[i / 8] |= 1u << (i % 8)`. -/
def set (bs : List UInt8) (i : ℕ) : List UInt8 := bs.modify (i / 8) (· ||| mask (i % 8))

/-- `bytes[i / 8] &= ~(1u << (i % 8))`. -/
def clear (bs : List UInt8) (i : ℕ) : List UInt8 := bs.modify (i / 8) (· &&& ~~~ mask (i % 8))

@[simp] theorem length_set (bs : List UInt8) (i : ℕ) : (set bs i).length = bs.length := by
  rw [set, List.length_modify]

@[simp] theorem length_clear (bs : List UInt8) (i : ℕ) : (clear bs i).length = bs.length := by
  rw [clear, List.length_modify]

theorem getLsbD_mask {k : ℕ} (hk : k < 8) (j : ℕ) :
    (mask k).toBitVec.getLsbD j = decide (k = j) := by
  rw [mask, BitVec.getLsbD_twoPow]
  simp [hk]

/-- Two positions are equal when they name the same bit of the same byte. -/
private theorem pos_eq_iff (i j : ℕ) : i = j ↔ i / 8 = j / 8 ∧ i % 8 = j % 8 := by omega

/-- A change of one byte, seen through a single bit. -/
private theorem get_modify (bs : List UInt8) (f : UInt8 → UInt8) {n : ℕ} (hn : n < bs.length)
    (j : ℕ) : get (bs.modify n f) j =
      if n = j / 8 then (f (bs.getD (j / 8) 0)).toBitVec.getLsbD (j % 8) else get bs j := by
  rw [get]
  split_ifs with h
  · subst h
    simp [List.getD_eq_getElem?_getD, hn]
  · rw [get, List.getD_eq_getElem?_getD, List.getElem?_modify, List.getD_eq_getElem?_getD]
    simp only [if_neg h, id_map']

theorem get_set {bs : List UInt8} {i : ℕ} (h : i / 8 < bs.length) (j : ℕ) :
    get (set bs i) j = (decide (i = j) || get bs j) := by
  have hk : i % 8 < 8 := Nat.mod_lt i (by decide)
  rw [set, get_modify bs _ h]
  split_ifs with hbyte
  · have hiff : i = j ↔ i % 8 = j % 8 := by rw [pos_eq_iff]; simp [hbyte]
    rw [UInt8.toBitVec_or, BitVec.getLsbD_or, getLsbD_mask hk, Bool.or_comm, get]
    simp only [hiff]
  · have hne : i ≠ j := by rw [ne_eq, pos_eq_iff]; simp [hbyte]
    simp [hne]

theorem get_clear {bs : List UInt8} {i : ℕ} (h : i / 8 < bs.length) (j : ℕ) :
    get (clear bs i) j = (!decide (i = j) && get bs j) := by
  have hk : i % 8 < 8 := Nat.mod_lt i (by decide)
  have hj : j % 8 < 8 := Nat.mod_lt j (by decide)
  rw [clear, get_modify bs _ h]
  split_ifs with hbyte
  · have hiff : i = j ↔ i % 8 = j % 8 := by rw [pos_eq_iff]; simp [hbyte]
    rw [UInt8.toBitVec_and, UInt8.toBitVec_not, BitVec.getLsbD_and, BitVec.getLsbD_not,
      getLsbD_mask hk, Bool.and_comm, get]
    simp [hiff, hj]
  · have hne : i ≠ j := by rw [ne_eq, pos_eq_iff]; simp [hbyte]
    simp [hne]

@[simp] theorem get_replicate_full {n i : ℕ} (h : i / 8 < n) :
    get (List.replicate n 0xFF) i = true := by
  have hk : i % 8 < 8 := Nat.mod_lt i (by decide)
  have hfull : ∀ k < 8, (0xFF : UInt8).toBitVec.getLsbD k = true := by decide
  rw [get, List.getD_eq_getElem?_getD, List.getElem?_replicate, if_pos h]
  exact hfull _ hk

theorem get_replicate_zero (n i : ℕ) : get (List.replicate n 0) i = false := by
  rw [get, List.getD_eq_getElem?_getD, List.getElem?_replicate]
  split_ifs <;> simp

/-- Bytes cut off behind bit `i` are not missed. -/
theorem get_take {n i : ℕ} (h : i / 8 < n) (bs : List UInt8) : get (bs.take n) i = get bs i := by
  rw [get, get, List.getD_eq_getElem?_getD, List.getElem?_take_of_lt h, List.getD_eq_getElem?_getD]

/-- Zero bytes behind the end change no bit. -/
theorem get_append_zero (bs : List UInt8) (n i : ℕ) : get (bs ++ List.replicate n 0) i = get bs i := by
  rw [get, get]
  congr 2
  rcases Nat.lt_or_ge (i / 8) bs.length with h | h
  · rw [List.getD_append _ _ _ _ h]
  · rw [List.getD_append_right _ _ _ _ h, List.getD_eq_getElem?_getD, List.getElem?_replicate,
      List.getD_eq_default _ _ h]
    split_ifs <;> rfl

end Bits
