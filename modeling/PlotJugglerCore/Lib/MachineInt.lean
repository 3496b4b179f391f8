import Mathlib.Order.Lattice
import Mathlib.Tactic.Common

/-!
# Order on machine integers

Lean's `Int64` comes with its order relations and with `min` and `max`, but not with Mathlib's
bundled order. With the instance here, timestamps are compared, sorted and bounded by the lemmas of
any linear order, and `Int64.minValue` and `Int64.maxValue` are its two ends.
-/

instance Int64.instLinearOrder : LinearOrder Int64 where
  le_refl := Int64.le_refl
  le_trans _ _ _ := Int64.le_trans
  le_antisymm _ _ := Int64.le_antisymm
  le_total := Int64.le_total
  lt_iff_le_not_ge a b := by
    rw [Int64.not_le]
    exact ⟨fun h ↦ ⟨Int64.le_of_lt h, h⟩, fun h ↦ h.2⟩
  toDecidableLE := inferInstance
  toDecidableEq := inferInstance
  toDecidableLT := inferInstance
  min_def _ _ := rfl
  max_def _ _ := rfl

namespace Int64

/-- Cast to unsigned, a difference of two signed numbers is the true one when it is not negative. -/
theorem toNat_toUInt64_sub {a b : Int64} (h : b ≤ a) :
    ((a - b).toUInt64.toNat : Int) = a.toInt - b.toInt := by
  have hsub : (a - b).toUInt64.toNat = (2 ^ 64 - b.toBitVec.toNat + a.toBitVec.toNat) % 2 ^ 64 := by
    rw [← BitVec.toNat_sub, ← Int64.toBitVec_sub]
    rfl
  have ha : a.toInt = a.toBitVec.toInt := rfl
  have hb : b.toInt = b.toBitVec.toInt := rfl
  have hla := a.toBitVec.isLt
  have hlb := b.toBitVec.isLt
  rw [Int64.le_iff_toInt_le, ha, hb, BitVec.toInt_eq_toNat_cond, BitVec.toInt_eq_toNat_cond] at h
  rw [ha, hb, BitVec.toInt_eq_toNat_cond, BitVec.toInt_eq_toNat_cond, hsub]
  split_ifs at h ⊢ <;> omega

/-- Unsigned differences from a common lower bound are ordered like the numbers. -/
theorem toNat_toUInt64_sub_le {a b c : Int64} (hb : b ≤ a) (hc : a ≤ c) :
    (a - b).toUInt64.toNat ≤ (c - b).toUInt64.toNat := by
  have ha := toNat_toUInt64_sub hb
  have hc' := toNat_toUInt64_sub (hb.trans hc)
  rw [Int64.le_iff_toInt_le] at hc
  omega

/-- A difference that does not fall below the range is the true one. -/
theorem toInt_sub_of_pos {a b : Int64} (hb : 0 < b) (h : minValue.toInt ≤ a.toInt - b.toInt) :
    (a - b).toInt = a.toInt - b.toInt := by
  have hpos : 0 < b.toInt := Int64.lt_iff_toInt_lt.mp hb
  have hla := a.toInt_lt
  rw [Int64.toInt_minValue] at h
  rw [Int64.toInt_sub, Int.bmod_eq_of_le (by omega) (by omega)]

/-- A difference that falls below the range comes back above both numbers. -/
theorem lt_sub_of_lt {a b : Int64} (hb : 0 < b) (h : a.toInt - b.toInt < minValue.toInt) :
    a < a - b := by
  have hpos : 0 < b.toInt := Int64.lt_iff_toInt_lt.mp hb
  have hle := a.le_toInt
  have hlb := b.toInt_lt
  rw [Int64.toInt_minValue] at h
  rw [Int64.lt_iff_toInt_lt, Int64.toInt_sub, ← Int.add_bmod_right,
    Int.bmod_eq_of_le (by omega) (by omega)]
  omega

theorem add_toInt64_sub (a b : Int64) : b + (a - b).toUInt64.toInt64 = a := by
  rw [Int64.toInt64_toUInt64, Int64.add_comm, Int64.sub_add_cancel]

end Int64
