import Mathlib.Data.List.Basic
import Mathlib.Tactic.Ring

/-!
# Little-endian byte strings

A number written as a fixed count of bytes, least significant first, and the number a byte string
spells. The two are inverse in both directions, which is all that the fixed-width codecs above this
file ever use. The last section reads one element out of a flat buffer of equally sized elements:
the shape of `memcpy` from `base + row * size`.
-/

namespace LittleEndian

/-- The low `n` bytes of `v`, least significant first. -/
def bytes : ℕ → ℕ → List UInt8
  | 0, _ => []
  | n + 1, v => UInt8.ofNat v :: bytes n (v / 256)

/-- The number a byte string spells, least significant byte first. -/
def value : List UInt8 → ℕ
  | [] => 0
  | b :: bs => b.toNat + 256 * value bs

@[simp] theorem bytes_zero (v : ℕ) : bytes 0 v = [] := rfl

@[simp] theorem value_nil : value [] = 0 := rfl

@[simp] theorem length_bytes (n v : ℕ) : (bytes n v).length = n := by
  induction n generalizing v with
  | zero => rfl
  | succ n ih => rw [bytes, List.length_cons, ih]

theorem value_bytes (n v : ℕ) : value (bytes n v) = v % 256 ^ n := by
  induction n generalizing v with
  | zero => rw [bytes_zero, value_nil, pow_zero, Nat.mod_one]
  | succ n ih =>
    rw [bytes, value, ih, UInt8.toNat_ofNat', pow_succ 256 n, mul_comm (256 ^ n) 256, Nat.mod_mul]

/-- Writing then reading gives the number back when it fits. -/
theorem value_bytes_of_lt {n v : ℕ} (h : v < 256 ^ n) : value (bytes n v) = v := by
  rw [value_bytes, Nat.mod_eq_of_lt h]

theorem value_lt (bs : List UInt8) : value bs < 256 ^ bs.length := by
  induction bs with
  | nil => simp
  | cons b bs ih =>
    have hb : b.toNat < 256 := b.toNat_lt
    rw [value, List.length_cons, pow_succ]
    omega

/-- The low bytes are the number modulo their range. -/
theorem value_take (bs : List UInt8) (n : ℕ) :
    value (bs.take n) = value bs % 256 ^ n := by
  induction n generalizing bs with
  | zero => rw [List.take_zero, pow_zero, Nat.mod_one]; rfl
  | succ n ih =>
    match bs with
    | [] => simp [value]
    | b :: bs =>
      rw [List.take_succ_cons, value, value, ih, pow_succ', Nat.mod_mul,
        Nat.add_mul_mod_self_left, Nat.mod_eq_of_lt b.toNat_lt,
        Nat.add_mul_div_left _ _ (by decide), Nat.div_eq_of_lt b.toNat_lt, Nat.zero_add]

/-- Digits of `w` bits put together with `or`: each falls where the others have no bits. -/
theorem or_shiftLeft_digit {w p : ℕ} (hp : p < 2 ^ w) (out v shift : ℕ) :
    (out ||| p <<< shift) ||| v <<< (shift + w) = out ||| (p + 2 ^ w * v) <<< shift := by
  have hdigit : p ||| v <<< w = p + 2 ^ w * v := by
    rw [Nat.shiftLeft_eq, mul_comm, Nat.or_comm, ← Nat.two_pow_add_eq_or_of_lt hp, Nat.add_comm]
  rw [Nat.or_assoc, add_comm shift w, Nat.shiftLeft_add, ← Nat.shiftLeft_or_distrib, hdigit]

/-! ## One element of a flat buffer -/

/-- The `size` bytes of element `row` in a buffer of equally sized elements. -/
def element (buf : List UInt8) (size row : ℕ) : List UInt8 :=
  (buf.drop (row * size)).take size

/-- In a buffer made of `size`-byte pieces, element `row` is piece `row`. -/
theorem element_flatten {size : ℕ} {pieces : List (List UInt8)}
    (hsize : ∀ p ∈ pieces, p.length = size) (row : ℕ) :
    element pieces.flatten size row = pieces.getD row [] := by
  induction pieces generalizing row with
  | nil => simp [element]
  | cons p ps ih =>
    have hp : p.length = size := hsize p List.mem_cons_self
    have hps : ∀ q ∈ ps, q.length = size := fun q hq ↦ hsize q (List.mem_cons_of_mem p hq)
    cases row with
    | zero =>
      rw [element, zero_mul, List.drop_zero, List.flatten_cons, ← hp, List.take_left]
      rfl
    | succ row =>
      have hdrop : (p :: ps).flatten.drop ((row + 1) * size) = ps.flatten.drop (row * size) := by
        rw [List.flatten_cons, show (row + 1) * size = p.length + row * size by rw [hp]; ring,
          List.drop_append, List.drop_eq_nil_of_le (Nat.le_add_right _ _), List.nil_append,
          Nat.add_sub_cancel_left]
      rw [element, hdrop, ← element, ih hps]
      rfl

end LittleEndian
