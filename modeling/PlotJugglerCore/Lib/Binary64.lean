import Mathlib

/-!
# Binary floating point as bit patterns

A double is its sixty-four bits. Copying, storing and sending doubles is then exact by definition,
NaN payloads and signed zeros included. The comparisons, the conversions and the arithmetic are
computed on the bits: with the sign folded in, the pattern of a double that is not a NaN orders the
way the number does, and an integer is rounded to the nearest double, ties to even, which stops
being injective above `2 ^ 53`.
-/

/-- The bits of an IEEE 754 double. -/
abbrev Binary64 := UInt64

/-- The bits of an IEEE 754 single. -/
abbrev Binary32 := UInt32

namespace Binary64

def zero : Binary64 := 0

def one : Binary64 := 0x3FF0000000000000

def two : Binary64 := 0x4000000000000000

def fourteen : Binary64 := 0x402C000000000000

/-- `std::numeric_limits<double>::max()`. -/
def largest : Binary64 := 0x7FEFFFFFFFFFFFFF

/-- `std::numeric_limits<double>::lowest()`. -/
def lowest : Binary64 := 0xFFEFFFFFFFFFFFFF

/-- `std::numeric_limits<double>::quiet_NaN()`. -/
def quietNaN : Binary64 := 0x7FF8000000000000

/-! ## Comparison -/

def isNaN (x : Binary64) : Bool := 0x7FF0000000000000 < x.toNat % 2 ^ 63

def isFinite (x : Binary64) : Bool := x.toNat % 2 ^ 63 < 0x7FF0000000000000

/-- The magnitude bits with the sign applied: monotone in the number, and both zeros are `0`. -/
def key (x : Binary64) : ℤ :=
  if x.toNat < 2 ^ 63 then (x.toNat : ℤ) else -((x.toNat : ℤ) - 2 ^ 63)

/-- `x == y`. -/
def eq (x y : Binary64) : Bool := !isNaN x && !isNaN y && key x = key y

/-- `x < y`. -/
def lt (x y : Binary64) : Bool := !isNaN x && !isNaN y && decide (key x < key y)

/-- `x <= y`. -/
def le (x y : Binary64) : Bool := !isNaN x && !isNaN y && decide (key x ≤ key y)

theorem eq_symm {x y : Binary64} (h : eq x y) : eq y x := by
  simp only [eq, Bool.and_eq_true, decide_eq_true_eq] at *
  exact ⟨⟨h.1.2, h.1.1⟩, h.2.symm⟩

theorem eq_trans {x y z : Binary64} (h : eq x y) (h' : eq y z) : eq x z := by
  simp only [eq, Bool.and_eq_true, decide_eq_true_eq] at *
  exact ⟨⟨h.1.1, h'.1.2⟩, h.2.trans h'.2⟩

theorem eq_self {x : Binary64} (hx : isNaN x = false) : eq x x := by
  simp [eq, hx]

/-- Among numbers the comparisons are those of the keys. -/
theorem lt_eq {x y : Binary64} (hx : isNaN x = false) (hy : isNaN y = false) :
    lt x y = decide (key x < key y) := by
  simp [lt, hx, hy]

theorem le_eq {x y : Binary64} (hx : isNaN x = false) (hy : isNaN y = false) :
    le x y = decide (key x ≤ key y) := by
  simp [le, hx, hy]

theorem isNaN_of_le {x y : Binary64} (h : le x y = true) : isNaN x = false ∧ isNaN y = false := by
  simp only [le, Bool.and_eq_true, Bool.not_eq_true'] at h
  exact h.1

theorem eq_largest {x : Binary64} (h : key x = key largest) : x = largest := by
  have hlargest : key largest = 0x7FEFFFFFFFFFFFFF := by decide
  have htoNat : largest.toNat = 0x7FEFFFFFFFFFFFFF := by decide
  rw [hlargest, key] at h
  refine UInt64.toNat_inj.mp ?_
  rw [htoNat]
  split_ifs at h
  all_goals omega

theorem eq_lowest {x : Binary64} (h : key x = key lowest) : x = lowest := by
  have hlowest : key lowest = -0x7FEFFFFFFFFFFFFF := by decide
  have htoNat : lowest.toNat = 0xFFEFFFFFFFFFFFFF := by decide
  rw [hlowest, key] at h
  refine UInt64.toNat_inj.mp ?_
  rw [htoNat]
  split_ifs at h
  all_goals omega

/-! ## Conversion -/

/-- `n / 2 ^ shift` rounded to the nearest integer, ties to even. -/
def roundShift (n shift : ℕ) : ℕ :=
  if 2 ^ shift < 2 * (n % 2 ^ shift) ∨ 2 * (n % 2 ^ shift) = 2 ^ shift ∧ n / 2 ^ shift % 2 = 1
  then n / 2 ^ shift + 1 else n / 2 ^ shift

/-- `static_cast<double>` of an unsigned integer below `2 ^ 64`. The significand carries its leading
bit, so the biased exponent field starts one lower and a carry out of the rounding lands in it. -/
def ofNat (n : ℕ) : Binary64 :=
  if n = 0 then zero
  else if Nat.log2 n ≤ 52 then
    UInt64.ofNat ((Nat.log2 n + 1022) * 2 ^ 52 + n * 2 ^ (52 - Nat.log2 n))
  else UInt64.ofNat ((Nat.log2 n + 1022) * 2 ^ 52 + roundShift n (Nat.log2 n - 52))

/-- `static_cast<double>` of a signed integer. -/
def ofInt (z : ℤ) : Binary64 :=
  if z < 0 then ofNat z.natAbs ||| 0x8000000000000000 else ofNat z.natAbs

/-- `static_cast<double>(float)`: exact, and a NaN comes out quiet. -/
def ofBinary32 (x : Binary32) : Binary64 :=
  UInt64.ofNat (x.toNat / 2 ^ 31 * 2 ^ 63 +
    magnitude (x.toNat / 2 ^ 23 % 2 ^ 8) (x.toNat % 2 ^ 23))
where
  /-- Sixty-three bits from the exponent and fraction fields of a single. -/
  magnitude (e f : ℕ) : ℕ :=
    if e = 255 then 2047 * 2 ^ 52 + (if f = 0 then 0 else (f * 2 ^ 29) ||| 2 ^ 51)
    else if e = 0 then
      if f = 0 then 0 else (Nat.log2 f + 873) * 2 ^ 52 + f * 2 ^ (52 - Nat.log2 f)
    else (e + 896) * 2 ^ 52 + f * 2 ^ 29

/-- `static_cast` of a double to an integer: the fraction is cut off. Values outside the target
range, where the cast is undefined, are left to the wrap of the caller. -/
def truncate (x : Binary64) : ℤ :=
  if x.toNat < 2 ^ 63 then (magnitude x : ℤ) else -(magnitude x : ℤ)
where
  magnitude (x : Binary64) : ℕ :=
    if x.toNat / 2 ^ 52 % 2 ^ 11 < 1023 then 0
    else if x.toNat / 2 ^ 52 % 2 ^ 11 < 1075 then
      (2 ^ 52 + x.toNat % 2 ^ 52) / 2 ^ (1075 - x.toNat / 2 ^ 52 % 2 ^ 11)
    else (2 ^ 52 + x.toNat % 2 ^ 52) * 2 ^ (x.toNat / 2 ^ 52 % 2 ^ 11 - 1075)

/-- `static_cast<float>` of a double: rounded to the nearest single, ties to even. What is too large
becomes infinite, and what is too small for a normal single is rounded in units of `2 ^ -149`. -/
def toBinary32 (x : Binary64) : Binary32 :=
  UInt32.ofNat (x.toNat / 2 ^ 63 * 2 ^ 31 +
    magnitude (x.toNat / 2 ^ 52 % 2 ^ 11) (x.toNat % 2 ^ 52))
where
  /-- Thirty-one bits from the exponent and fraction fields of a double. -/
  magnitude (e f : ℕ) : ℕ :=
    if e = 2047 then 255 * 2 ^ 23 + (if f = 0 then 0 else (f / 2 ^ 29) ||| 2 ^ 22)
    else if e < 897 then roundShift (if e = 0 then f else 2 ^ 52 + f) (926 - max e 1)
    else min (255 * 2 ^ 23) ((e - 897) * 2 ^ 23 + roundShift (2 ^ 52 + f) 29)

/-- `static_cast<float>` of an integer between `-2 ^ 63` and `2 ^ 64`, rounded once. -/
def singleOfInt (z : ℤ) : Binary32 :=
  UInt32.ofNat ((if z < 0 then 2 ^ 31 else 0) + magnitude z.natAbs)
where
  magnitude (n : ℕ) : ℕ :=
    if n = 0 then 0
    else if Nat.log2 n ≤ 23 then (Nat.log2 n + 126) * 2 ^ 23 + n * 2 ^ (23 - Nat.log2 n)
    else (Nat.log2 n + 126) * 2 ^ 23 + roundShift n (Nat.log2 n - 23)

/-- Above `2 ^ 53` neighbours share a double. -/
example : ofNat (2 ^ 53) = ofNat (2 ^ 53 + 1) := by decide +kernel

/-- Ties go to the even single, and the carry lands in the exponent. -/
example : toBinary32 (ofNat (2 ^ 25 - 1)) = 0x4C000000 := by decide +kernel

/-- The fields of an integer below `2 ^ 53`: the exponent is that of its leading bit. -/
theorem toNat_ofNat {n : ℕ} (hpos : n ≠ 0) (h : n < 2 ^ 53) :
    (ofNat n).toNat = (Nat.log2 n + 1022) * 2 ^ 52 + n * 2 ^ (52 - Nat.log2 n) ∧
      2 ^ 52 ≤ n * 2 ^ (52 - Nat.log2 n) ∧ n * 2 ^ (52 - Nat.log2 n) < 2 ^ 53 ∧
      Nat.log2 n ≤ 52 := by
  have hlog : Nat.log2 n ≤ 52 := Nat.lt_succ_iff.mp ((Nat.log2_lt hpos).mpr h)
  have hlow : 2 ^ 52 ≤ n * 2 ^ (52 - Nat.log2 n) := by
    calc 2 ^ 52 = 2 ^ Nat.log2 n * 2 ^ (52 - Nat.log2 n) := by rw [← pow_add, Nat.add_sub_cancel' hlog]
      _ ≤ n * 2 ^ (52 - Nat.log2 n) := Nat.mul_le_mul_right _ (Nat.log2_self_le hpos)
  have hhigh : n * 2 ^ (52 - Nat.log2 n) < 2 ^ 53 := by
    calc n * 2 ^ (52 - Nat.log2 n) < 2 ^ (Nat.log2 n + 1) * 2 ^ (52 - Nat.log2 n) :=
          Nat.mul_lt_mul_of_pos_right Nat.lt_log2_self (Nat.two_pow_pos _)
      _ = 2 ^ 53 := by rw [← pow_add]; congr 1; omega
  refine ⟨?_, hlow, hhigh, hlog⟩
  rw [ofNat, if_neg hpos, if_pos hlog, UInt64.toNat_ofNat', Nat.mod_eq_of_lt]
  omega

theorem magnitude_ofNat {n : ℕ} (hpos : n ≠ 0) (h : n < 2 ^ 53) {x : Binary64}
    (hx : x.toNat % 2 ^ 63 = (ofNat n).toNat) : truncate.magnitude x = n := by
  obtain ⟨hbits, hlow, hhigh, hlog⟩ := toNat_ofNat hpos h
  rw [hbits] at hx
  have hexp : x.toNat / 2 ^ 52 % 2 ^ 11 = Nat.log2 n + 1023 := by omega
  have hfrac : 2 ^ 52 + x.toNat % 2 ^ 52 = n * 2 ^ (52 - Nat.log2 n) := by omega
  rw [truncate.magnitude, hexp, hfrac, if_neg (by omega)]
  split_ifs with hlt
  · rw [show 1075 - (Nat.log2 n + 1023) = 52 - Nat.log2 n by omega,
      Nat.mul_div_cancel _ (Nat.two_pow_pos _)]
  · rw [show 52 - Nat.log2 n = 0 by omega, show Nat.log2 n + 1023 - 1075 = 0 by omega, pow_zero,
      Nat.mul_one, Nat.mul_one]

/-- Integers below `2 ^ 53` are doubles. -/
theorem truncate_ofNat {n : ℕ} (h : n < 2 ^ 53) : truncate (ofNat n) = n := by
  rcases eq_or_ne n 0 with rfl | hpos
  · decide
  · obtain ⟨hbits, hlow, hhigh, hlog⟩ := toNat_ofNat hpos h
    have hlt : (ofNat n).toNat < 2 ^ 63 := by omega
    rw [truncate, if_pos hlt, magnitude_ofNat hpos h (Nat.mod_eq_of_lt hlt)]

theorem truncate_ofInt {z : ℤ} (h : z.natAbs < 2 ^ 53) : truncate (ofInt z) = z := by
  rw [ofInt]
  split_ifs with hneg
  · have hpos : z.natAbs ≠ 0 := by omega
    obtain ⟨hbits, hlow, hhigh, hlog⟩ := toNat_ofNat hpos h
    have hlt : (ofNat z.natAbs).toNat < 2 ^ 63 := by omega
    have hor : (ofNat z.natAbs ||| 0x8000000000000000).toNat = (ofNat z.natAbs).toNat + 2 ^ 63 := by
      rw [UInt64.toNat_or, Nat.or_comm]
      have := Nat.two_pow_add_eq_or_of_lt hlt 1
      simp only [mul_one] at this
      rw [Nat.add_comm, this]
      rfl
    rw [truncate, if_neg (by omega), magnitude_ofNat hpos h (by omega)]
    omega
  · rw [truncate_ofNat h]
    omega

/-! ## Arithmetic

A finite double is `significand * 2 ^ exponent` with a sign. Each operation computes its result
exactly, as a quotient of natural numbers, and rounds it once to the nearest double, ties to even.
What is too large becomes infinite, and below the normal doubles the exponent stays where it is. -/

def isNegative (x : Binary64) : Bool := 2 ^ 63 ≤ x.toNat

def isZero (x : Binary64) : Bool := x.toNat % 2 ^ 63 = 0

def significand (x : Binary64) : ℕ :=
  if x.toNat / 2 ^ 52 % 2 ^ 11 = 0 then x.toNat % 2 ^ 52 else 2 ^ 52 + x.toNat % 2 ^ 52

def exponent (x : Binary64) : ℤ := (max 1 (x.toNat / 2 ^ 52 % 2 ^ 11) : ℕ) - 1075

/-- A sign and sixty-three bits. -/
def signed (negative : Bool) (magnitude : ℕ) : Binary64 :=
  UInt64.ofNat ((if negative then 2 ^ 63 else 0) + magnitude)

/-- The magnitude bits of the infinities. -/
def infinite : ℕ := 0x7FF0000000000000

/-- `num / den` rounded to the nearest integer, ties to even. -/
def roundQuotient (num den : ℕ) : ℕ :=
  if den < 2 * (num % den) ∨ 2 * (num % den) = den ∧ num / den % 2 = 1 then num / den + 1
  else num / den

/-- The exponent at which `num / den` has a significand of fifty-three bits, or of fewer if that
would be below the least exponent. -/
def quotientExponent (num den : ℕ) : ℤ :=
  if num * 2 ^ (-least).toNat < 2 ^ 53 * (den * 2 ^ least.toNat) then least else least + 1
where
  /-- From the leading bits, which leave one bit open. -/
  least : ℤ := max (-1074) (Nat.log2 num - Nat.log2 den - 53)

/-- The double nearest to `num / den`. A significand carries its leading bit, so the field of the
exponent starts one lower. -/
def ofRatio (negative : Bool) (num den : ℕ) : Binary64 :=
  if num = 0 then signed negative 0
  else signed negative <| min infinite <| (quotientExponent num den + 1074).toNat * 2 ^ 52 +
    roundQuotient (num * 2 ^ (-quotientExponent num den).toNat)
      (den * 2 ^ (quotientExponent num den).toNat)

/-- `-x` -/
def neg (x : Binary64) : Binary64 := x ^^^ 0x8000000000000000

/-- A finite double in units of `2 ^ e`, for an `e` that is not above its exponent. -/
def inUnits (e : ℤ) (x : Binary64) : ℤ :=
  if isNegative x then -(significand x * 2 ^ (exponent x - e).toNat : ℕ)
  else (significand x * 2 ^ (exponent x - e).toNat : ℕ)

/-- `x + y` -/
def add (x y : Binary64) : Binary64 :=
  if isNaN x || isNaN y then quietNaN
  else if !isFinite x then
    if !isFinite y && isNegative x != isNegative y then quietNaN else x
  else if !isFinite y then y
  else sumFrom (min (exponent x) (exponent y))
where
  /-- An exact zero is positive unless both terms are negative. -/
  sumFrom (e : ℤ) : Binary64 :=
    if inUnits e x + inUnits e y = 0 then signed (isNegative x && isNegative y) 0
    else ofRatio (inUnits e x + inUnits e y < 0)
      ((inUnits e x + inUnits e y).natAbs * 2 ^ e.toNat) (2 ^ (-e).toNat)

/-- `x - y` -/
def sub (x y : Binary64) : Binary64 := add x (neg y)

/-- `x * y` -/
def mul (x y : Binary64) : Binary64 :=
  if isNaN x || isNaN y then quietNaN
  else if !isFinite x || !isFinite y then
    if isZero x || isZero y then quietNaN else signed (isNegative x != isNegative y) infinite
  else ofRatio (isNegative x != isNegative y)
    (significand x * significand y * 2 ^ (exponent x + exponent y).toNat)
    (2 ^ (-(exponent x + exponent y)).toNat)

/-- `x / y` -/
def div (x y : Binary64) : Binary64 :=
  if isNaN x || isNaN y then quietNaN
  else if !isFinite x then
    if !isFinite y then quietNaN else signed (isNegative x != isNegative y) infinite
  else if !isFinite y then signed (isNegative x != isNegative y) 0
  else if isZero y then
    if isZero x then quietNaN else signed (isNegative x != isNegative y) infinite
  else ofRatio (isNegative x != isNegative y)
    (significand x * 2 ^ (exponent x - exponent y).toNat)
    (significand y * 2 ^ (exponent y - exponent x).toNat)

/-- `1.0 / 3.0`, and half of the least double, which is zero. -/
example : div one (ofNat 3) = 0x3FD5555555555555 ∧ div 1 two = zero := by decide +kernel

/-! ### Exact results -/

theorem significand_lt (x : Binary64) : significand x < 2 ^ 53 := by
  rw [significand]
  split_ifs <;> omega

/-- The significand carries its leading bit, but at the least exponent. -/
theorem le_significand {x : Binary64} (h : exponent x ≠ -1074) : 2 ^ 52 ≤ significand x := by
  rw [exponent] at h
  rw [significand]
  split_ifs with hzero
  · rw [hzero] at h
    exact absurd (by decide) h
  · omega

theorem le_exponent (x : Binary64) : -1074 ≤ exponent x := by
  rw [exponent]
  omega

/-- The bits of a finite double from its parts. -/
theorem signed_parts {x : Binary64} (hx : isFinite x) :
    (exponent x + 1074).toNat * 2 ^ 52 + significand x < infinite ∧
      signed (isNegative x) ((exponent x + 1074).toNat * 2 ^ 52 + significand x) = x := by
  have hlt := x.toNat_lt
  have hmagnitude : (exponent x + 1074).toNat * 2 ^ 52 + significand x = x.toNat % 2 ^ 63 := by
    rw [exponent, significand]
    split_ifs with hzero <;> omega
  rw [hmagnitude]
  refine ⟨by simpa [isFinite, infinite] using hx, ?_⟩
  rw [signed, ← UInt64.toNat_inj, UInt64.toNat_ofNat', isNegative]
  split_ifs with hsign <;> simp only [decide_eq_true_eq] at hsign <;> omega

theorem roundQuotient_mul (n : ℕ) {den : ℕ} (hden : 0 < den) :
    roundQuotient (n * den) den = n := by
  rw [roundQuotient, Nat.mul_mod_left, Nat.mul_div_cancel _ hden, if_neg (by omega)]

theorem two_zpow_eq (e : ℤ) : (2 : ℚ) ^ e = 2 ^ e.toNat / 2 ^ (-e).toNat := by
  rw [← zpow_natCast, ← zpow_natCast, ← zpow_sub₀ two_ne_zero]
  congr 1
  omega

variable {num den s : ℕ} {e : ℤ}

theorem scaled_lt_iff (c : ℕ) : num * 2 ^ (-e).toNat < c * (den * 2 ^ e.toNat) ↔
    (num : ℚ) < c * den * 2 ^ e := by
  rw [two_zpow_eq, ← mul_div_assoc, lt_div_iff₀ (by positivity), mul_assoc]
  exact_mod_cast Iff.rfl

theorem scaled_eq_iff : num * 2 ^ (-e).toNat = s * (den * 2 ^ e.toNat) ↔
    (num : ℚ) = s * den * 2 ^ e := by
  rw [two_zpow_eq, ← mul_div_assoc, eq_div_iff (by positivity), mul_assoc]
  exact_mod_cast Iff.rfl

/-- The quotient of a significand and an exponent has that exponent. -/
theorem quotientExponent_eq (hnum : num ≠ 0) (hden : den ≠ 0) (hs : s < 2 ^ 53) (he : -1074 ≤ e)
    (hleading : e ≠ -1074 → 2 ^ 52 ≤ s) (h : (num : ℚ) = s * den * 2 ^ e) :
    quotientExponent num den = e := by
  have hpow : ∀ {a b : ℤ}, (2 : ℚ) ^ a < 2 ^ b → a < b :=
    fun hlt ↦ (zpow_lt_zpow_iff_right₀ one_lt_two).mp hlt
  have hnumlow : (2 : ℚ) ^ (Nat.log2 num : ℤ) ≤ num := by
    exact_mod_cast Nat.log2_self_le hnum
  have hnumhigh : (num : ℚ) < 2 ^ (Nat.log2 num + 1 : ℤ) := by
    exact_mod_cast Nat.lt_log2_self
  have hdenlow : (2 : ℚ) ^ (Nat.log2 den : ℤ) ≤ den := by
    exact_mod_cast Nat.log2_self_le hden
  have hdenhigh : (den : ℚ) < 2 ^ (Nat.log2 den + 1 : ℤ) := by
    exact_mod_cast Nat.lt_log2_self
  have hshigh : (s : ℚ) < 2 ^ (53 : ℤ) := by exact_mod_cast hs
  -- the leading bits give the exponent up to one
  have hle : (Nat.log2 num : ℤ) - Nat.log2 den - 53 ≤ e := by
    have hlt : (2 : ℚ) ^ (Nat.log2 num : ℤ) < 2 ^ (53 + (Nat.log2 den + 1) + e : ℤ) := by
      calc (2 : ℚ) ^ (Nat.log2 num : ℤ) ≤ s * den * 2 ^ e := h ▸ hnumlow
        _ < 2 ^ (53 : ℤ) * 2 ^ (Nat.log2 den + 1 : ℤ) * 2 ^ e := by gcongr
        _ = _ := by rw [zpow_add₀ two_ne_zero _ e, zpow_add₀ two_ne_zero 53]
    have := hpow hlt
    omega
  have hge : e ≠ -1074 → e ≤ Nat.log2 num - Nat.log2 den - 52 := by
    intro hne
    have hslow : (2 : ℚ) ^ (52 : ℤ) ≤ s := by exact_mod_cast hleading hne
    have hlt : (2 : ℚ) ^ (52 + Nat.log2 den + e : ℤ) < 2 ^ (Nat.log2 num + 1 : ℤ) := by
      calc (2 : ℚ) ^ (52 + Nat.log2 den + e : ℤ) = 2 ^ (52 : ℤ) * 2 ^ (Nat.log2 den : ℤ) * 2 ^ e := by
            rw [zpow_add₀ two_ne_zero, zpow_add₀ two_ne_zero]
        _ ≤ s * den * 2 ^ e := by gcongr
        _ < _ := h ▸ hnumhigh
    have := hpow hlt
    omega
  have hleast : quotientExponent.least num den =
    max (-1074) ((Nat.log2 num : ℤ) - Nat.log2 den - 53) := rfl
  rw [quotientExponent]
  by_cases heq : quotientExponent.least num den = e
  · rw [heq, if_pos]
    rw [scaled_lt_iff, h]
    push_cast
    gcongr
    exact_mod_cast hs
  · have hne : e ≠ -1074 := by
      intro hmin
      omega
    have hone : quotientExponent.least num den = e - 1 := by
      have := hge hne
      omega
    have hslow : (2 ^ 52 : ℚ) ≤ s := by exact_mod_cast hleading hne
    rw [hone, if_neg, sub_add_cancel]
    rw [scaled_lt_iff, not_lt, h, zpow_sub_one₀ two_ne_zero]
    calc ((2 ^ 53 : ℕ) : ℚ) * den * (2 ^ e * 2⁻¹) = 2 ^ 52 * den * 2 ^ e := by
          push_cast
          ring
      _ ≤ s * den * 2 ^ e := by gcongr

/-- A finite double is the double nearest to its own value. -/
theorem ofRatio_eq {x : Binary64} (hx : isFinite x) (hden : den ≠ 0)
    (h : (num : ℚ) = significand x * den * 2 ^ exponent x) :
    ofRatio (isNegative x) num den = x := by
  obtain ⟨hlt, hparts⟩ := signed_parts hx
  rw [ofRatio]
  split_ifs with hnum
  · have hzero : significand x = 0 := by
      rw [hnum] at h
      have hprod := h.symm
      simpa [hden, zpow_ne_zero] using hprod
    have hexp : exponent x = -1074 := by
      by_contra hne
      have := le_significand hne
      omega
    rw [hexp, hzero] at hparts
    exact hparts
  · rw [quotientExponent_eq hnum hden (significand_lt x) (le_exponent x) le_significand h,
      scaled_eq_iff.mpr h, roundQuotient_mul _ (by positivity), min_eq_right hlt.le, hparts]

end Binary64
