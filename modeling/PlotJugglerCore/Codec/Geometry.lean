import PlotJugglerCore.Lib.Binary64
import PlotJugglerCore.Wire.RoundTrip

/-!
# Timestamps, vectors, poses and colours

`geometry_codec.hpp`: the nested messages that the builtin codecs share. A timestamp travels as
seconds and nanoseconds; vectors, points and quaternions as doubles under consecutive numbers; a
colour as four doubles between zero and one.

The timestamp handler is the one handler of the repository that is not a table. It reads every
varint before it looks at the field number, so it has consumed the payload of an unknown field by
the time it declines it.

## Colour arithmetic

Colours are bytes in the program and doubles on the wire. How the conversions round is a parameter:
results that need them to be inverse to each other say so, and `FloatArith.binary64` computes them
as the program does.
-/

namespace PlotJuggler

open LittleEndian

/-- The computations with doubles that the codecs perform. -/
structure FloatArith where
  /-- `static_cast<double>(b) / 255.0` -/
  byteToUnit : UInt8 → Binary64
  /-- `static_cast<uint8_t>(std::clamp(value, 0.0, 1.0) * 255.0 + 0.5)` -/
  normalizedToByte : Binary64 → UInt8
  /-- `value * 2.0` -/
  twice : Binary64 → Binary64
  /-- `value * 0.5` -/
  half : Binary64 → Binary64

/-! ## Timestamp -/

structure TimestampParts where
  seconds : Int64 := 0
  nanos : Int32 := 0
  deriving DecidableEq, Repr

/-- Division truncates towards zero, so a negative remainder is moved to the seconds. -/
def splitTimestamp (timestampNs : Int64) : TimestampParts :=
  if (timestampNs % 1000000000).toInt32 < 0 then
    ⟨timestampNs / 1000000000 - 1, (timestampNs % 1000000000).toInt32 + 1000000000⟩
  else ⟨timestampNs / 1000000000, (timestampNs % 1000000000).toInt32⟩

def combineTimestamp (parts : TimestampParts) : Option Int64 :=
  if parts.nanos < 0 ∨ 1000000000 ≤ parts.nanos.toInt64 then none
  else if Int64.maxValue / 1000000000 < parts.seconds ∨
      parts.seconds < Int64.minValue / 1000000000 then none
  else if Int64.maxValue - parts.nanos.toInt64 < parts.seconds * 1000000000 then none
  else some (parts.seconds * 1000000000 + parts.nanos.toInt64)

/-- The instants whose two parts can be put together again. -/
def TimestampOk (timestampNs : Int64) : Prop :=
  (combineTimestamp (splitTimestamp timestampNs)).isSome

instance (timestampNs : Int64) : Decidable (TimestampOk timestampNs) :=
  inferInstanceAs (Decidable ((combineTimestamp (splitTimestamp timestampNs)).isSome = true))

/-- The remainder fits 32 bits with room for one more second. -/
private theorem toInt_remainder (t : Int64) :
    ((t % 1000000000).toInt32).toInt = t.toInt.tmod 1000000000 := by
  have hlt := Int.tmod_lt_of_pos t.toInt (b := 1000000000) (by decide)
  have hge := Int.lt_tmod_of_pos t.toInt (b := 1000000000) (by decide)
  rw [Int64.toInt_toInt32, Int64.toInt_mod]
  have h : (1000000000 : Int64).toInt = 1000000000 := by decide
  rw [h]
  exact Int.bmod_eq_of_le (by omega) (by omega)

/-- Seconds and nanoseconds add up to the instant they were split from. -/
theorem splitTimestamp_sum (t : Int64) :
    (splitTimestamp t).seconds * 1000000000 + (splitTimestamp t).nanos.toInt64 = t := by
  have hrem := toInt_remainder t
  have hsum : t.toInt.tdiv 1000000000 * 1000000000 + t.toInt.tmod 1000000000 = t.toInt := by
    have := Int.mul_tdiv_add_tmod t.toInt 1000000000
    omega
  have hlt := Int.tmod_lt_of_pos t.toInt (b := 1000000000) (by decide)
  have hge := Int.lt_tmod_of_pos t.toInt (b := 1000000000) (by decide)
  have hquot : t / 1000000000 = Int64.ofInt (t.toInt.tdiv 1000000000) := by
    rw [← Int64.toInt_inj, Int64.toInt_div, Int64.toInt_ofInt]
    rfl
  have hc : (1000000000 : Int64) = Int64.ofInt 1000000000 := rfl
  rw [splitTimestamp]
  split_ifs with hneg
  · have hnanos : ((t % 1000000000).toInt32 + 1000000000).toInt64 =
        Int64.ofInt (t.toInt.tmod 1000000000 + 1000000000) := by
      have h : (1000000000 : Int32).toInt = 1000000000 := by decide
      have hneg' : t.toInt.tmod 1000000000 < 0 := by
        rw [← hrem]
        exact Int32.lt_iff_toInt_lt.mp hneg
      rw [← Int64.toInt_inj, Int32.toInt_toInt64, Int32.toInt_add, hrem, h,
        Int64.toInt_ofInt_of_le (by omega) (by omega), Int.bmod_eq_of_le (by omega) (by omega)]
    have hone : (1 : Int64) = Int64.ofInt 1 := rfl
    have hsum' : (t.toInt.tdiv 1000000000 - 1) * 1000000000 +
        (t.toInt.tmod 1000000000 + 1000000000) = t.toInt := by omega
    rw [hnanos, hquot, hc, hone, ← Int64.ofInt_sub, ← Int64.ofInt_mul, ← Int64.ofInt_add, hsum',
      Int64.ofInt_toInt]
  · have hnanos : ((t % 1000000000).toInt32).toInt64 = Int64.ofInt (t.toInt.tmod 1000000000) := by
      rw [← Int64.toInt_inj, Int32.toInt_toInt64, hrem,
        Int64.toInt_ofInt_of_le (by omega) (by omega)]
    rw [hnanos, hquot, hc, ← Int64.ofInt_mul, ← Int64.ofInt_add, hsum, Int64.ofInt_toInt]

theorem combineTimestamp_splitTimestamp {t : Int64} (h : TimestampOk t) :
    combineTimestamp (splitTimestamp t) = some t := by
  obtain ⟨t', ht'⟩ := Option.isSome_iff_exists.mp h
  rw [ht']
  rw [combineTimestamp] at ht'
  split_ifs at ht'
  rw [← Option.some.inj ht', splitTimestamp_sum]

/-! ### Exactness

`TimestampParts.value` is the instant over the integers. The bounds on the seconds are quotients cut
off towards zero, and at the lower end that is one second too high: the last instants of the range
split into parts that are not put together again. -/

/-- The instant two parts stand for. -/
def TimestampParts.value (parts : TimestampParts) : ℤ :=
  parts.seconds.toInt * 1000000000 + parts.nanos.toInt

/-- A result of type `int64_t`, none when the true one leaves the range. -/
def checked (z : ℤ) : Option Int64 :=
  if Int64.minValue.toInt ≤ z ∧ z ≤ Int64.maxValue.toInt then some (.ofInt z) else none

/-- What `combineTimestamp` is to return: the instant, if the parts are in range and so is it. -/
def combineExact (parts : TimestampParts) : Option Int64 :=
  if 0 ≤ parts.nanos.toInt ∧ parts.nanos.toInt < 1000000000 then checked parts.value else none

/-- `combineTimestamp` over the integers, with a check on each intermediate result. -/
def combineTimestampChecked (parts : TimestampParts) : Option (Option Int64) :=
  if parts.nanos < 0 ∨ 1000000000 ≤ parts.nanos.toInt64 then some none
  else if Int64.maxValue / 1000000000 < parts.seconds ∨
      parts.seconds < Int64.minValue / 1000000000 then some none
  else
    (checked (parts.seconds.toInt * 1000000000)).bind fun secondsNs ↦
      (checked (Int64.maxValue.toInt - parts.nanos.toInt)).bind fun room ↦
        if room < secondsNs then some none
        else (checked (secondsNs.toInt + parts.nanos.toInt)).map some

/-- The lower bound on the seconds, in nanoseconds: `INT64_MIN` cut off to a whole second. -/
def combineLowest : ℤ := -9223372036000000000

theorem checked_of_mem {z : ℤ} (h1 : -2 ^ 63 ≤ z) (h2 : z < 2 ^ 63) :
    checked z = some (.ofInt z) ∧ (Int64.ofInt z).toInt = z := by
  refine ⟨?_, Int64.toInt_ofInt_of_le h1 h2⟩
  rw [checked, Int64.toInt_minValue, Int64.toInt_maxValue, if_pos (by omega)]

/-- The four tests, read over the integers. -/
private theorem combine_tests (parts : TimestampParts) :
    (parts.nanos < 0 ↔ parts.nanos.toInt < 0) ∧
      (1000000000 ≤ parts.nanos.toInt64 ↔ 1000000000 ≤ parts.nanos.toInt) ∧
      (Int64.maxValue / 1000000000 < parts.seconds ↔ 9223372036 < parts.seconds.toInt) ∧
      (parts.seconds < Int64.minValue / 1000000000 ↔ parts.seconds.toInt < -9223372036) := by
  have hmax : (Int64.maxValue / 1000000000).toInt = 9223372036 := by decide
  have hmin : (Int64.minValue / 1000000000).toInt = -9223372036 := by decide
  rw [Int32.lt_iff_toInt_lt, Int64.le_iff_toInt_le, Int64.lt_iff_toInt_lt, Int64.lt_iff_toInt_lt,
    hmax, hmin, Int32.toInt_toInt64]
  exact ⟨Iff.rfl, Iff.rfl, Iff.rfl, Iff.rfl⟩

/-- Behind the tests nothing leaves the range, so the machine computes the true values. -/
private theorem combine_exact {parts : TimestampParts} (h1 : 0 ≤ parts.nanos.toInt)
    (h2 : parts.nanos.toInt < 1000000000) (h3 : parts.seconds.toInt ≤ 9223372036)
    (h4 : -9223372036 ≤ parts.seconds.toInt) :
    (parts.seconds * 1000000000).toInt = parts.seconds.toInt * 1000000000 ∧
      (Int64.maxValue - parts.nanos.toInt64).toInt = Int64.maxValue.toInt - parts.nanos.toInt ∧
      (parts.value ≤ Int64.maxValue.toInt →
        parts.seconds * 1000000000 + parts.nanos.toInt64 = .ofInt parts.value) := by
  have hbillion : (1000000000 : Int64).toInt = 1000000000 := by decide
  have hmul : (parts.seconds * 1000000000).toInt = parts.seconds.toInt * 1000000000 := by
    rw [Int64.toInt_mul, hbillion]
    exact Int.bmod_eq_of_le (by omega) (by omega)
  refine ⟨hmul, ?_, fun hle ↦ ?_⟩
  · rw [Int64.toInt_sub, Int32.toInt_toInt64, Int64.toInt_maxValue]
    exact Int.bmod_eq_of_le (by omega) (by omega)
  · rw [TimestampParts.value, Int64.toInt_maxValue] at hle
    rw [← Int64.toInt_inj, Int64.toInt_add, Int32.toInt_toInt64, hmul, TimestampParts.value,
      Int64.toInt_ofInt_of_le (by omega) (by omega)]
    exact Int.bmod_eq_of_le (by omega) (by omega)

/-- What `combineTimestamp` accepts and returns, over the integers. -/
theorem combineTimestamp_eq (parts : TimestampParts) : combineTimestamp parts =
    if 0 ≤ parts.nanos.toInt ∧ parts.nanos.toInt < 1000000000 ∧ combineLowest ≤ parts.value ∧
      parts.value ≤ Int64.maxValue.toInt then some (.ofInt parts.value) else none := by
  obtain ⟨t1, t2, t3, t4⟩ := combine_tests parts
  simp only [combineTimestamp, t1, t2, t3, t4]
  by_cases hin : (0 ≤ parts.nanos.toInt ∧ parts.nanos.toInt < 1000000000) ∧
      parts.seconds.toInt ≤ 9223372036 ∧ -9223372036 ≤ parts.seconds.toInt
  · obtain ⟨⟨h1, h2⟩, h3, h4⟩ := hin
    obtain ⟨hmul, hsub, hsum⟩ := combine_exact h1 h2 h3 h4
    have hvalue : parts.value = parts.seconds.toInt * 1000000000 + parts.nanos.toInt := rfl
    rw [if_neg (by omega), if_neg (by omega), combineLowest]
    simp only [Int64.lt_iff_toInt_lt, hmul, hsub]
    by_cases hle : parts.value ≤ Int64.maxValue.toInt
    · rw [if_neg (by omega), if_pos (by omega), hsum hle]
    · rw [if_pos (by omega), if_neg (by omega)]
  · have hnone : ¬(0 ≤ parts.nanos.toInt ∧ parts.nanos.toInt < 1000000000 ∧
        combineLowest ≤ parts.value ∧ parts.value ≤ Int64.maxValue.toInt) := by
      rw [combineLowest, TimestampParts.value, Int64.toInt_maxValue]
      omega
    rw [if_neg hnone]
    split_ifs <;> first | rfl | omega

theorem combineTimestampChecked_eq (parts : TimestampParts) :
    combineTimestampChecked parts = some (combineTimestamp parts) := by
  obtain ⟨t1, t2, t3, t4⟩ := combine_tests parts
  rw [combineTimestampChecked, combineTimestamp]
  split_ifs with hnanos hseconds hroom
  · rfl
  · rfl
  all_goals
    rw [t1, t2] at hnanos
    rw [t3, t4] at hseconds
    obtain ⟨hmul, hsub, hsum⟩ := @combine_exact parts (by omega) (by omega) (by omega) (by omega)
    obtain ⟨hc1, hi1⟩ := checked_of_mem (z := parts.seconds.toInt * 1000000000) (by omega) (by omega)
    obtain ⟨hc2, hi2⟩ := checked_of_mem (z := Int64.maxValue.toInt - parts.nanos.toInt)
      (by rw [Int64.toInt_maxValue]; omega) (by rw [Int64.toInt_maxValue]; omega)
    rw [Int64.lt_iff_toInt_lt, hmul, hsub] at hroom
    simp only [hc1, Option.bind_some, hc2, Int64.lt_iff_toInt_lt, hi1, hi2]
  · rw [if_pos hroom]
  · have hle : parts.value ≤ Int64.maxValue.toInt := by
      rw [TimestampParts.value]
      omega
    rw [Int64.toInt_maxValue, TimestampParts.value] at hle
    rw [if_neg hroom, (checked_of_mem (by omega) (by omega)).1, Option.map_some, hsum]
    · rfl
    · rw [Int64.toInt_maxValue, TimestampParts.value]
      exact hle

/-- The split is floor division. -/
theorem splitTimestamp_value (t : Int64) :
    0 ≤ (splitTimestamp t).nanos.toInt ∧ (splitTimestamp t).nanos.toInt < 1000000000 ∧
      (splitTimestamp t).value = t.toInt := by
  have hrem := toInt_remainder t
  have hsum := Int.mul_tdiv_add_tmod t.toInt 1000000000
  have hlt := Int.tmod_lt_of_pos t.toInt (b := 1000000000) (by decide)
  have hge := Int.lt_tmod_of_pos t.toInt (b := 1000000000) (by decide)
  have hle := t.le_toInt
  have hlt' := t.toInt_lt
  have hquot : (t / 1000000000).toInt = t.toInt.tdiv 1000000000 := by
    have h : (1000000000 : Int64).toInt = 1000000000 := by decide
    rw [Int64.toInt_div, h]
    exact Int.bmod_eq_of_le (by omega) (by omega)
  rw [splitTimestamp]
  split_ifs with hneg
  · rw [Int32.lt_iff_toInt_lt, hrem] at hneg
    have hnanos : ((t % 1000000000).toInt32 + 1000000000).toInt
        = t.toInt.tmod 1000000000 + 1000000000 := by
      have h : (1000000000 : Int32).toInt = 1000000000 := by decide
      rw [Int32.toInt_add, hrem, h]
      exact Int.bmod_eq_of_le (by omega) (by omega)
    have hseconds : (t / 1000000000 - 1).toInt = t.toInt.tdiv 1000000000 - 1 := by
      have h : (1 : Int64).toInt = 1 := by decide
      rw [Int64.toInt_sub, hquot, h]
      exact Int.bmod_eq_of_le (by omega) (by omega)
    simp only [TimestampParts.value, hnanos, hseconds]
    change t.toInt.tmod 1000000000 < 0 at hneg
    omega
  · rw [Int32.lt_iff_toInt_lt, hrem] at hneg
    change ¬t.toInt.tmod 1000000000 < 0 at hneg
    simp only [TimestampParts.value, hrem, hquot]
    omega

/-- Splitting is exact for every instant, and combining never overflows. It accepts exactly the
parts in range, and undoes the split, but for the instants below the last whole second. -/
theorem timestamp_exact_iff (t : Int64) (parts : TimestampParts) :
    (0 ≤ (splitTimestamp t).nanos.toInt ∧ (splitTimestamp t).nanos.toInt < 1000000000 ∧
      (splitTimestamp t).value = t.toInt) ∧
    combineTimestampChecked parts = some (combineTimestamp parts) ∧
    (combineTimestamp parts = combineExact parts ↔
      ¬((0 ≤ parts.nanos.toInt ∧ parts.nanos.toInt < 1000000000) ∧
        Int64.minValue.toInt ≤ parts.value ∧ parts.value < combineLowest)) ∧
    (combineTimestamp (splitTimestamp t) = some t ↔ combineLowest ≤ t.toInt) := by
  refine ⟨splitTimestamp_value t, combineTimestampChecked_eq parts, ?_, ?_⟩
  · have hlowest : combineLowest = -9223372036000000000 := rfl
    simp only [combineTimestamp_eq, combineExact, checked, Int64.toInt_minValue,
      Int64.toInt_maxValue]
    split_ifs <;> simp <;> omega
  · obtain ⟨h1, h2, hvalue⟩ := splitTimestamp_value t
    have hmax : t.toInt ≤ Int64.maxValue.toInt := by
      rw [Int64.toInt_maxValue]
      exact Int.le_sub_one_of_lt t.toInt_lt
    rw [combineTimestamp_eq, hvalue, Int64.ofInt_toInt]
    split_ifs with hin
    · exact iff_of_true rfl hin.2.2.1
    · exact iff_of_false (by simp) fun h ↦ hin ⟨h1, h2, h, hmax⟩

/-- The lowest instant of all splits into parts that are rejected. -/
theorem combineTimestamp_minValue : ¬ ∀ t, combineTimestamp (splitTimestamp t) = some t :=
  fun h ↦ absurd (h Int64.minValue) (by decide)

def writeTimestamp (timestampNs : Int64) : List UInt8 :=
  Writer.varint 1 (splitTimestamp timestampNs).seconds.toUInt64.toNat ++
    Writer.varint 2 (splitTimestamp timestampNs).nanos.toUInt32.toNat

def timestampHandler : FieldHandler TimestampParts := fun tag r parts ↦
  if tag.type ≠ .varint then (false, r, parts)
  else
    match readVarint r with
    | (none, r₁) => (false, r₁, parts)
    | (some v, r₁) =>
      if tag.field = 1 then (true, r₁, { parts with seconds := (UInt64.ofNat v).toInt64 })
      else if tag.field = 2 then (true, r₁, { parts with nanos := (UInt32.ofNat v).toInt32 })
      -- the varint of an unknown field is gone by now
      else (false, r₁, parts)

/-- What the fields of a timestamp mean: seconds, nanoseconds, and nothing else. -/
def timestampMeaning (tag : Tag) (p : Payload) (parts : TimestampParts) : TimestampParts :=
  match tag.field, p with
  | 1, .varint v => { parts with seconds := (UInt64.ofNat v).toInt64 }
  | 2, .varint v => { parts with nanos := (UInt32.ofNat v).toInt32 }
  | _, _ => parts

private theorem varint_of_readPayload {type : WireType} {r r' : Reader} {v : ℕ}
    (h : readPayload type r = some (.varint v, r')) : type = .varint := by
  cases type <;> simp_all [readPayload]

def Handler.timestamp : Handler TimestampParts where
  run := timestampHandler
  meaning tag p parts := some (timestampMeaning tag p parts)
  resumes _ _ _ := false
  suffix tag r parts := by
    have hsuf := readVarint_suffix r
    rw [timestampHandler]
    by_cases htype : tag.type ≠ .varint
    · rw [if_pos htype]
    · rw [if_neg htype]
      rcases hv : readVarint r with ⟨v, r₁⟩
      rw [hv] at hsuf
      cases v with
      | none => exact hsuf
      | some v =>
        dsimp only
        split_ifs <;> exact hsuf
  taken tag r parts r' parts' hok _ := by
    rw [timestampHandler] at hok
    by_cases htype : tag.type = .varint
    · rw [if_neg (not_not.mpr htype)] at hok
      rcases hv : readVarint r with ⟨v, r₁⟩
      cases v with
      | none => simp [hv] at hok
      | some v =>
        have hp : readPayload tag.type r = some (.varint v, r₁) := by
          rw [htype, readPayload, hv]
          rfl
        simp only [hv] at hok
        split_ifs at hok with h₁ h₂
        · simp only [Prod.mk.injEq, true_and] at hok
          obtain ⟨rfl, rfl⟩ := hok
          exact ⟨_, hp, by simp only [timestampMeaning, h₁]⟩
        · simp only [Prod.mk.injEq, true_and] at hok
          obtain ⟨rfl, rfl⟩ := hok
          exact ⟨_, hp, by simp only [timestampMeaning, h₂]⟩
        · simp at hok
    · rw [if_pos htype] at hok
      simp at hok
  declined tag r parts parts' p r' hno hp := by
    rw [timestampHandler] at hno
    by_cases htype : tag.type = .varint
    · -- a complete varint has been consumed, so the cursor is not where it was
      rw [if_neg (not_not.mpr htype)] at hno
      rw [htype, readPayload] at hp
      rcases hv : readVarint r with ⟨v, r₁⟩
      cases v with
      | none => simp [hv] at hp
      | some v =>
        have hlt := readVarint_length_lt hv
        simp only [hv] at hno
        split_ifs at hno
        all_goals simp only [Prod.mk.injEq, Bool.true_eq_false, false_and, true_and] at hno
        rw [hno.1] at hlt
        exact absurd hlt (lt_irrefl _)
    · rw [if_pos htype] at hno
      simp only [Prod.mk.injEq, true_and] at hno
      refine ⟨hno.symm, ?_⟩
      cases p with
      | varint v => exact absurd (varint_of_readPayload hp) htype
      | fixed64 v => simp [timestampMeaning]
      | lengthDelimited data => simp [timestampMeaning]
      | fixed32 v => simp [timestampMeaning]

def decodeTimestamp : MessageDecoder Int64 :=
  .ofLocals (.ofBody (.ofHandler .timestamp)) {} combineTimestamp

theorem decodeTimestamp_writeTimestamp {t : Int64} (ht : TimestampOk t) (old : Int64)
    (hlen : (writeTimestamp t).length < 2 ^ 64) :
    decodeTimestamp.decode (writeTimestamp t) old = .ok t := by
  have hseconds : (FieldBody.ofHandler .timestamp).Parses
      (Writer.varint 1 (splitTimestamp t).seconds.toUInt64.toNat) {}
      ⟨(splitTimestamp t).seconds, 0⟩ := by
    refine FieldBody.parses_of_run (by decide) (by decide) fun _ rest ↦ ?_
    have hv := (splitTimestamp t).seconds.toUInt64.toNat_lt
    simp [FieldBody.ofHandler, Handler.timestamp, parseFieldsBody, timestampHandler,
      readVarint_append hv]
  have hnanos : (FieldBody.ofHandler .timestamp).Parses
      (Writer.varint 2 (splitTimestamp t).nanos.toUInt32.toNat)
      ⟨(splitTimestamp t).seconds, 0⟩ (splitTimestamp t) := by
    refine FieldBody.parses_of_run (by decide) (by decide) fun _ rest ↦ ?_
    have hv : (splitTimestamp t).nanos.toUInt32.toNat < 2 ^ 64 :=
      (splitTimestamp t).nanos.toUInt32.toNat_lt.trans (by decide)
    simp [FieldBody.ofHandler, Handler.timestamp, parseFieldsBody, timestampHandler,
      readVarint_append hv]
  exact decode_ofLocals ((hseconds.append hnanos).whileFields_eq hlen id)
    (combineTimestamp_splitTimestamp ht)

/-! ## Vector3 and Point3 -/

structure Vector3 where
  x : Binary64 := Binary64.zero
  y : Binary64 := Binary64.zero
  z : Binary64 := Binary64.zero
  deriving DecidableEq, Repr

def writeVector3 (v : Vector3) : List UInt8 :=
  Writer.doubleField 1 v.x ++ Writer.doubleField 2 v.y ++ Writer.doubleField 3 v.z

def vector3Fields : List (ℕ × FieldReader Vector3) :=
  [(1, .double fun out v ↦ { out with x := v }),
   (2, .double fun out v ↦ { out with y := v }),
   (3, .double fun out v ↦ { out with z := v })]

def decodeVector3 : MessageDecoder Vector3 := .ofFields vector3Fields

theorem decodeVector3_writeVector3 (v old : Vector3) (hlen : (writeVector3 v).length < 2 ^ 64) :
    decodeVector3.decode (writeVector3 v) old = .ok v := by
  have hb := FieldBody.uses_ofFields vector3Fields
  exact decode_ofFields (.append (.append
    (parses_double hb 1 rfl v.x)
    (parses_double hb 2 rfl v.y))
    (parses_double hb 3 rfl v.z)) hlen

/-- The wire shape of a vector, under a name of its own. -/
structure Point3 where
  x : Binary64 := Binary64.zero
  y : Binary64 := Binary64.zero
  z : Binary64 := Binary64.zero
  deriving DecidableEq, Repr

def writePoint3 (p : Point3) : List UInt8 :=
  Writer.doubleField 1 p.x ++ Writer.doubleField 2 p.y ++ Writer.doubleField 3 p.z

def point3Fields : List (ℕ × FieldReader Point3) :=
  [(1, .double fun out v ↦ { out with x := v }),
   (2, .double fun out v ↦ { out with y := v }),
   (3, .double fun out v ↦ { out with z := v })]

def decodePoint3 : MessageDecoder Point3 := .ofFields point3Fields

theorem decodePoint3_writePoint3 (p old : Point3) (hlen : (writePoint3 p).length < 2 ^ 64) :
    decodePoint3.decode (writePoint3 p) old = .ok p := by
  have hb := FieldBody.uses_ofFields point3Fields
  exact decode_ofFields (.append (.append
    (parses_double hb 1 rfl p.x)
    (parses_double hb 2 rfl p.y))
    (parses_double hb 3 rfl p.z)) hlen

/-! ## Quaternion and Pose -/

structure Quaternion where
  x : Binary64 := Binary64.zero
  y : Binary64 := Binary64.zero
  z : Binary64 := Binary64.zero
  w : Binary64 := Binary64.one
  deriving DecidableEq, Repr

def writeQuaternion (q : Quaternion) : List UInt8 :=
  Writer.doubleField 1 q.x ++ Writer.doubleField 2 q.y ++ Writer.doubleField 3 q.z ++
    Writer.doubleField 4 q.w

def quaternionFields : List (ℕ × FieldReader Quaternion) :=
  [(1, .double fun out v ↦ { out with x := v }),
   (2, .double fun out v ↦ { out with y := v }),
   (3, .double fun out v ↦ { out with z := v }),
   (4, .double fun out v ↦ { out with w := v })]

def decodeQuaternion : MessageDecoder Quaternion := .ofFields quaternionFields

theorem decodeQuaternion_writeQuaternion (q old : Quaternion)
    (hlen : (writeQuaternion q).length < 2 ^ 64) :
    decodeQuaternion.decode (writeQuaternion q) old = .ok q := by
  have hb := FieldBody.uses_ofFields quaternionFields
  exact decode_ofFields (.append (.append (.append
    (parses_double hb 1 rfl q.x)
    (parses_double hb 2 rfl q.y))
    (parses_double hb 3 rfl q.z))
    (parses_double hb 4 rfl q.w)) hlen

structure Pose where
  position : Vector3 := {}
  orientation : Quaternion := {}
  deriving DecidableEq, Repr

def writePose (p : Pose) : List UInt8 :=
  Writer.message 1 (writeVector3 p.position) ++ Writer.message 2 (writeQuaternion p.orientation)

def poseFields : List (ℕ × FieldReader Pose) :=
  [(1, .message decodeVector3 (·.position) fun out v ↦ { out with position := v }),
   (2, .message decodeQuaternion (·.orientation) fun out v ↦ { out with orientation := v })]

def decodePose : MessageDecoder Pose := .ofFields poseFields

theorem decodePose_writePose (p old : Pose) (hlen : (writePose p).length < 2 ^ 64) :
    decodePose.decode (writePose p) old = .ok p := by
  have hb := FieldBody.uses_ofFields poseFields
  exact decode_ofFields (.append
    (parses_message hb 1 rfl (decodeVector3_writeVector3 p.position _))
    (parses_message hb 2 rfl (decodeQuaternion_writeQuaternion p.orientation _))) hlen

/-! ## Color -/

structure ColorRGBA where
  r : UInt8 := 0
  g : UInt8 := 0
  b : UInt8 := 0
  a : UInt8 := 255
  deriving DecidableEq, Repr

/-- The four channels as they travel. -/
structure UnitRGBA where
  r : Binary64
  g : Binary64
  b : Binary64
  a : Binary64
  deriving DecidableEq, Repr

def writeColor (A : FloatArith) (color : ColorRGBA) : List UInt8 :=
  Writer.doubleField 1 (A.byteToUnit color.r) ++ Writer.doubleField 2 (A.byteToUnit color.g) ++
    Writer.doubleField 3 (A.byteToUnit color.b) ++ Writer.doubleField 4 (A.byteToUnit color.a)

def colorFields : List (ℕ × FieldReader UnitRGBA) :=
  [(1, .double fun out v ↦ { out with r := v }),
   (2, .double fun out v ↦ { out with g := v }),
   (3, .double fun out v ↦ { out with b := v }),
   (4, .double fun out v ↦ { out with a := v })]

def toColorRGBA (A : FloatArith) (c : UnitRGBA) : ColorRGBA :=
  ⟨A.normalizedToByte c.r, A.normalizedToByte c.g, A.normalizedToByte c.b, A.normalizedToByte c.a⟩

/-- A channel that is missing on the wire is zero, the alpha channel included. -/
def decodeColor (A : FloatArith) : MessageDecoder ColorRGBA :=
  .ofLocals (.ofFields colorFields)
    ⟨Binary64.zero, Binary64.zero, Binary64.zero, Binary64.zero⟩ fun c ↦ some (toColorRGBA A c)

/-- Bytes survive the way to the unit interval and back. -/
def FloatArith.ColorsExact (A : FloatArith) : Prop :=
  ∀ b, A.normalizedToByte (A.byteToUnit b) = b

section Color

variable {A : FloatArith}

theorem parses_color {body : FieldBody UnitRGBA UnitRGBA} (hb : body.Uses colorFields)
    (c : ColorRGBA) (old : UnitRGBA) :
    body.Parses (writeColor A c) old
      ⟨A.byteToUnit c.r, A.byteToUnit c.g, A.byteToUnit c.b, A.byteToUnit c.a⟩ :=
  .append (.append (.append
    (parses_double hb 1 rfl _)
    (parses_double hb 2 rfl _))
    (parses_double hb 3 rfl _))
    (parses_double hb 4 rfl _)

theorem toColorRGBA_byteToUnit (hA : A.ColorsExact) (c : ColorRGBA) :
    toColorRGBA A ⟨A.byteToUnit c.r, A.byteToUnit c.g, A.byteToUnit c.b, A.byteToUnit c.a⟩ = c := by
  rw [toColorRGBA, hA, hA, hA, hA]

theorem decodeColor_writeColor (hA : A.ColorsExact) (c old : ColorRGBA)
    (hlen : (writeColor A c).length < 2 ^ 64) :
    (decodeColor A).decode (writeColor A c) old = .ok c :=
  decode_ofLocals (decode_ofFields (parses_color (FieldBody.uses_ofFields colorFields) c _) hlen)
    (congrArg some (toColorRGBA_byteToUnit hA c))

end Color

end PlotJuggler
